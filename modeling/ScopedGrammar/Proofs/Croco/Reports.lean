/-
# Reports of brackets

When a closing bracket is missing, the report names it together with the opening bracket and
the line where that stands. The line is not in the message of the demand: there the name that
every opening bracket binds is a placeholder, and what it means is read from the scope. So a
report is about the bracket that the scope says. It is right if this is the innermost bracket
that is open where the report is made. No other message of the grammar begins like a report.
-/

import ScopedGrammar.Proofs.Croco.OpenBrackets
import ScopedGrammar.Proofs.Croco.Phrases
import ScopedGrammar.Proofs.Decimal.Integers
import ScopedGrammar.Proofs.Match.Stopping

namespace ScopedGrammar.Croco

variable {text : String} {scope : Scope} {place : Position} {opened : List (Bracket × Nat)}
  {bracket : Bracket}

/-- The report of a bracket that is not closed. -/
def unclosedReport (closing opening : Char) (line : Nat) : String :=
  "expected closing '" ++ String.ofList [closing] ++ "' for '" ++ String.ofList [opening] ++
    "' opened on line " ++ toString line

/-- A report blames the innermost open bracket. -/
def Blames (text : String) (diagnostic : Diagnostic) : Prop :=
  ∀ closing opening line, diagnostic.message = unclosedReport closing opening line →
    ∃ bracket : Bracket, bracket.opening = opening ∧ bracket.closing = closing ∧
      (openBrackets (text.toList.take diagnostic.position.offset)).head? = some (bracket, line)

theorem toList_around (first second third last : String) (c d : Char) :
    (first ++ String.ofList [c] ++ second ++ String.ofList [d] ++ third ++ last).toList =
      first.toList ++ (c :: (second.toList ++ (d :: (third.toList ++ last.toList)))) := by
  simp only [String.toList_append, String.toList_ofList, List.append_assoc, List.cons_append,
    List.nil_append]

theorem ofList_around (first second third last : String) (c d : Char) :
    String.ofList (first.toList ++ (c :: (second.toList ++ (d :: third.toList)))) ++ last =
      first ++ String.ofList [c] ++ second ++ String.ofList [d] ++ third ++ last := by
  rw [← String.toList_inj, toList_around]
  simp only [String.toList_append, String.toList_ofList, List.append_assoc, List.cons_append]

theorem toList_unclosedReport (closing opening : Char) (line : Nat) :
    (unclosedReport closing opening line).toList =
      "expected closing '".toList ++ (closing :: ("' for '".toList ++
        (opening :: ("' opened on line ".toList ++ (toString line).toList)))) :=
  toList_around _ _ _ _ closing opening

theorem unclosedReport_inj {closing opening otherClosing otherOpening : Char} {line other : Nat}
    (hsame : unclosedReport closing opening line = unclosedReport otherClosing otherOpening other) :
    closing = otherClosing ∧ opening = otherOpening ∧ line = other := by
  have hlists := congrArg String.toList hsame
  rw [toList_unclosedReport, toList_unclosedReport, List.append_cancel_left_eq, List.cons.injEq,
    List.append_cancel_left_eq, List.cons.injEq, List.append_cancel_left_eq,
    String.toList_inj] at hlists
  exact ⟨hlists.1, hlists.2.1, Decimal.toString_inj hlists.2.2⟩

/-- Whether the text of a message differs from another one before any placeholder. -/
def departs : List Message.Piece → List Char → Bool
  | .char c :: pieces, d :: other => c != d || departs pieces other
  | _, _ => false

theorem not_prefix_of_departs {pieces : List Message.Piece} {other : List Char}
    (hdeparts : departs pieces other = true) (scope : Scope) (place : Position)
    (input : Input Silence) :
    ¬ other <+: (Message.renderPieces scope place pieces input).1.toList := by
  induction pieces generalizing other with
  | nil => cases hdeparts
  | cons piece pieces ih =>
      cases piece with
      | char c =>
          cases other with
          | nil => cases hdeparts
          | cons d other =>
              have hrendered := Message.renderPieces_plain_append scope place [c] pieces input
              rw [List.map_singleton, List.singleton_append] at hrendered
              rw [hrendered, String.toList_append, String.toList_ofList, List.singleton_append,
                List.cons_prefix_cons]
              rintro ⟨rfl, hrest⟩
              rw [departs, bne_self_eq_false, Bool.false_or] at hdeparts
              exact ih hdeparts hrest
      | _ => cases other <;> cases hdeparts

/-- Whether a message cannot be taken for the report of a bracket. -/
def isOther (message : Message) : Bool :=
  departs message.pieces "expected closing '".toList

theorem blames_of_other {message : Message} (hother : isOther message = true) (scope : Scope)
    (place : Position) : Blames text (complaint text message scope place) := by
  intro closing opening line hmessage
  rw [message_complaint, ← String.toList_inj, toList_unclosedReport] at hmessage
  exact absurd (hmessage ▸ List.prefix_append _ _) (not_prefix_of_departs hother scope place _)

/-- What is left over at the end is reported in other words. -/
theorem blames_unconsumed (text : String) (place : Position) :
    Blames text (Diagnostic.unconsumed place (Input.ofText text)).1 := by
  intro closing opening line hmessage
  rw [← String.toList_inj, toList_unclosedReport, Diagnostic.unconsumed] at hmessage
  have hhead := congrArg List.head? hmessage
  split at hhead <;> simp [Diagnostic.message_raise] at hhead

/-- The message of the demand for a closing bracket. -/
def Bracket.unclosed (bracket : Bracket) : Message where
  pieces :=
    ("expected closing '".toList ++ (bracket.closing :: ("' for '".toList ++
      (bracket.opening :: "' opened on line ".toList)))).map .char ++ [.lineOf "bracket_opening"]

theorem Bracket.render_line (text : String) (stop : Position)
    (hbound : scope.find? "bracket_opening" = some (.value (bracket.token place))) :
    (Message.renderPieces scope stop [.lineOf "bracket_opening"]
      (Input.ofText text)).1 = toString place.line := by
  have hvalue : scope.value? "bracket_opening" = some (bracket.token place) := by
    rw [Scope.value?, hbound]
    rfl
  have hline : Message.ofLine scope "bracket_opening" = toString place.line := by
    rw [Message.ofLine, hvalue]
    rfl
  have hrendered : (Message.renderPieces scope stop [.lineOf "bracket_opening"]
      (Input.ofText text)).1 = Message.ofLine scope "bracket_opening" ++ "" := rfl
  rw [hrendered, hline, String.append_empty]

theorem Bracket.message_unclosed (text : String) (stop : Position)
    (hbound : scope.find? "bracket_opening" = some (.value (bracket.token place))) :
    (complaint text bracket.unclosed scope stop).message =
      unclosedReport bracket.closing bracket.opening place.line := by
  have hrendered := Message.renderPieces_plain_append scope stop
    ("expected closing '".toList ++ (bracket.closing :: ("' for '".toList ++
      (bracket.opening :: "' opened on line ".toList)))) [.lineOf "bracket_opening"]
    (Input.ofText text)
  have hline := bracket.render_line text stop hbound
  have hmessage : (bracket.unclosed.render scope stop (Input.ofText text)).1 = _ :=
    congrArg Prod.fst hrendered
  rw [message_complaint, hmessage, hline]
  exact ofList_around _ _ _ _ bracket.closing bracket.opening

/-- The report where the closing bracket is missing blames the bracket that is to be closed. -/
theorem blames_unclosed {stop : Position}
    (hclear : Clear text ((bracket, place.line) :: opened) stop)
    (hbound : scope.find? "bracket_opening" = some (.value (bracket.token place))) :
    Blames text (complaint text bracket.unclosed scope stop) := by
  intro closing opening line hmessage
  rw [bracket.message_unclosed text stop hbound] at hmessage
  obtain ⟨rfl, rfl, rfl⟩ := unclosedReport_inj hmessage
  rw [position_complaint, hclear.opened_eq]
  exact ⟨bracket, rfl, rfl, rfl⟩

end ScopedGrammar.Croco
