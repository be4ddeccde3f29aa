/-
# Where diagnostics point

A diagnostic of a parse is raised in one of two ways: by a demand that is not met, deep
inside the match, or after the match, when the text does not go on as the grammar needs it.
In both cases it is raised at a position that the start of the parse leads to. So its line,
its column and its bytes can be counted on the text, whatever the grammar is and however the
match came there.
-/

import ScopedGrammar.Grammar.Basic
import ScopedGrammar.Proofs.Input.Counting
import ScopedGrammar.Proofs.Match.Halting
import ScopedGrammar.Proofs.Match.Streaming
import Mathlib

namespace ScopedGrammar

variable {π : Type} [Producer π]

/-- A demand that is not met raises the diagnostic, at a position that matching has come to
from another one. -/
def Demanded (diagnostic : Diagnostic) (here : Spot π) (after : Input π) : Prop :=
  ∃ place message between, here.input.GrowsTo between ∧
    here.position.Leads between.buffer.toList place ∧
    Diagnostic.expected message place between = (diagnostic, after)

/-- What is demanded later is demanded from where that began. -/
theorem Demanded.after_derives {diagnostic : Diagnostic} {task : Task} {here middle : Spot π}
    {values : List Value} {after : Input π} (hdemanded : Demanded diagnostic middle after)
    (derived : Derives task here values middle) : Demanded diagnostic here after := by
  obtain ⟨place, message, between, hgrows, hleads, hraised⟩ := hdemanded
  refine ⟨place, message, between, derived.growsTo.trans hgrows, ?_, hraised⟩
  exact (derived.leads.mono hgrows.received).trans hleads

theorem Demanded.after_growth {diagnostic : Diagnostic} {here : Spot π}
    {between after : Input π}
    (hdemanded : Demanded diagnostic { here with input := between } after)
    (hgrows : here.input.GrowsTo between) : Demanded diagnostic here after := by
  obtain ⟨place, message, next, hnext, hleads, hraised⟩ := hdemanded
  exact ⟨place, message, next, hgrows.trans hnext, hleads, hraised⟩

/-- A match halts with a diagnostic only where something is demanded. -/
theorem Halts.demanded {granted : Nat} {task : Task} {here : Spot π} {reason : Halt}
    {after : Input π} (halted : Halts granted task here reason after)
    {diagnostic : Diagnostic} (hreason : reason = .diagnostic diagnostic) :
    Demanded diagnostic here after := by
  induction halted with
  | unmet missed rendered raised =>
      cases hreason
      refine ⟨_, _, _, ?_, .refl _ _, raised⟩
      exact ((grows_run _ _ _ _).after missed).trans
        ((growing_renderPieces _ _ _).after rendered)
  | pattern raw ih => exact ih hreason
  | head first ih => exact ih hreason
  | tail first rest ih => exact (ih hreason).after_derives first
  | choice missed chosen ih =>
      exact (ih hreason).after_growth ((Match.grows_firstOf (grows_run _) _ _ _).after missed)
  | sequence all ih => exact ih hreason
  | round rounds moved next ih => exact (ih hreason).after_derives rounds
  | absence looked ih => exact ih hreason
  | demand demanded ih => exact ih hreason
  | capture captured ih => exact ih hreason
  | overlay known overlaid ih => exact ih hreason
  | rule known followed ih => exact ih hreason
  | _ => cases hreason

/-- A diagnostic stands at a position of a text, and its span covers the bytes of the
character there. -/
structure Diagnostic.PlacedIn (diagnostic : Diagnostic) (text : String) : Prop where
  leads : Position.start.Leads text.toList diagnostic.position
  first : diagnostic.span.first =
    (String.ofList (text.toList.take diagnostic.position.offset)).utf8ByteSize
  length : diagnostic.span.length =
    (text.toList[diagnostic.position.offset]?).elim 0 Char.utf8Size

/-- What a diagnostic says, with its span measured and the character at its place asked for. -/
theorem raise_eq (cause : Diagnostic.Cause) (message : String) (place : Position)
    (input : Input π) :
    Diagnostic.raise cause message place input =
      (⟨cause, message, place, ⟨(input.slice 0 place.offset).utf8ByteSize,
        (input.charAt place.offset).1.elim 0 Char.utf8Size⟩⟩, (input.charAt place.offset).2) := by
  rw [Diagnostic.raise]
  rcases input.charAt place.offset with ⟨_ | c, next⟩ <;> rfl

theorem Input.slice_ofText (text : String) (past : Nat) :
    (Input.ofText text).slice 0 past = String.ofList (text.toList.take past) := by
  rw [← String.toList_inj, Input.toList_slice]
  simp [Input.ofText]

/-- Raised over a complete text, a diagnostic stands where it is raised. -/
theorem raise_ofText (cause : Diagnostic.Cause) (message : String) {place : Position}
    {text : String} (hplace : Position.start.Leads text.toList place) :
    ((Diagnostic.raise cause message place (Input.ofText text)).1).PlacedIn text ∧
      (Diagnostic.raise cause message place (Input.ofText text)).1.position = place ∧
      (Diagnostic.raise cause message place (Input.ofText text)).1.cause = cause ∧
      (Diagnostic.raise cause message place (Input.ofText text)).1.message = message := by
  rw [raise_eq, Input.charAt_ofText, Input.slice_ofText]
  exact ⟨⟨hplace, rfl, rfl⟩, rfl, rfl, rfl⟩

/-- A demand over a complete text is raised where the start of the match leads to. -/
theorem Demanded.placed {diagnostic : Diagnostic} {scope : Scope} {text : String}
    {after : Input Silence}
    (hdemanded : Demanded diagnostic ⟨scope, Position.start, Input.ofText text⟩ after) :
    diagnostic.PlacedIn text ∧ diagnostic.cause = .expected := by
  obtain ⟨place, message, between, hgrows, hleads, hraised⟩ := hdemanded
  have hsame : between = Input.ofText text := hgrows.settled rfl
  subst hsame
  have hplace : Position.start.Leads text.toList place := by
    simpa [Input.ofText] using hleads
  obtain ⟨hplaced, -, hcause, -⟩ := raise_ofText .expected message hplace
  rw [Diagnostic.expected] at hraised
  rw [hraised] at hplaced hcause
  exact ⟨hplaced, hcause⟩

/-- What is left over is told by its first character, and only where there is none does the
text end too early. -/
theorem leftOver_ofText {place : Position} {text : String}
    (hplace : Position.start.Leads text.toList place) {diagnostic : Diagnostic}
    (hleft : (Run.leftOver place (Input.ofText text)).1 = .error (.diagnostic diagnostic)) :
    diagnostic.PlacedIn text ∧ diagnostic.position = place ∧
      ((∃ c, text.toList[place.offset]? = some c ∧ diagnostic.cause = .unconsumed ∧
          diagnostic.message = "unexpected character " ++ Text.quoteChar c ++ " at line " ++
            toString place.line ++ ", column " ++ toString place.column) ∨
        (text.toList[place.offset]? = none ∧ diagnostic.cause = .unexpectedEnd)) := by
  rw [Run.leftOver, Diagnostic.unconsumed, Input.charAt_ofText] at hleft
  cases hfound : text.toList[place.offset]? with
  | none =>
      simp only [hfound, Except.error.injEq, Halt.diagnostic.injEq] at hleft
      subst hleft
      obtain ⟨hplaced, hposition, hcause, -⟩ := raise_ofText _ _ hplace
      exact ⟨hplaced, hposition, .inr ⟨rfl, hcause⟩⟩
  | some c =>
      simp only [hfound, Except.error.injEq, Halt.diagnostic.injEq] at hleft
      subst hleft
      obtain ⟨hplaced, hposition, hcause, hmessage⟩ := raise_ofText _ _ hplace
      refine ⟨hplaced, hposition, .inl ⟨c, rfl, hcause, ?_⟩⟩
      rw [hmessage]
      simp only [String.append_assoc]

/-- The leading part of a parse leads on from the start of the text. -/
theorem Grammar.leads_of_leadingPart {grammar : Grammar} {granted : Nat} {text : String}
    {value : Value} {place : Position} {after : Input Silence}
    (hmatched : grammar.run.leadingPart granted (Input.ofText text) =
      (.matched (value, place), after)) :
    Position.start.Leads text.toList place ∧ after = Input.ofText text := by
  unfold Run.leadingPart at hmatched
  cases hrule : grammar.run.scope.rule? grammar.run.start with
  | none =>
      rw [hrule] at hmatched
      cases hmatched
  | some rule =>
      simp only [hrule, Attempt.bind_eq_andThen, Attempt.pure_eq_succeed,
        Attempt.andThen_eq_matched_iff, Attempt.succeed_eq_matched_iff] at hmatched
      obtain ⟨success, _, hrun, hresult, rfl⟩ := hmatched
      cases hresult
      have hderived := derives_of_run granted hrun
      refine ⟨?_, hderived.growsTo.settled rfl⟩
      have hleads := (derives_of_run_ofText hrun).leads
      rwa [Input.ofText, List.toList_toArray] at hleads

/-- A leading part that halts with a diagnostic has met a demand in vain. -/
theorem Run.demanded_of_leadingPart {run : Run} {granted : Nat} {diagnostic : Diagnostic}
    {input after : Input π}
    (hhalted : run.leadingPart granted input = (.halted (.diagnostic diagnostic), after)) :
    Demanded diagnostic ⟨run.scope, run.position, input⟩ after := by
  unfold Run.leadingPart at hhalted
  cases hrule : run.scope.rule? run.start with
  | none =>
      rw [hrule] at hhalted
      cases hhalted
  | some rule =>
      simp only [hrule, Attempt.bind_eq_andThen, Attempt.pure_eq_succeed,
        Attempt.andThen_eq_halted_iff, Attempt.succeed_ne_halted, and_false, exists_false,
        or_false] at hhalted
      exact (halts_of_run granted hhalted).demanded rfl

/-- A diagnostic of a parse comes from a demand in the match, or from what is left over
where the match ended, which is not the end, or from the start if nothing matched. -/
theorem Grammar.diagnostic_cases {grammar : Grammar} {granted : Nat} {text : String}
    {diagnostic : Diagnostic}
    (hparse : grammar.parse granted text = .error (.diagnostic diagnostic)) :
    (∃ after, Demanded diagnostic ⟨grammar.scope, Position.start, Input.ofText text⟩ after) ∨
      ∃ place, Position.start.Leads text.toList place ∧
        (text.toList[place.offset]? = none → place = Position.start) ∧
        (Run.leftOver place (Input.ofText text)).1 = .error (.diagnostic diagnostic) := by
  rw [Grammar.parse, Run.whole] at hparse
  split at hparse
  next reason after hhalted =>
    cases hparse
    exact .inl ⟨after, Run.demanded_of_leadingPart hhalted⟩
  next after hmissed =>
    have hsame : after = Input.ofText text := by
      have hagrees : Agrees text (grammar.run.leadingPart granted)
          (grammar.run.leadingPart granted) (Input.ofText text) :=
        grammar.run.agrees_leadingPart granted (Nat.zero_le _)
      exact (hagrees.after hmissed).settled rfl
    subst hsame
    exact .inr ⟨Position.start, .refl _ _, fun _ => rfl, hparse⟩
  next value place after hmatched =>
    obtain ⟨hleads, rfl⟩ := Grammar.leads_of_leadingPart hmatched
    rw [Input.isEnd, Input.charAt_ofText] at hparse
    refine .inr ⟨place, hleads, ?_, ?_⟩
    · intro hend
      simp [hend] at hparse
    · cases hfound : text.toList[place.offset]? with
      | none => simp [hfound] at hparse
      | some c => simpa [hfound] using hparse

/-- A diagnostic of a parse stands within the text or at its end, at the line and column
that counting gives, and its span covers the character there in bytes. Left-over text is
told by its first character, and only an empty text ends too early. -/
theorem parse_diagnostic_position (grammar : Grammar) (granted : Nat) (text : String)
    {diagnostic : Diagnostic}
    (hparse : grammar.parse granted text = .error (.diagnostic diagnostic)) :
    let place := diagnostic.position
    let before := text.toList.take place.offset
    place.offset ≤ text.length ∧
      place.line = 1 + before.count '\n' ∧
      place.column = 1 + (before.rtakeWhile staysOnLine).length ∧
      diagnostic.span.first = (String.ofList before).utf8ByteSize ∧
      diagnostic.span.length = (text.toList[place.offset]?).elim 0 Char.utf8Size ∧
      (diagnostic.cause = .unconsumed → ∃ c, text.toList[place.offset]? = some c ∧
        diagnostic.message = "unexpected character " ++ Text.quoteChar c ++ " at line " ++
          toString place.line ++ ", column " ++ toString place.column) ∧
      (diagnostic.cause = .unexpectedEnd →
        place = Position.start ∧ text.length ≤ Position.start.offset) := by
  intro place before
  have hcases : diagnostic.PlacedIn text ∧
      (diagnostic.cause = .unconsumed → ∃ c, text.toList[place.offset]? = some c ∧
        diagnostic.message = "unexpected character " ++ Text.quoteChar c ++ " at line " ++
          toString place.line ++ ", column " ++ toString place.column) ∧
      (diagnostic.cause = .unexpectedEnd →
        place = Position.start ∧ text.length ≤ Position.start.offset) := by
    rcases Grammar.diagnostic_cases hparse with ⟨after, hdemanded⟩ | ⟨spot, hleads, hend, hleft⟩
    · obtain ⟨hplaced, hcause⟩ := hdemanded.placed
      exact ⟨hplaced, by simp [hcause], by simp [hcause]⟩
    · obtain ⟨hplaced, rfl, hkind⟩ := leftOver_ofText hleads hleft
      rcases hkind with ⟨c, hfound, hcause, hmessage⟩ | ⟨hnone, hcause⟩
      · exact ⟨hplaced, fun _ => ⟨c, hfound, hmessage⟩, by simp [hcause]⟩
      · refine ⟨hplaced, by simp [hcause], fun _ => ⟨hend hnone, ?_⟩⟩
        rw [hend hnone] at hnone
        simpa [String.length_toList] using hnone
  obtain ⟨hplaced, hunconsumed, hunexpected⟩ := hcases
  have hpast : place = Position.start.past before := by
    simpa [Position.start] using hplaced.leads.eq_past
  refine ⟨?_, ?_, ?_, hplaced.first, hplaced.length, hunconsumed, hunexpected⟩
  · simpa [Position.start, String.length_toList] using hplaced.leads.offset_le_max
  · rw [hpast, Position.line_past]
    rfl
  · rw [hpast, Position.column_start_past]

/-- A demand on the second line, where characters of two bytes stand before the place and
at it. -/
theorem parse_diagnostic_position_on_second_line :
    let grammar := Grammar.ofDefinitions
      [("start", .rule ((Pattern.noneOf "ß").many.andThen
        ((Pattern.literal "!").demand "no mark")))] "start"
    let diagnostic : Diagnostic := ⟨.expected, "no mark", ⟨2, 3, 4⟩, ⟨6, 2⟩⟩
    grammar.parse 20 "é\nüxß" = .error (.diagnostic diagnostic) ∧
      diagnostic.position.line = 1 + ['é', '\n', 'ü', 'x'].count '\n' ∧
      diagnostic.span.first = (String.ofList ['é', '\n', 'ü', 'x']).utf8ByteSize := by
  intro grammar diagnostic
  have hparse : grammar.parse 20 "é\nüxß" = .error (.diagnostic diagnostic) := by cbv
  obtain ⟨-, hline, -, hfirst, -⟩ := parse_diagnostic_position grammar 20 "é\nüxß" hparse
  exact ⟨hparse, hline, hfirst⟩

end ScopedGrammar
