/-
# Brackets that are open

Someone who reads a program character by character knows which brackets are open at any point.
A bracket that opens is remembered with its line, and its counterpart closes it if no other is
open inside. Brackets between quotes do not count, up to the same quote again, and neither do
those in a comment, up to the end of its line. Nothing else of the grammar is needed for this.

A position is clear if it is not within a string or a comment, except that it may stand at the
end of a comment. From one clear position to the next, the open brackets change by the brackets
that are passed over, and strings and comments leave them as they are.
-/

import Mathlib.Data.List.Induction
import ScopedGrammar.Proofs.Croco.Expressions
import ScopedGrammar.Proofs.Match.Outcomes

namespace ScopedGrammar.Croco

variable {text : String} {place : Position} {run rest : List Char} {opened : List (Bracket × Nat)}
  {bracket : Bracket} {c : Char}

/-- What a reader is in the middle of. -/
inductive Mode where
  | plain
  | quoted (quote : Char)
  | comment
  deriving DecidableEq

/-- What comes after a character. -/
def Mode.next : Mode → Char → Mode
  | .plain, c => if c = '\'' ∨ c = '"' then .quoted c else if c = '#' then .comment else .plain
  | .quoted quote, c => if c = quote then .plain else .quoted quote
  | .comment, c => if c = '\n' then .plain else .comment

/-- The bracket that a character opens. -/
def Bracket.openedBy? (c : Char) : Option Bracket :=
  [Bracket.tuple, .list, .set].find? fun bracket => bracket.opening == c

/-- The brackets that are open after a character on a line, innermost first. -/
def openAfter (line : Nat) (opened : List (Bracket × Nat)) (c : Char) : List (Bracket × Nat) :=
  match Bracket.openedBy? c with
  | some bracket => (bracket, line) :: opened
  | none =>
      match opened with
      | [] => []
      | (bracket, since) :: outer =>
          if bracket.closing = c then outer else (bracket, since) :: outer

/-- How far a reader has come: in the middle of what, on which line, and which brackets are
open since which line. -/
structure Reader where
  mode : Mode
  line : Nat
  opened : List (Bracket × Nat)

namespace Reader

/-- A reader at the start of a program. -/
def start : Reader :=
  ⟨.plain, 1, []⟩

/-- A reader after one more character. -/
def step (reader : Reader) (c : Char) : Reader where
  mode := reader.mode.next c
  line := if c = '\n' then reader.line + 1 else reader.line
  opened := if reader.mode = .plain then openAfter reader.line reader.opened c else reader.opened

/-- A reader after a run of characters. -/
def past (reader : Reader) (run : List Char) : Reader :=
  run.foldl step reader

end Reader

/-- The brackets that are open after the first characters of a program, each with the line on
which it stands, innermost first. -/
def openBrackets (run : List Char) : List (Bracket × Nat) :=
  (Reader.start.past run).opened

example : openBrackets "f(a, [')', # ]\n\x7b\x7d".toList = [(.list, 1), (.tuple, 1)] := by
  decide

/-- The brackets of all kinds. -/
def bracketChars : List Char :=
  ['(', ')', '[', ']', '\x7b', '\x7d']

/-- Whether a character is no bracket, no quote and no mark of a comment. -/
def isNeutral (c : Char) : Bool :=
  !(bracketChars.contains c || c == '\'' || c == '"' || c == '#')

theorem Bracket.openedBy?_opening (bracket : Bracket) :
    Bracket.openedBy? bracket.opening = some bracket := by
  cases bracket <;> decide

theorem Bracket.openedBy?_closing (bracket : Bracket) :
    Bracket.openedBy? bracket.closing = none := by
  cases bracket <;> decide

/-- What is no bracket leaves the brackets as they are. -/
theorem openAfter_of_not_mem (line : Nat) (opened : List (Bracket × Nat))
    (hc : c ∉ bracketChars) : openAfter line opened c = opened := by
  have hopening (bracket : Bracket) : bracket.opening ≠ c := by
    rintro rfl
    exact hc (by cases bracket <;> decide)
  have hclosing (bracket : Bracket) : bracket.closing ≠ c := by
    rintro rfl
    exact hc (by cases bracket <;> decide)
  have hopens : Bracket.openedBy? c = none :=
    List.find?_eq_none.mpr fun bracket _ hsame => hopening bracket (beq_iff_eq.mp hsame)
  cases opened with
  | nil => simp [openAfter, hopens]
  | cons first outer => simp [openAfter, hopens, hclosing]

theorem openAfter_of_neutral (line : Nat) (opened : List (Bracket × Nat))
    (hc : isNeutral c = true) : openAfter line opened c = opened := by
  apply openAfter_of_not_mem
  intro hmem
  simp [isNeutral, hmem] at hc

theorem Mode.next_of_neutral (hc : isNeutral c = true) : Mode.plain.next c = .plain := by
  simp only [isNeutral, Bool.not_eq_true', Bool.or_eq_false_iff, beq_eq_false_iff_ne] at hc
  simp [Mode.next, hc]

namespace Reader

variable {reader : Reader}

/-- Within a string or a comment, brackets do not count. -/
theorem past_of_inside {mode : Mode} (hmode : reader.mode = mode) (hinside : mode ≠ .plain)
    (hrun : ∀ c ∈ run, mode.next c = mode) :
    (reader.past run).mode = mode ∧ (reader.past run).opened = reader.opened := by
  induction run generalizing reader with
  | nil => exact ⟨hmode, rfl⟩
  | cons c run ih =>
      rw [List.forall_mem_cons] at hrun
      have hnext : (reader.step c).mode = mode := by rw [step, hmode, hrun.1]
      have hopened : (reader.step c).opened = reader.opened := by simp [step, hmode, hinside]
      obtain ⟨hlast, hsame⟩ := ih hnext hrun.2
      exact ⟨hlast, hsame.trans hopened⟩

end Reader

/-- A reader has come to a position of a text, and some characters are left. -/
def Reader.Reaches (text : String) (place : Position) (reader : Reader) (rest : List Char) : Prop :=
  ∃ run, text.toList = run ++ rest ∧ place = Position.start.past run ∧
    reader = Reader.start.past run

namespace Reader.Reaches

variable {reader : Reader}

theorem start (text : String) : Reaches text Position.start Reader.start text.toList :=
  ⟨[], rfl, rfl, rfl⟩

theorem past (hreaches : Reaches text place reader (run ++ rest)) :
    Reaches text (place.past run) (reader.past run) rest := by
  obtain ⟨before, htext, rfl, rfl⟩ := hreaches
  refine ⟨before ++ run, ?_, ?_, ?_⟩
  · rw [htext, List.append_assoc]
  · rw [Position.past_append]
  · exact (List.foldl_append).symm

theorem step (hreaches : Reaches text place reader (c :: rest)) :
    Reaches text (place.step c) (reader.step c) rest := by
  have hsplit : Reaches text place reader ([c] ++ rest) := hreaches
  exact hsplit.past

theorem sees (hreaches : Reaches text place reader rest) : place.Sees text rest := by
  obtain ⟨before, htext, rfl, -⟩ := hreaches
  rw [Position.Sees, Position.offset_past, htext]
  exact List.drop_left' (Nat.zero_add _).symm

/-- A reader is on the line of the position. -/
theorem line_eq (hreaches : Reaches text place reader rest) : reader.line = place.line := by
  obtain ⟨before, -, rfl, rfl⟩ := hreaches
  induction before using List.reverseRecOn with
  | nil => rfl
  | append_singleton before c ih =>
      rw [Position.past_append, Reader.past, List.foldl_append]
      show (if c = '\n' then _ else _) = (Position.step _ c).line
      rw [Position.step]
      split <;> simp [← ih, Reader.past]

theorem opened_eq (hreaches : Reaches text place reader rest) :
    openBrackets (text.toList.take place.offset) = reader.opened := by
  obtain ⟨before, htext, rfl, rfl⟩ := hreaches
  have hoffset : (Position.start.past before).offset = before.length := by
    rw [Position.offset_past]
    exact Nat.zero_add _
  rw [hoffset, htext, List.take_left]
  rfl

end Reader.Reaches

/-- A position is not within a string or a comment, but at the end of one at most, and some
brackets are open. -/
def Clear (text : String) (opened : List (Bracket × Nat)) (place : Position) : Prop :=
  ∃ reader rest, Reader.Reaches text place reader rest ∧ reader.opened = opened ∧
    (reader.mode = .plain ∨ reader.mode = .comment ∧ ∀ c ∈ rest.head?, c = '\n')

namespace Clear

theorem start (text : String) : Clear text [] Position.start :=
  ⟨Reader.start, text.toList, .start text, rfl, .inl rfl⟩

theorem opened_eq (hclear : Clear text opened place) :
    openBrackets (text.toList.take place.offset) = opened := by
  obtain ⟨reader, rest, hreaches, rfl, -⟩ := hclear
  exact hreaches.opened_eq

/-- Before anything but the end of a line, nothing goes on at a clear position. -/
theorem plain (hclear : Clear text opened place) (hsees : place.Sees text (c :: rest))
    (hc : c ≠ '\n') :
    Reader.Reaches text place ⟨.plain, place.line, opened⟩ (c :: rest) := by
  obtain ⟨⟨mode, line, opened⟩, seen, hreaches, rfl, hmode⟩ := hclear
  cases hsees.symm.trans hreaches.sees
  have hline : line = place.line := hreaches.line_eq
  rcases hmode with hplain | ⟨-, hend⟩
  · cases hplain
    exact hline ▸ hreaches
  · exact absurd (hend c rfl) hc

theorem step (hclear : Clear text opened place) (hsees : place.Sees text (c :: rest))
    (hc : isNeutral c = true) : Clear text opened (place.step c) := by
  obtain ⟨reader, seen, hreaches, rfl, hmode⟩ := hclear
  cases hsees.symm.trans hreaches.sees
  refine ⟨_, rest, hreaches.step, ?_, .inl ?_⟩
  · rw [Reader.step, openAfter_of_neutral _ _ hc, ite_self]
  · rcases hmode with hplain | ⟨hcomment, hend⟩
    · rw [Reader.step, hplain]
      exact Mode.next_of_neutral hc
    · rw [Reader.step, hcomment, hend c rfl]
      rfl

theorem past (hclear : Clear text opened place) (hsees : place.Sees text (run ++ rest))
    (hrun : ∀ c ∈ run, isNeutral c = true) : Clear text opened (place.past run) := by
  induction run generalizing place with
  | nil => exact hclear
  | cons c run ih =>
      rw [List.forall_mem_cons] at hrun
      have hsplit : place.Sees text ([c] ++ (run ++ rest)) := hsees
      exact ih (hclear.step hsees hrun.1) hsplit.past hrun.2

/-- An opening bracket is open since its line. -/
theorem opening (hclear : Clear text opened place)
    (hsees : place.Sees text (bracket.opening :: rest)) :
    Clear text ((bracket, place.line) :: opened) (place.step bracket.opening) := by
  have hreaches := hclear.plain hsees (by cases bracket <;> decide)
  refine ⟨_, rest, hreaches.step, ?_, .inl ?_⟩
  · simp [Reader.step, openAfter, Bracket.openedBy?_opening]
  · cases bracket <;> rfl

/-- A closing bracket closes the innermost bracket. -/
theorem closing {line : Nat} (hclear : Clear text ((bracket, line) :: opened) place)
    (hsees : place.Sees text (bracket.closing :: rest)) :
    Clear text opened (place.step bracket.closing) := by
  have hreaches := hclear.plain hsees (by cases bracket <;> decide)
  refine ⟨_, rest, hreaches.step, ?_, .inl ?_⟩
  · simp [Reader.step, openAfter, Bracket.openedBy?_closing]
  · cases bracket <;> rfl

/-- A comment up to the end of its line leaves the brackets as they are. -/
theorem comment (hclear : Clear text opened place) (hsees : place.Sees text ('#' :: (run ++ rest)))
    (hrun : '\n' ∉ run) (hrest : ∀ c ∈ rest.head?, c = '\n') :
    Clear text opened (place.past ('#' :: run)) := by
  have hreaches := hclear.plain hsees (by decide)
  have hopened : openAfter place.line opened '#' = opened := openAfter_of_not_mem _ _ (by decide)
  have hbegin : (Reader.step ⟨.plain, place.line, opened⟩ '#').mode = .comment := rfl
  have hinside : ∀ c ∈ run, Mode.comment.next c = .comment := by
    intro c hc
    have hother : c ≠ '\n' := fun hnewline => hrun (hnewline ▸ hc)
    exact if_neg hother
  obtain ⟨hmode, hsame⟩ := Reader.past_of_inside hbegin nofun hinside
  exact ⟨_, rest, hreaches.step.past, hsame.trans hopened, .inr ⟨hmode, hrest⟩⟩

/-- A string with its quotes leaves the brackets as they are. -/
theorem string {quote : Char} (hclear : Clear text opened place)
    (hquote : quote = '\'' ∨ quote = '"')
    (hsees : place.Sees text (quote :: (run ++ (quote :: rest)))) (hrun : quote ∉ run) :
    Clear text opened (place.past (quote :: (run ++ [quote]))) := by
  have hreaches := hclear.plain hsees (by rcases hquote with rfl | rfl <;> decide)
  have hopened : openAfter place.line opened quote = opened :=
    openAfter_of_not_mem _ _ (by rcases hquote with rfl | rfl <;> decide)
  have hbegin : (Reader.step ⟨.plain, place.line, opened⟩ quote).mode = .quoted quote :=
    if_pos hquote
  have hinside : ∀ c ∈ run, (Mode.quoted quote).next c = .quoted quote := by
    intro c hc
    have hother : c ≠ quote := fun hend => hrun (hend ▸ hc)
    exact if_neg hother
  obtain ⟨hmode, hsame⟩ := Reader.past_of_inside hbegin nofun hinside
  rw [← List.cons_append, Position.past_append]
  refine ⟨_, rest, hreaches.step.past.step, ?_, .inl ?_⟩
  · have hquoted : Mode.quoted quote ≠ .plain := nofun
    rw [Reader.step, hmode, if_neg hquoted]
    exact hsame.trans hopened
  · rw [Reader.step, hmode]
    exact if_pos rfl

end Clear

end ScopedGrammar.Croco
