/-
# Positions of matches

A position moves by passing over characters of the text and in no other way. So where a
match ends is determined by how many characters it took: line, column and offset are what
scanning exactly those characters gives, whatever the pattern was, and whatever line and
column the match was told to start from.

`Position.Leads` states this of two positions without reference to matching. It is
reflexive and transitive, and a text that grows keeps what was true of its beginning.
-/

import ScopedGrammar.Pattern.Build
import ScopedGrammar.Proofs.Match.Derivation
import Mathlib

namespace ScopedGrammar

namespace Position

/-- One position is reached from another by passing over characters that stand there. -/
def Leads (text : List Char) (place later : Position) : Prop :=
  ∃ run, run <+: text.drop place.offset ∧ later = place.past run

namespace Leads

variable {text : List Char} {place later : Position}

theorem refl (text : List Char) (place : Position) : Leads text place place :=
  ⟨[], List.nil_prefix, rfl⟩

theorem trans {last : Position} (hfirst : Leads text place later)
    (hsecond : Leads text later last) : Leads text place last := by
  obtain ⟨run, hrun, rfl⟩ := hfirst
  obtain ⟨further, hfurther, rfl⟩ := hsecond
  refine ⟨run ++ further, ?_, (past_append place run further).symm⟩
  obtain ⟨rest, hrest⟩ := hrun
  rw [offset_past, ← List.drop_drop, ← hrest, List.drop_left] at hfurther
  rw [← hrest]
  exact (List.prefix_append_right_inj run).mpr hfurther

/-- What was passed over is still there in a longer text. -/
theorem mono {longer : List Char} (hleads : Leads text place later)
    (hlonger : text <+: longer) : Leads longer place later := by
  obtain ⟨run, hrun, hlater⟩ := hleads
  exact ⟨run, hrun.trans (hlonger.drop place.offset), hlater⟩

theorem offset_le (hleads : Leads text place later) : place.offset ≤ later.offset := by
  obtain ⟨run, -, rfl⟩ := hleads
  rw [offset_past]
  exact Nat.le_add_right place.offset run.length

/-- Nothing beyond the text is passed over. A position that starts out beyond it stays. -/
theorem offset_le_max (hleads : Leads text place later) :
    later.offset ≤ max place.offset text.length := by
  obtain ⟨run, hrun, rfl⟩ := hleads
  have hlength := hrun.length_le
  rw [List.length_drop] at hlength
  rw [offset_past]
  omega

/-- A longer text has the same characters between the two. -/
theorem take_eq {longer : List Char} (hleads : Leads text place later)
    (hlonger : text <+: longer) :
    (longer.drop place.offset).take (later.offset - place.offset) =
      (text.drop place.offset).take (later.offset - place.offset) := by
  obtain ⟨run, hrun, rfl⟩ := hleads
  have hafter := hrun.trans (hlonger.drop place.offset)
  rw [offset_past, Nat.add_sub_cancel_left, ← List.prefix_iff_eq_take.mp hrun,
    ← List.prefix_iff_eq_take.mp hafter]

/-- The later position follows from its offset alone. -/
theorem eq_past (hleads : Leads text place later) :
    later = place.past ((text.drop place.offset).take (later.offset - place.offset)) := by
  obtain ⟨run, hrun, rfl⟩ := hleads
  rw [offset_past, Nat.add_sub_cancel_left, ← List.prefix_iff_eq_take.mp hrun]

end Leads

end Position

variable {π : Type} [Producer π]

/-- Every derivation ends at a position that its start leads to, over the characters that
have been received by then. -/
theorem Derives.leads {task : Task} {here there : Spot π} {values : List Value}
    (derived : Derives task here values there) :
    here.position.Leads there.input.buffer.toList there.position := by
  induction derived with
  | token recognised captured =>
      obtain ⟨rfl, rfl⟩ := captured_eq recognised captured
      exact ⟨_, List.take_prefix _ _, rfl⟩
  | finish ended => exact .refl _ _
  | choice missed chosen ih => exact ih
  | sequence all picked ih => exact ih
  | repetition bounds enough rounds last ih => exact ih.mono last.received
  | demand met ih => exact ih
  | capture matched ih => exact ih
  | overlay known matched ih => exact ih
  | rule known matched ih => exact ih
  | pattern raw ih => exact ih
  | nil => exact .refl _ _
  | cons first rest ihfirst ihrest =>
      exact (ihfirst.mono rest.growsTo.received).trans ihrest

/-- Over a complete text, what a run derives leaves the input as it is. -/
theorem derives_of_run_ofText {granted : Nat} {pattern : Pattern} {scope : Scope}
    {place : Position} {text : String} {success : Match} {after : Input Silence}
    (hmatched : pattern.run granted scope place (Input.ofText text) =
      (.matched success, after)) :
    Derives (.pattern pattern) ⟨scope, place, Input.ofText text⟩ [success.value]
      ⟨success.scope, success.position, Input.ofText text⟩ := by
  have hderived := derives_of_run granted hmatched
  have hsame : after = Input.ofText text := hderived.growsTo.settled rfl
  rwa [hsame] at hderived

/-- A match over a text never moves back and never moves past the end, and it ends at the
position, with its line and column, that advancing over the characters it took gives. -/
theorem matched_position_eq_advance (granted : Nat) (pattern : Pattern) (scope : Scope)
    (place : Position) (text : String) {success : Match} {after : Input Silence}
    (hmatched : pattern.run granted scope place (Input.ofText text) =
      (.matched success, after)) :
    place.offset ≤ success.position.offset ∧
      success.position.offset ≤ max place.offset text.length ∧
      success.position =
        (place.advance (success.position.offset - place.offset) (Input.ofText text)).1 ∧
      success.position =
        place.past ((text.toList.drop place.offset).take
          (success.position.offset - place.offset)) := by
  have hleads : place.Leads text.toList success.position := by
    simpa [Input.ofText] using (derives_of_run_ofText hmatched).leads
  have hbound := hleads.offset_le_max
  rw [String.length_toList] at hbound
  have hthere : success.position.offset - place.offset ≤
      (Input.ofText text).buffer.size - place.offset := by
    simp only [Input.ofText, List.size_toArray, String.length_toList]
    omega
  refine ⟨hleads.offset_le, hbound, ?_, hleads.eq_past⟩
  rw [Position.advance_of_received place _ hthere]
  simpa [Input.ofText] using hleads.eq_past

/-- A list of items, matched from the middle of a text and of a line: an item that is a
newline opens the next line, the separators count like any other character, and what no
separator follows is left alone. -/
theorem matched_position_eq_advance_between_commas :
    let pattern := (Pattern.named "item").separatedBy (.literal ",")
    let scope := Scope.empty.bind "item" (.rule (Pattern.literal ",").exclude)
    let input := Input.ofText "xa,\nb"
    let success : Match :=
      { value := .list [.token ⟨"a", ⟨7, 3, 1⟩, ⟨7, 4, 2⟩⟩,
          .token ⟨"\n", ⟨7, 5, 3⟩, ⟨8, 1, 4⟩⟩]
        position := ⟨8, 1, 4⟩
        scope }
    pattern.run 9 scope ⟨7, 3, 1⟩ input = (.matched success, input) ∧
      success.position = ((⟨7, 3, 1⟩ : Position).advance 3 input).1 := by
  intro pattern scope input success
  have hmatched : pattern.run 9 scope ⟨7, 3, 1⟩ input = (.matched success, input) := by cbv
  exact ⟨hmatched, (matched_position_eq_advance 9 pattern scope ⟨7, 3, 1⟩ _ hmatched).2.2.1⟩

end ScopedGrammar
