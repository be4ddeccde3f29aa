/-
# Lines and columns by counting

A position is moved on one character at a time, but where it comes to can be counted: the
line is one more for each newline among the characters passed over, and the column counts
the characters after the last of them. If there is no newline, the column goes on from
where it was.
-/

import ScopedGrammar.Input.Position
import Mathlib.Data.List.DropRight

namespace ScopedGrammar

/-- Whether a character stays on its line. -/
def staysOnLine (c : Char) : Bool :=
  c != '\n'

namespace Position

theorem past_concat (place : Position) (run : List Char) (c : Char) :
    place.past (run ++ [c]) = (place.past run).step c :=
  past_append place run [c]

/-- Each newline opens a line. -/
theorem line_past (place : Position) (run : List Char) :
    (place.past run).line = place.line + run.count '\n' := by
  induction run using List.reverseRecOn with
  | nil => rfl
  | append_singleton run c ih =>
      rw [past_concat, List.count_append, step]
      by_cases hnewline : c = '\n'
      · rw [if_pos hnewline, hnewline, ih, List.count_singleton_self, Nat.add_assoc]
      · rw [if_neg hnewline, ih, List.count_singleton, if_neg (by simpa using hnewline),
          Nat.add_zero]

/-- The column counts the characters after the last newline, and goes on from where it was
if there is none. -/
theorem column_past (place : Position) (run : List Char) :
    (place.past run).column =
      (if '\n' ∈ run then 1 else place.column) + (run.rtakeWhile staysOnLine).length := by
  induction run using List.reverseRecOn with
  | nil => rfl
  | append_singleton run c ih =>
      rw [past_concat, List.rtakeWhile_concat, step]
      by_cases hnewline : c = '\n'
      · simp [hnewline, staysOnLine]
      · have hstays : staysOnLine c = true := by simpa [staysOnLine] using hnewline
        have hsame : '\n' ∈ run ++ [c] ↔ '\n' ∈ run := by
          simp [eq_comm, hnewline]
        simp only [if_neg hnewline, hstays, if_true, hsame, ih, List.length_append,
          List.length_singleton, Nat.add_assoc]

/-- From the start of a text, the column is one more than the number of characters after
the last newline. -/
theorem column_start_past (run : List Char) :
    (start.past run).column = 1 + (run.rtakeWhile staysOnLine).length := by
  rw [column_past]
  split <;> rfl

/-- To advance moves the offset on by the count, whether the characters are there or not. -/
theorem offset_advance {π : Type} [Producer π] (place : Position) (count : Nat)
    (input : Input π) : (place.advance count input).1.offset = place.offset + count := by
  induction count generalizing place input with
  | zero => rfl
  | succ count ih =>
      rw [advance]
      split
      · rw [ih, offset_step]
        omega
      · rfl

end Position

end ScopedGrammar
