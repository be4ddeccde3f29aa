/-
# Positions

A position is an offset together with the line and the column that stand there, both
counted from one. Positions are compared by offset alone: line and column follow from
the text that was passed over, so they carry no information of their own.

Counting has no greatest number here. A program counts in unsigned words of 64 bits and stops
when a count leaves them, and so does checked advancing. The two differ only where a count
comes to the bound: never from the start of a text whose length is below it, but possibly from
a position that a caller makes up, since its line and its column may be any words.
-/

import ScopedGrammar.Input.Basic

namespace ScopedGrammar

/-- Lines, columns, offsets and their sums stay below this bound in a program. -/
def offsetBound : Nat :=
  0x10000000000000000

/-- A place in a text. Its numbers have no bound of their own: `InWords` tells whether a program
can hold them, and `advance?` stops where they leave their words. -/
structure Position where
  line : Nat
  column : Nat
  offset : Nat
  deriving DecidableEq

namespace Position

/-- A place whose line, column and offset are words. -/
structure InWords (place : Position) : Prop where
  line : place.line < offsetBound
  column : place.column < offsetBound
  offset : place.offset < offsetBound

instance (place : Position) : Decidable place.InWords :=
  decidable_of_iff
    (place.line < offsetBound ∧ place.column < offsetBound ∧ place.offset < offsetBound)
    ⟨fun inside => ⟨inside.1, inside.2.1, inside.2.2⟩,
      fun inside => ⟨inside.line, inside.column, inside.offset⟩⟩

/-- The start of a text. -/
def start : Position :=
  ⟨1, 1, 0⟩

/-- The place after one character: a newline opens the next line. -/
def step (place : Position) (c : Char) : Position :=
  if c = '\n' then ⟨place.line + 1, 1, place.offset + 1⟩
  else ⟨place.line, place.column + 1, place.offset + 1⟩

/-- The place after a run of characters. -/
def past (place : Position) (run : List Char) : Position :=
  run.foldl step place

/-- The place after the next `count` characters of an input. Callers advance only over
characters that are there; past the end of the input only the offset moves. -/
def advance {π : Type} [Producer π] (place : Position) :
    Nat → Input π → Position × Input π
  | 0, input => (place, input)
  | count + 1, input =>
      match input.charAt place.offset with
      | (some c, next) => (place.step c).advance count next
      | (none, next) => ({ place with offset := place.offset + (count + 1) }, next)

/-- The place after one character, unless its line or its column is no word any more. -/
def step? (place : Position) (c : Char) : Option Position :=
  if (place.step c).InWords then some (place.step c) else none

/-- The place after a run of characters, unless a number leaves its word on the way. -/
def past? (place : Position) (run : List Char) : Option Position :=
  run.foldlM step? place

/-- Checked advancing: the place after the next `count` characters of an input, unless a number
leaves its word on the way or there are not so many characters. -/
def advance? {π : Type} [Producer π] (place : Position) :
    Nat → Input π → Option (Position × Input π)
  | 0, input => some (place, input)
  | count + 1, input =>
      match input.charAt place.offset with
      | (some c, next) => (place.step? c).bind fun later => later.advance? count next
      | (none, _) => none

/-- Whether two positions are the same place: their offsets agree. -/
def samePlace (first second : Position) : Bool :=
  first.offset == second.offset

/-- The order of two places in the text. -/
def order (first second : Position) : Ordering :=
  compare first.offset second.offset

/-- A position for a reader: line and column. -/
def display (place : Position) : String :=
  toString place.line ++ ":" ++ toString place.column

/-- Stepping moves the offset on by one. -/
theorem offset_step (place : Position) (c : Char) :
    (place.step c).offset = place.offset + 1 := by
  unfold step
  split <;> rfl

/-- A run moves the offset on by its length. -/
theorem offset_past (place : Position) (run : List Char) :
    (place.past run).offset = place.offset + run.length := by
  induction run generalizing place with
  | nil => rfl
  | cons c rest ih =>
      have further := ih (place.step c)
      simp only [past, List.foldl_cons, List.length_cons] at *
      rw [further, offset_step]
      omega

/-- To pass over something is to move. -/
theorem offset_past_ne {run : List Char} (place : Position) (hrun : run ≠ []) :
    (place.past run).offset ≠ place.offset := by
  have hlength := List.length_pos_iff.mpr hrun
  rw [offset_past]
  omega

/-- Passing over two runs is passing over both at once. -/
theorem past_append (place : Position) (first second : List Char) :
    place.past (first ++ second) = (place.past first).past second := by
  simp [past]

/-- Advancing over characters that are received passes over exactly those, and leaves the
input as it is. -/
theorem advance_of_received {π : Type} [Producer π] {input : Input π} (place : Position)
    (count : Nat) (there : count ≤ input.buffer.size - place.offset) :
    place.advance count input =
      (place.past ((input.buffer.toList.drop place.offset).take count), input) := by
  induction count generalizing place with
  | zero => simp [advance, past]
  | succ count ih =>
      have inside : place.offset < input.buffer.size := by omega
      have tail : input.buffer.toList.drop place.offset =
          input.buffer[place.offset] :: input.buffer.toList.drop (place.offset + 1) := by
        rw [List.drop_eq_getElem_cons (by simpa using inside)]
        simp
      have moved := offset_step place input.buffer[place.offset]
      rw [advance, Input.charAt_of_received inside, tail]
      simp only [List.take_succ_cons, past, List.foldl_cons]
      rw [ih _ (by omega), moved]
      rfl

end Position

end ScopedGrammar
