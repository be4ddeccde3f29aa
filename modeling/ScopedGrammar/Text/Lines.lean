/-
# The lines of a text

A line ends at a newline, and one carriage return directly before the newline belongs
to the line end. A last line without a newline is a line and keeps its carriage return;
a newline at the very end opens no further line, and the empty text has no line at all.
-/

namespace ScopedGrammar.Text

/-- Cuts a list after each element that ends a piece. Nothing is lost, no piece is empty,
and only the last piece may lack its end. -/
def cutAfter {α : Type} (isEnd : α → Bool) (elements : List α) : List (List α) :=
  elements.foldr
    (fun element pieces =>
      if isEnd element then [element] :: pieces
      else
        match pieces with
        | [] => [[element]]
        | piece :: more => (element :: piece) :: more)
    []

/-- A line without its line end, if it has one. -/
def chomp (line : List Char) : List Char :=
  match line.reverse with
  | '\n' :: '\r' :: content => content.reverse
  | '\n' :: content => content.reverse
  | _ => line

/-- The lines of a text, in order, without their line ends. -/
def lines (text : List Char) : List (List Char) :=
  (cutAfter (· == '\n') text).map chomp

/-- The line with the given number, counted from one. The number zero, which no reader
of a text produces, is taken as one. -/
def line? (text : List Char) (number : Nat) : Option (List Char) :=
  (lines text)[number - 1]?

/-- The pieces of a list make up the list. -/
theorem flatten_cutAfter {α : Type} (isEnd : α → Bool) (elements : List α) :
    (cutAfter isEnd elements).flatten = elements := by
  induction elements with
  | nil => rfl
  | cons element rest ih =>
      simp only [cutAfter, List.foldr_cons] at *
      split
      · simp [ih]
      · split
        · rename_i none_
          simp [none_] at ih
          simp [← ih]
        · rename_i some_
          simp [some_] at ih
          simp [ih]

end ScopedGrammar.Text
