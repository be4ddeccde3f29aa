/-
# Arithmetic on values

Terms add to and multiply what a name stands for. Integers stay within a signed word, and
a result that would leave it is refused like operands that do not fit together. Mixed
operands meet as floating-point numbers; lists and texts are joined by addition, and a
text is repeated by multiplication with a count.
-/

import ScopedGrammar.Value.Basic
import ScopedGrammar.Decimal.Reading

namespace ScopedGrammar

/-- The two operations on values. -/
inductive Operation where
  | sum
  | product
  deriving DecidableEq

/-- The sign of an operation, as messages give it. -/
def Operation.sign : Operation → String
  | .sum => "+"
  | .product => "*"

namespace Value

/-- An integer as a value, if it fits a signed word. -/
def ofInt? (number : Int) : Option Value :=
  (Decimal.toWord? number).map .int

/-- The sum of two values. -/
def plus? : Value → Value → Option Value
  | .int first, .int second => ofInt? (first.toInt + second.toInt)
  | .float first, .float second => some (.float (first + second))
  | .int first, .float second => some (.float (first.toFloat + second))
  | .float first, .int second => some (.float (first + second.toFloat))
  | .list first, .list second => some (.list (first ++ second))
  | first, second =>
      match first.asText?, second.asText? with
      | some front, some back => some (.text (front ++ back))
      | _, _ => none

/-- A text repeated; nothing repeated is nothing, however often. -/
def repeatText (content : String) (count : Nat) : String :=
  if content.isEmpty then "" else String.join (List.replicate count content)

/-- The product of two values. -/
def times? : Value → Value → Option Value
  | .int first, .int second => ofInt? (first.toInt * second.toInt)
  | .float first, .float second => some (.float (first * second))
  | .int first, .float second => some (.float (first.toFloat * second))
  | .float first, .int second => some (.float (first * second.toFloat))
  | first, .int count =>
      if 0 ≤ count.toInt then
        first.asText?.map fun content => .text (repeatText content count.toInt.toNat)
      else none
  | _, _ => none

end Value

/-- The result of an operation on two values, if the operands admit it. -/
def Operation.apply? : Operation → Value → Value → Option Value
  | .sum => Value.plus?
  | .product => Value.times?

end ScopedGrammar
