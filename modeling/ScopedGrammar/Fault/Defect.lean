/-
# Defects of a grammar

A defect is a mistake in how a grammar was put together, as opposed to a mistake in the
text being matched. It is found the moment a pattern runs into it.
-/

import ScopedGrammar.Value.Arithmetic

namespace ScopedGrammar

/-- What can be wrong with a grammar. Terms are given as they are shown to a reader. -/
inductive Defect where
  /-- A name without a binding was looked up. -/
  | undefinedName (name : String)
  /-- A reference leads to a value that is no text. -/
  | notParsable (term : String) (found : Value.Kind)
  /-- The text of a literal is no text. -/
  | notText (term : String) (found : Value.Kind)
  /-- A rule stands where a value is needed. -/
  | notAValue (term : String)
  /-- The bound of a repetition is no count. -/
  | invalidBound (found : Value)
  /-- The bounds of a repetition are the wrong way round. -/
  | emptyRange (least most : Nat)
  /-- An operation does not apply to its operands, or its result leaves the word. -/
  | invalidOperand (operation : Operation) (first second : Value.Kind)
  /-- A sequence has no part at an index that is to be kept. -/
  | invalidPick (index length : Nat)
  /-- The start of a grammar is no rule. -/
  | unknownRule (name : String)

/-- The message for a defect. -/
def Defect.message : Defect → String
  | .undefinedName name => "undefined name '" ++ name ++ "'"
  | .notParsable term found =>
      "'" ++ term ++ "' is bound to a " ++ found.name ++ ", which cannot be parsed"
  | .notText term found => "literal " ++ term ++ " must be text, found " ++ found.name
  | .notAValue term => "'" ++ term ++ "' names a rule where a value was expected"
  | .invalidBound found =>
      "repeat bound must be a non-negative integer, found " ++ found.kind.name ++ " " ++
        found.display
  | .emptyRange least most =>
      "repeat minimum " ++ toString least ++ " exceeds maximum " ++ toString most
  | .invalidOperand operation first second =>
      "cannot apply '" ++ operation.sign ++ "' to " ++ first.name ++ " and " ++ second.name
  | .invalidPick index length =>
      "projection index " ++ toString index ++ " is out of range for a sequence of " ++
        toString length
  | .unknownRule name => "no rule named '" ++ name ++ "'"

end ScopedGrammar
