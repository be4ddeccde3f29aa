/-
# Patterns for a reader

A pattern is shown by its label if it has one, and otherwise by its structure. Terms show
a text between quotes, a name after a dollar sign, and arithmetic not at all.
-/

import ScopedGrammar.Pattern.Basic
import ScopedGrammar.Text.Quoted

namespace ScopedGrammar

mutual

/-- A pattern: its label, or else its form. -/
def Pattern.display : Pattern → String
  | .mk _ _ (some label) => label
  | .mk form _ none => Form.display form

/-- A form, by its structure. Factories, picks and messages do not show. -/
def Form.display : Form → String
  | .literal text => Term.display text
  | .charClass members excluded =>
      String.ofList
        (['['] ++ (if excluded then ['^'] else []) ++ members.flatMap Text.escapeMember ++ [']'])
  | .choice options => "(" ++ String.intercalate " | " (displayPatterns options) ++ ")"
  | .sequence parts _ => "(" ++ String.intercalate " + " (displayPatterns parts) ++ ")"
  | .repetition part least most separator _ =>
      Pattern.display part ++ "\x7b" ++ Term.display least ++ "," ++ displayMost most ++ "\x7d" ++
        displaySeparator separator
  | .absence inner width => (if width = 0 then "!?" else "!") ++ Pattern.display inner
  | .demand inner _ => "expect(" ++ Pattern.display inner ++ ")"
  | .capture inner name => Pattern.display inner ++ " as " ++ name
  | .overlay inner bindings =>
      "with(" ++ Pattern.display inner ++ displayBindings bindings ++ ")"
  | .reference target => Term.display target
  | .finish => "END"

/-- A term. -/
def Term.display : Term → String
  | .const (.text content) => Text.quote content
  | .const value => value.display
  | .rule pattern => Pattern.display pattern
  | .name looked => "$" ++ looked
  | .sum _ _ => "<computed>"
  | .product _ _ => "<computed>"
  | .conditional _ _ _ => "<computed>"

/-- Patterns, one by one. -/
def displayPatterns : List Pattern → List String
  | [] => []
  | first :: rest => Pattern.display first :: displayPatterns rest

/-- The upper bound of a repetition. -/
def displayMost : Option Term → String
  | none => ""
  | some most => Term.display most

/-- The separator of a repetition. -/
def displaySeparator : Option Pattern → String
  | none => ""
  | some separator => " sep " ++ Pattern.display separator

/-- The bindings of an overlay, each after a semicolon. -/
def displayBindings : List (String × Term) → String
  | [] => ""
  | first :: rest => "; " ++ displayBinding first ++ displayBindings rest

/-- One binding of an overlay. -/
def displayBinding : String × Term → String
  | (name, term) => name ++ "=" ++ Term.display term

end

/-- A binding: its value or its rule. -/
def Binding.display : Binding → String
  | .value content => content.display
  | .rule pattern => pattern.display

/-- A pattern for someone who looks into a grammar. -/
def Pattern.inspect (pattern : Pattern) : String :=
  "Combinator(" ++ pattern.display ++ ")"

/-- A constant for someone who looks into a grammar. Constants other than texts, truth
values, integers and the two markers are shown as a reader would see them. -/
def Value.inspect : Value → String
  | .empty => "Empty"
  | .endMark => "End"
  | .bool truth => "Bool(" ++ (if truth then "true" else "false") ++ ")"
  | .int number => "Int(" ++ showInt number ++ ")"
  | .text content => "Text(" ++ Text.quote content ++ ")"
  | other => other.display

/-- A term for someone who looks into a grammar. -/
def Term.inspect : Term → String
  | .const value => "Const(" ++ value.inspect ++ ")"
  | .rule pattern => "Rule(" ++ pattern.inspect ++ ")"
  | .name looked => "Var(" ++ Text.quote looked ++ ")"
  | .sum _ _ => "Computed(..)"
  | .product _ _ => "Computed(..)"
  | .conditional _ _ _ => "Computed(..)"

end ScopedGrammar
