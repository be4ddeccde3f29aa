/-
# Resolving terms

A term is resolved in the scope in which its pattern runs: to a binding where a rule is
welcome, to a value where it is not, and to a count for the bounds of a repetition. The
operands of arithmetic are resolved from left to right, and of a condition's branches
only the one that is taken.
-/

import ScopedGrammar.Scope.Basic
import ScopedGrammar.Fault.Defect

namespace ScopedGrammar

/-- The value of a binding; a rule is a defect of the term that led to it. -/
def Binding.expectValue (term : String) : Binding → Except Defect Value
  | .value content => .ok content
  | .rule _ => .error (.notAValue term)

/-- What a name is bound to; no binding is a defect. -/
def Scope.lookup (scope : Scope) (name : String) : Except Defect Binding :=
  match scope.find? name with
  | some binding => .ok binding
  | none => .error (.undefinedName name)

/-- The value that a name is bound to. -/
def Scope.lookupValue (scope : Scope) (name : String) : Except Defect Value :=
  match scope.lookup name with
  | .ok binding => binding.expectValue (Term.name name).display
  | .error defect => .error defect

/-- The result of an operation, or the defect that it does not apply. -/
def Operation.apply (operation : Operation) (first second : Value) : Except Defect Value :=
  match operation.apply? first second with
  | some result => .ok result
  | none => .error (.invalidOperand operation first.kind second.kind)

namespace Term

/-- The value of a term; a rule is a defect. -/
def value (scope : Scope) : Term → Except Defect Value
  | .const content => .ok content
  | .rule pattern => .error (.notAValue (Term.rule pattern).display)
  | .name looked => scope.lookupValue looked
  | .sum looked other =>
      match scope.lookupValue looked with
      | .error defect => .error defect
      | .ok first =>
          match value scope other with
          | .error defect => .error defect
          | .ok second => Operation.sum.apply first second
  | .product looked other =>
      match scope.lookupValue looked with
      | .error defect => .error defect
      | .ok first =>
          match value scope other with
          | .error defect => .error defect
          | .ok second => Operation.product.apply first second
  | .conditional looked whenTrue whenFalse =>
      match scope.lookupValue looked with
      | .error defect => .error defect
      | .ok condition =>
          if condition.isTruthy then value scope whenTrue else value scope whenFalse

/-- What a term denotes, a rule or a value. -/
def resolve (scope : Scope) : Term → Except Defect Binding
  | .const content => .ok (.value content)
  | .rule pattern => .ok (.rule pattern)
  | .name looked => scope.lookup looked
  | computed => (computed.value scope).map .value

/-- The text of a term, as literals need it. -/
def textOf (scope : Scope) (term : Term) : Except Defect String :=
  match term.value scope with
  | .error defect => .error defect
  | .ok content =>
      match content.asText? with
      | some text => .ok text
      | none => .error (.notText term.display content.kind)

/-- The count of a term, as the bounds of repetitions need it. -/
def count (scope : Scope) (term : Term) : Except Defect Nat :=
  match term.value scope with
  | .error defect => .error defect
  | .ok (.int number) =>
      if 0 ≤ number.toInt then .ok number.toInt.toNat else .error (.invalidBound (.int number))
  | .ok other => .error (.invalidBound other)

end Term

/-- The bindings of an overlay, each resolved in the caller's scope, in order. -/
def Scope.resolveAll (scope : Scope) : List (String × Term) → Except Defect Frame
  | [] => .ok []
  | (name, term) :: rest =>
      match term.resolve scope with
      | .error defect => .error defect
      | .ok binding =>
          match scope.resolveAll rest with
          | .error defect => .error defect
          | .ok frame => .ok ((name, binding) :: frame)

end ScopedGrammar
