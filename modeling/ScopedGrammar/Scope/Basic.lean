/-
# Scopes

A scope is a chain of frames of bindings, innermost first. Extending a scope pushes a
frame and leaves the scope it was made from as it was, so the bindings of an abandoned
branch are gone with the branch. A name means what the innermost frame that binds it
says; inside one frame the last binding of a name counts.
-/

import ScopedGrammar.Pattern.Display

namespace ScopedGrammar

/-- The bindings added in one go. -/
abbrev Frame : Type :=
  List (String × Binding)

/-- The binding of a name in a frame: the last one, if there are several. -/
def Frame.find? (name : String) : Frame → Option Binding
  | [] => none
  | (key, binding) :: rest =>
      match Frame.find? name rest with
      | some later => some later
      | none => if key = name then some binding else none

/-- A chain of frames, innermost first. -/
structure Scope where
  frames : List Frame

namespace Scope

/-- The scope in which no name is bound. -/
def empty : Scope :=
  ⟨[]⟩

/-- The binding of a name in a chain of frames. -/
def findIn? (name : String) : List Frame → Option Binding
  | [] => none
  | frame :: outer =>
      match Frame.find? name frame with
      | some binding => some binding
      | none => findIn? name outer

/-- What a name is bound to. -/
def find? (scope : Scope) (name : String) : Option Binding :=
  findIn? name scope.frames

/-- The value that a name is bound to. -/
def value? (scope : Scope) (name : String) : Option Value :=
  (scope.find? name).bind Binding.asValue?

/-- The rule that a name is bound to. -/
def rule? (scope : Scope) (name : String) : Option Pattern :=
  (scope.find? name).bind Binding.asRule?

/-- Whether a name is bound. -/
def contains (scope : Scope) (name : String) : Bool :=
  (scope.find? name).isSome

/-- The scope with further bindings in one new frame. Without bindings there is no new
frame. -/
def push (scope : Scope) (frame : Frame) : Scope :=
  match frame with
  | [] => scope
  | first :: rest => ⟨(first :: rest) :: scope.frames⟩

/-- The scope with one further binding. -/
def bind (scope : Scope) (name : String) (binding : Binding) : Scope :=
  scope.push [(name, binding)]

/-- The number of frames. -/
def depth (scope : Scope) : Nat :=
  scope.frames.length

/-- The bound names, each once, in the order of the code points. -/
def names (scope : Scope) : List String :=
  ((scope.frames.flatMap fun frame => frame.map (·.1)).eraseDups).mergeSort fun first second =>
    decide (first ≤ second)

/-- The bound names with what they mean, in the order of the names. -/
def visible (scope : Scope) : List (String × Binding) :=
  scope.names.filterMap fun name => (scope.find? name).map fun binding => (name, binding)

/-- A scope for someone who looks into a grammar: its depth and its names. -/
def inspect (scope : Scope) : String :=
  "Namespace \x7b depth: " ++ toString scope.depth ++ ", names: [" ++
    String.intercalate ", " (scope.names.map Text.quote) ++ "] \x7d"

/-- No name is bound in the empty scope. -/
theorem find?_empty (name : String) : empty.find? name = none :=
  rfl

/-- A new binding is what its name means, and other names mean what they meant. -/
theorem find?_bind (scope : Scope) (name other : String) (binding : Binding) :
    (scope.bind name binding).find? other =
      if name = other then some binding else scope.find? other := by
  by_cases same : name = other <;>
    simp [bind, push, find?, findIn?, Frame.find?, same]

end Scope

end ScopedGrammar
