/-
# Patterns

A pattern describes what to match. It has a form, which is one of eleven kinds, and may
carry a factory, which maps the raw result of a match, and a label, which names it for a
reader. Texts, repetition bounds and the bindings of an overlay are terms: constants,
names, or arithmetic on a name, all resolved in the scope in which the pattern runs.
Patterns refer to one another by name, so a recursive grammar is a finite tree.

What a term computes is a sum, a product or a choice that begins with a name. No term runs
a function of the caller's own on the scope: a scope holds rules, so such a function would
take patterns, and the names it asks for could not be read off the pattern it stands in.
-/

import ScopedGrammar.Value.Basic
import ScopedGrammar.Message.Basic

namespace ScopedGrammar

mutual

/-- A unit of matching. -/
inductive Pattern where
  | mk (form : Form) (factory : Option (Value → Value)) (label : Option String)

/-- The eleven kinds of pattern. -/
inductive Form where
  /-- The text that a term resolves to. -/
  | literal (text : Term)
  /-- One character among the members, or one that is not among them. -/
  | charClass (members : List Char) (excluded : Bool)
  /-- The first option that matches. -/
  | choice (options : List Pattern)
  /-- Every part in order. With picks, only the parts at those indexes are kept. -/
  | sequence (parts : List Pattern) (picks : Option (List Nat))
  /-- As many matches of a part as there are, within bounds, with a separator between
  them. The separators are kept beside the parts on request. -/
  | repetition (part : Pattern) (least : Term) (most : Option Term)
      (separator : Option Pattern) (keepSeparators : Bool)
  /-- A number of characters at a place where the inner pattern does not match. -/
  | absence (inner : Pattern) (width : Nat)
  /-- The inner pattern, whose failure is an error with a message. -/
  | demand (inner : Pattern) (message : Message)
  /-- The inner pattern, whose value is bound to a name for what follows. -/
  | capture (inner : Pattern) (name : String)
  /-- The inner pattern, run with further bindings. -/
  | overlay (inner : Pattern) (bindings : List (String × Term))
  /-- The rule or the text that a term resolves to. -/
  | reference (target : Term)
  /-- The end of input. -/
  | finish

/-- What is resolved against the scope at the time of matching. -/
inductive Term where
  | const (value : Value)
  /-- A rule, so that an overlay can exchange one rule for another. -/
  | rule (pattern : Pattern)
  | name (name : String)
  /-- The value of a name plus that of a term. -/
  | sum (name : String) (other : Term)
  /-- The value of a name times that of a term. -/
  | product (name : String) (other : Term)
  /-- One of two terms, depending on whether the value of a name is truthy. -/
  | conditional (name : String) (whenTrue whenFalse : Term)

end

namespace Pattern

/-- A pattern without factory and label. -/
def ofForm (form : Form) : Pattern :=
  .mk form none none

/-- The form of a pattern. -/
def form : Pattern → Form
  | .mk form _ _ => form

/-- The factory of a pattern. -/
def factory : Pattern → Option (Value → Value)
  | .mk _ factory _ => factory

/-- The label of a pattern. -/
def label : Pattern → Option String
  | .mk _ _ label => label

/-- A pattern is final once it has a factory or a label. A final pattern is never
extended in place: operators wrap it instead. -/
def isFinal (pattern : Pattern) : Bool :=
  pattern.factory.isSome || pattern.label.isSome

/-- The same pattern with another form. -/
def withForm (pattern : Pattern) (form : Form) : Pattern :=
  .mk form pattern.factory pattern.label

/-- The value of a match, as the pattern's factory makes it. -/
def finishValue (pattern : Pattern) (raw : Value) : Value :=
  match pattern.factory with
  | some make => make raw
  | none => raw

end Pattern

/-- What a name may be bound to. -/
inductive Binding where
  | value (value : Value)
  | rule (pattern : Pattern)

/-- The value of a binding, if it is one. -/
def Binding.asValue? : Binding → Option Value
  | .value content => some content
  | .rule _ => none

/-- The rule of a binding, if it is one. -/
def Binding.asRule? : Binding → Option Pattern
  | .value _ => none
  | .rule pattern => some pattern

end ScopedGrammar
