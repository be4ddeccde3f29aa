/-
# Grammars

A grammar is a scope of rules and values together with the name of the rule to start
from. Every rule is labelled with its name, so that messages show the name and not the
structure. A run of a grammar may start from another rule or position and may add
bindings of its own.
-/

import ScopedGrammar.Match.Basic
import ScopedGrammar.Pattern.Build

namespace ScopedGrammar

/-- Rules and values under their names, and the name of the start rule. -/
structure Grammar where
  scope : Scope
  start : String

namespace Grammar

/-- The start rule of a grammar that names none. -/
def defaultStart : String :=
  "start"

/-- A definition as it enters a grammar: a rule is labelled with its name. -/
def define (name : String) : Binding → String × Binding
  | .rule pattern => (name, .rule (pattern.labelled name))
  | .value content => (name, .value content)

/-- The grammar of some definitions, without a check of its start rule. All definitions
share one frame, so their order matters only if a name is defined twice. -/
def ofDefinitions (definitions : Frame) (start : String) : Grammar where
  scope := Scope.empty.push (definitions.map fun definition => define definition.1 definition.2)
  start := start

/-- The rule with a name. -/
def rule? (grammar : Grammar) (name : String) : Option Pattern :=
  grammar.scope.rule? name

/-- The grammar of some definitions. Its start has to be a rule. -/
def build (definitions : Frame) (start : Option String) : Except Defect Grammar :=
  let grammar := ofDefinitions definitions (start.getD defaultStart)
  match grammar.rule? grammar.start with
  | some _ => .ok grammar
  | none => .error (.unknownRule grammar.start)

end Grammar

/-- One parse: where it starts, and in which scope. -/
structure Run where
  start : String
  position : Position
  scope : Scope

/-- A parse from the start rule at the start of the text. -/
def Grammar.run (grammar : Grammar) : Run where
  start := grammar.start
  position := Position.start
  scope := grammar.scope

namespace Run

/-- The parse from another rule. -/
def fromRule (run : Run) (start : String) : Run :=
  { run with start }

/-- The parse from another position. -/
def fromPosition (run : Run) (position : Position) : Run :=
  { run with position }

/-- The parse with a further binding. -/
def bind (run : Run) (name : String) (binding : Binding) : Run :=
  { run with scope := run.scope.bind name binding }

variable {π : Type} [Producer π]

/-- Matches the start rule, and lets the text go on after it. -/
def leadingPart (run : Run) (granted : Nat) : Attempt π (Value × Position) :=
  match run.scope.rule? run.start with
  | none => Attempt.halt (.defect (.unknownRule run.start))
  | some rule => do
      let matched ← rule.run granted run.scope run.position
      pure (matched.value, matched.position)

/-- Whether the match of the start rule overflows in words. From the start of a text this is told
by the match itself; a position that a caller chooses may leave less room. -/
def overflows (run : Run) (granted : Nat) (input : Input π) : Bool :=
  match run.scope.rule? run.start with
  | none => false
  | some rule =>
      match (rule.checkedRun granted run.scope run.position input).1 with
      | .halted .overflow => true
      | _ => false

/-- The error of a text that does not go on as the grammar needs it. -/
def leftOver (place : Position) (input : Input π) : Except Halt Value × Input π :=
  let (diagnostic, next) := Diagnostic.unconsumed place input
  (.error (.diagnostic diagnostic), next)

/-- Matches the start rule against the whole text. A miss is an error where the parse
started, and text after a success is one where the success ended. -/
def whole (run : Run) (granted : Nat) (input : Input π) : Except Halt Value × Input π :=
  match run.leadingPart granted input with
  | (.halted reason, next) => (.error reason, next)
  | (.missed, next) => leftOver run.position next
  | (.matched (value, place), next) =>
      match next.isEnd place.offset with
      | (true, last) => (.ok value, last)
      | (false, last) => leftOver place last

end Run

/-- Parses a whole text, with a number of nested steps granted. -/
def Grammar.parse (grammar : Grammar) (granted : Nat) (text : String) : Except Halt Value :=
  (grammar.run.whole granted (Input.ofText text)).1

/-- What a parse of produced input yields: its result, the text it received, how often it
asked, and the producer for the next parse. -/
structure Transcript (π : Type) where
  result : Except Halt Value
  received : String
  requests : Nat
  producer : π

/-- Parses one whole input from a producer. A success has to reach the end of input, so
after the last complete part the producer is asked once more. -/
def Grammar.parseProduced {π : Type} [Producer π] (grammar : Grammar) (granted : Nat)
    (producer : π) : Transcript π :=
  let (result, input) := grammar.run.whole granted (Input.ofProducer producer)
  { result
    received := input.received
    requests := input.requests
    producer := input.producer }

end ScopedGrammar
