/-
# Matching

A pattern is matched at a position of an input, in a scope. A success tells the value,
the position after it and the scope for what follows in the same branch, which is the
caller's own together with what was captured on the way. Overlays and rules hand the
caller's scope back as it was.

Rules may refer to themselves, so matching recurs through a number of nested steps that
is granted at the start. It bounds the depth of the recursion and the rounds of each
repetition; running out of it is a verdict of its own and never looks like a miss.

A match counts lines and columns without a bound. A checked match does the same and halts
where a count leaves its word, which only happens from a position that is close to the bound.
-/

import ScopedGrammar.Match.Attempt
import ScopedGrammar.Message.Render
import ScopedGrammar.Scope.Resolve

namespace ScopedGrammar

/-- A success. -/
structure Match where
  value : Value
  position : Position
  scope : Scope

/-- A way to match any pattern in any scope at any position. -/
abbrev Matcher (π : Type) : Type :=
  Pattern → Scope → Position → Attempt π Match

namespace Match

variable {π : Type} [Producer π]

/-- The success with the next `count` characters as its token. -/
def captureToken (count : Nat) (scope : Scope) (place : Position) : Attempt π Match := do
  let token ← Attempt.read (Token.capture place count)
  pure ⟨.token token, token.stop, scope⟩

/-- A text, exactly. -/
def text (expected : String) (scope : Scope) (place : Position) : Attempt π Match := do
  let found ← Attempt.read (Input.startsWith place.offset expected.toList)
  if found then captureToken expected.length scope place else Attempt.miss

/-- One character that is among the members, or is not if they are excluded. -/
def oneChar (members : List Char) (excluded : Bool) (scope : Scope) (place : Position) :
    Attempt π Match := do
  let found ← Attempt.read (Input.charAt place.offset)
  match found with
  | some c => if members.contains c != excluded then captureToken 1 scope place else Attempt.miss
  | none => Attempt.miss

/-- The end of input, consuming nothing. -/
def finish (scope : Scope) (place : Position) : Attempt π Match := do
  let atEnd ← Attempt.read (Input.isEnd place.offset)
  if atEnd then pure ⟨.endMark, place, scope⟩ else Attempt.miss

/-- The next `width` characters, provided that they are there. The offset of the last of
them is computed in a word, where the sum of offset and width must fit. -/
def wide (width : Nat) (scope : Scope) (place : Position) : Attempt π Match := do
  if width = 0 then
    captureToken width scope place
  else if offsetBound ≤ place.offset + width then
    Attempt.halt .overflow
  else
    let there ← Attempt.read (Input.has (place.offset + width - 1))
    if there then captureToken width scope place else Attempt.miss

/-- The diagnostic of a demand that was not met. -/
def complain (message : Message) (scope : Scope) (place : Position) : Attempt π Match := do
  let text ← Attempt.read (message.render scope place)
  let diagnostic ← Attempt.read (Diagnostic.expected text place)
  Attempt.halt (.diagnostic diagnostic)

/-- The values of all parts in order, with the position and the scope after the last. -/
def allOf (matcher : Matcher π) :
    List Pattern → Scope → Position → Attempt π (List Value × Position × Scope)
  | [], scope, place => pure ([], place, scope)
  | part :: rest, scope, place => do
      let first ← matcher part scope place
      let (values, last, inner) ← allOf matcher rest first.scope first.position
      pure (first.value :: values, last, inner)

/-- The first option that matches. -/
def firstOf (matcher : Matcher π) : List Pattern → Scope → Position → Attempt π Match
  | [], _, _ => Attempt.miss
  | option :: rest, scope, place =>
      Attempt.orElse (matcher option scope place) (firstOf matcher rest scope place)

/-- The value of a sequence: the list of its parts, or those that are picked. A single
pick gives the part itself. -/
def pickValues (values : List Value) : Option (List Nat) → Except Defect Value
  | none => .ok (.list values)
  | some indexes =>
      match indexes.find? fun index => decide (values.length ≤ index) with
      | some index => .error (.invalidPick index values.length)
      | none =>
          match indexes with
          | [index] => .ok (values[index]?.getD .empty)
          | _ => .ok (.list (indexes.map fun index => values[index]?.getD .empty))

/-- What a repetition has collected, and where it stands. -/
structure Tally where
  parts : Array Value
  separators : Array Value
  position : Position
  scope : Scope

/-- The separator before a further part. There is none before the first part. -/
def beforePart (matcher : Matcher π) (separator : Option Pattern) (tally : Tally) :
    Attempt π Tally :=
  match separator with
  | none => pure tally
  | some between =>
      if tally.parts.isEmpty then pure tally
      else do
        let matched ← matcher between tally.scope tally.position
        pure
          { tally with
            separators := tally.separators.push matched.value
            position := matched.position
            scope := matched.scope }

/-- One more round: the separator, if one is due, and the part. It misses as a whole, so
a separator without a part after it leaves no trace. -/
def round (matcher : Matcher π) (part : Pattern) (separator : Option Pattern) (tally : Tally) :
    Attempt π Tally := do
  let ready ← beforePart matcher separator tally
  let matched ← matcher part ready.scope ready.position
  pure
    { ready with
      parts := ready.parts.push matched.value
      position := matched.position
      scope := matched.scope }

/-- Whether a repetition has as many parts as it may have. -/
def Tally.isFull (tally : Tally) : Option Nat → Bool
  | none => false
  | some most => most ≤ tally.parts.size

/-- Rounds until one misses, the repetition is full, or a round has not moved. -/
def rounds (matcher : Matcher π) (part : Pattern) (separator : Option Pattern)
    (most : Option Nat) : Nat → Tally → Input π → Verdict Tally × Input π
  | 0, _, input => (.halted .exhausted, input)
  | granted + 1, tally, input =>
      if tally.isFull most then (.matched tally, input)
      else
        match round matcher part separator tally input with
        | (.missed, next) => (.matched tally, next)
        | (.halted reason, next) => (.halted reason, next)
        | (.matched later, next) =>
            if later.position.samePlace tally.position then (.matched later, next)
            else rounds matcher part separator most granted later next

/-- What a repetition collects from a position on. -/
def upTo (matcher : Matcher π) (granted : Nat) (part : Pattern) (separator : Option Pattern)
    (most : Option Nat) (scope : Scope) (place : Position) : Attempt π Tally :=
  rounds matcher part separator most granted ⟨#[], #[], place, scope⟩

/-- The value of a repetition. -/
def Tally.value (tally : Tally) (keepSeparators : Bool) : Value :=
  if keepSeparators then .list [.list tally.parts.toList, .list tally.separators.toList]
  else .list tally.parts.toList

/-- The bounds of a repetition, resolved and the right way round. -/
def resolveBounds (scope : Scope) (least : Term) (most : Option Term) :
    Except Defect (Nat × Option Nat) :=
  match least.count scope, most with
  | .error defect, _ => .error defect
  | .ok low, none => .ok (low, none)
  | .ok low, some upper =>
      match upper.count scope with
      | .error defect => .error defect
      | .ok high => if high < low then .error (.emptyRange low high) else .ok (low, some high)

/-- A repetition between resolved bounds. -/
def repetition (matcher : Matcher π) (granted : Nat) (part : Pattern)
    (separator : Option Pattern) (keepSeparators : Bool) (least : Nat) (most : Option Nat)
    (scope : Scope) (place : Position) : Attempt π Match := do
  let tally ← upTo matcher granted part separator most scope place
  if tally.parts.size < least then Attempt.miss
  else pure ⟨tally.value keepSeparators, tally.position, tally.scope⟩

/-- A match whose captures stay inside: the scope afterwards is the caller's. -/
def keepScope (scope : Scope) (attempt : Attempt π Match) : Attempt π Match := do
  let inner ← attempt
  pure { inner with scope }

/-- What a reference leads to: a rule is matched, a text is matched literally. -/
def follow (matcher : Matcher π) (term : Term) (scope : Scope) (place : Position) :
    Binding → Attempt π Match
  | .rule pattern => keepScope scope (matcher pattern scope place)
  | .value content =>
      match content.asText? with
      | some expected => text expected scope place
      | none => Attempt.halt (.defect (.notParsable term.display content.kind))

/-- The raw match of a form, given a way to match the patterns in it. -/
def form (matcher : Matcher π) (granted : Nat) (shape : Form) (scope : Scope)
    (place : Position) : Attempt π Match :=
  match shape with
  | .literal term => do
      let expected ← Attempt.resolved (term.textOf scope)
      text expected scope place
  | .charClass members excluded => oneChar members excluded scope place
  | .choice options => firstOf matcher options scope place
  | .sequence parts picks => do
      let (values, last, inner) ← allOf matcher parts scope place
      let value ← Attempt.resolved (pickValues values picks)
      pure ⟨value, last, inner⟩
  | .repetition part least most separator keepSeparators => do
      let (low, high) ← Attempt.resolved (resolveBounds scope least most)
      repetition matcher granted part separator keepSeparators low high scope place
  | .absence inner width => do
      Attempt.absent (matcher inner scope place)
      wide width scope place
  | .demand inner message =>
      Attempt.orElse (matcher inner scope place) (complain message scope place)
  | .capture inner name => do
      let matched ← matcher inner scope place
      pure { matched with scope := matched.scope.bind name (.value matched.value) }
  | .overlay inner bindings => do
      let frame ← Attempt.resolved (scope.resolveAll bindings)
      keepScope scope (matcher inner (scope.push frame) place)
  | .reference term => do
      let binding ← Attempt.resolved (term.resolve scope)
      follow matcher term scope place binding
  | .finish => finish scope place

/-- Whether the scope of a success is the caller's own chain. Matching only ever pushes
frames on the caller's scope, so equal depths mean equal chains. -/
def keepsChain (success : Match) (caller : Scope) : Bool :=
  success.scope.depth == caller.depth

end Match

/-- Matches a pattern in a scope at a position, with a number of nested steps granted. -/
def Pattern.run {π : Type} [Producer π] : Nat → Matcher π
  | 0 => fun _ _ _ => Attempt.halt .exhausted
  | granted + 1 => fun pattern scope place => do
      let raw ← Match.form (Pattern.run granted) granted pattern.form scope place
      pure { raw with value := pattern.finishValue raw.value }

/-- Halts if a line or a column leaves its word on the way from one position to another. -/
def Match.keepWords {π : Type} (place stop : Position) : Attempt π Unit := do
  let taken ← Attempt.read fun input => (input.slice place.offset stop.offset, input)
  if (place.past? taken.toList).isSome then pure () else Attempt.halt .overflow

/-- Matches as `run` does, and halts where a line or a column leaves its word. The way of every
match is checked, so those in other patterns and in what is only looked for are as well. -/
def Pattern.checkedRun {π : Type} [Producer π] : Nat → Matcher π
  | 0 => fun _ _ _ => Attempt.halt .exhausted
  | granted + 1 => fun pattern scope place => do
      let raw ← Match.form (Pattern.checkedRun granted) granted pattern.form scope place
      Match.keepWords place raw.position
      pure { raw with value := pattern.finishValue raw.value }

/-- So many nested steps that no match of practical size runs out of them. -/
def ampleSteps : Nat :=
  1000000000000000

end ScopedGrammar
