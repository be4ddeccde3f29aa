/-
# Building patterns

Constructors for elementary patterns and operators that combine them. Sums and
alternatives flatten to the left: `first.andThen second` extends `first` when that is a
plain sequence. A final pattern, and for sums one with picks, is wrapped instead, so that
its factory keeps seeing the parts it was written for.
-/

import ScopedGrammar.Pattern.Basic

namespace ScopedGrammar

/-- A count as a term. Counts beyond a signed word are as good as its greatest number. -/
def Term.ofCount (count : Nat) : Term :=
  .const (.int (Int64.ofNat (min count 0x7FFFFFFFFFFFFFFF)))

namespace Pattern

/-- The text that a term resolves to. -/
def literalTerm (text : Term) : Pattern :=
  ofForm (.literal text)

/-- A text, exactly. -/
def literal (text : String) : Pattern :=
  literalTerm (.const (.text text))

/-- A single character, exactly. -/
def ofChar (c : Char) : Pattern :=
  literal (String.ofList [c])

/-- One character among those of a text. -/
def oneOf (members : String) : Pattern :=
  ofForm (.charClass members.toList false)

/-- One character that is not among those of a text. -/
def noneOf (members : String) : Pattern :=
  ofForm (.charClass members.toList true)

/-- Any one character. -/
def anyChar : Pattern :=
  noneOf ""

/-- The first option that matches. -/
def choice (options : List Pattern) : Pattern :=
  ofForm (.choice options)

/-- Every part in order. -/
def sequence (parts : List Pattern) : Pattern :=
  ofForm (.sequence parts none)

/-- The rule or the text that a term resolves to. -/
def reference (target : Term) : Pattern :=
  ofForm (.reference target)

/-- The rule or the text bound to a name. -/
def named (name : String) : Pattern :=
  reference (.name name)

/-- The end of input. -/
def finish : Pattern :=
  ofForm .finish

/-- One pattern after the other. -/
def andThen (first second : Pattern) : Pattern :=
  match first.form with
  | .sequence parts none =>
      if first.isFinal then sequence [first, second] else sequence (parts ++ [second])
  | _ => sequence [first, second]

/-- One pattern or, where it does not match, the other. -/
def orElse (first second : Pattern) : Pattern :=
  match first.form with
  | .choice options =>
      if first.isFinal then choice [first, second] else choice (options ++ [second])
  | _ => choice [first, second]

/-- Maps the result. Applied again, the new function sees what the earlier one made. -/
def map (pattern : Pattern) (make : Value → Value) : Pattern :=
  match pattern with
  | .mk form none label => .mk form (some make) label
  | .mk form (some earlier) label => .mk form (some fun raw => make (earlier raw)) label

/-- Names the pattern for a reader. -/
def labelled (pattern : Pattern) (label : String) : Pattern :=
  .mk pattern.form pattern.factory (some label)

/-- Keeps only some parts of a sequence, named by their indexes. A pattern that is not a
sequence open to change counts as the only part of one. -/
def pick (pattern : Pattern) (indexes : List Nat) : Pattern :=
  match pattern.form with
  | .sequence parts _ =>
      if pattern.isFinal then ofForm (.sequence [pattern] (some indexes))
      else pattern.withForm (.sequence parts (some indexes))
  | _ => ofForm (.sequence [pattern] (some indexes))

/-- Binds the result to a name for the patterns that follow in the same branch. -/
def capture (pattern : Pattern) (name : String) : Pattern :=
  ofForm (.capture pattern name)

/-- Repetition between bounds; without an upper one it goes on as long as it can. -/
def bounded (pattern : Pattern) (least : Term) (most : Option Term) : Pattern :=
  ofForm (.repetition pattern least most none false)

/-- Any number of matches. -/
def many (pattern : Pattern) : Pattern :=
  pattern.bounded (Term.ofCount 0) none

/-- At least so many matches. -/
def atLeast (pattern : Pattern) (least : Nat) : Pattern :=
  pattern.bounded (Term.ofCount least) none

/-- A number of matches between two counts. -/
def between (pattern : Pattern) (least most : Nat) : Pattern :=
  pattern.bounded (Term.ofCount least) (some (Term.ofCount most))

/-- Exactly so many matches. -/
def exactly (pattern : Pattern) (count : Nat) : Pattern :=
  pattern.between count count

/-- One match or none. The result is a list with one member or none. -/
def optional (pattern : Pattern) : Pattern :=
  pattern.between 0 1

/-- As many matches as a term resolves to. -/
def times (pattern : Pattern) (count : Term) : Pattern :=
  pattern.bounded count (some count)

/-- A repetition with a separator between the matches. What is not a repetition open to
change is first repeated any number of times. -/
def separatedBy (pattern separator : Pattern) : Pattern :=
  match pattern.form with
  | .repetition part least most _ keep =>
      if pattern.isFinal then
        ofForm (.repetition pattern (Term.ofCount 0) none (some separator) false)
      else pattern.withForm (.repetition part least most (some separator) keep)
  | _ => ofForm (.repetition pattern (Term.ofCount 0) none (some separator) false)

/-- A repetition that keeps its separators, in a list of their own beside the matches. -/
def keepSeparators (pattern : Pattern) : Pattern :=
  match pattern.form with
  | .repetition part least most separator _ =>
      if pattern.isFinal then ofForm (.repetition pattern (Term.ofCount 0) none none true)
      else pattern.withForm (.repetition part least most separator true)
  | _ => ofForm (.repetition pattern (Term.ofCount 0) none none true)

/-- So many characters where the pattern does not match. -/
def absent (pattern : Pattern) (width : Nat) : Pattern :=
  ofForm (.absence pattern width)

/-- One character where the pattern does not match. -/
def exclude (pattern : Pattern) : Pattern :=
  pattern.absent 1

/-- Nothing, where the pattern does not match. -/
def notAhead (pattern : Pattern) : Pattern :=
  pattern.absent 0

/-- A pattern that has to match; the template is the message of the error if it does
not. -/
def demand (pattern : Pattern) (template : String) : Pattern :=
  ofForm (.demand pattern (Message.ofTemplate template))

/-- A pattern run with a name bound to what a term resolves to in the caller's scope.
Bindings added one after another to the same pattern share one scope. -/
def withBinding (pattern : Pattern) (name : String) (term : Term) : Pattern :=
  match pattern.form with
  | .overlay inner bindings =>
      if pattern.isFinal then ofForm (.overlay pattern [(name, term)])
      else pattern.withForm (.overlay inner (bindings ++ [(name, term)]))
  | _ => ofForm (.overlay pattern [(name, term)])

end Pattern

end ScopedGrammar
