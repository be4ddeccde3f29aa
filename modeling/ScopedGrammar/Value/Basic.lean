/-
# Values

Matching produces values: tokens from elementary patterns, lists from sequences and
repetitions, an end mark from the end of input. The other kinds are made by factories,
which turn the raw result of a pattern into what a reader of the tree wants, or are
given to a grammar as parameters.
-/

import ScopedGrammar.Input.Token
import ScopedGrammar.Decimal.Notation

namespace ScopedGrammar

/-- What a pattern produces and a name may stand for. -/
inductive Value where
  /-- A result that was matched and thrown away. -/
  | empty
  /-- The result of matching the end of input. -/
  | endMark
  | bool (truth : Bool)
  | int (number : Int64)
  | float (number : Float)
  | text (content : String)
  | token (piece : Token)
  | list (members : List Value)
  /-- Key and value pairs in order; a key may occur more than once. -/
  | map (entries : List (String × Value))
  /-- A node of a tree, with the line it starts on. -/
  | node (kind : String) (line : Nat) (children : List Value)

namespace Value

/-- The ten kinds of value. -/
inductive Kind where
  | empty | endMark | bool | int | float | text | token | list | map | node
  deriving DecidableEq

/-- The name of a kind, as messages give it. -/
def Kind.name : Kind → String
  | .empty => "empty value"
  | .endMark => "end marker"
  | .bool => "bool"
  | .int => "int"
  | .float => "float"
  | .text => "text"
  | .token => "token"
  | .list => "list"
  | .map => "map"
  | .node => "node"

/-- The kind of a value. -/
def kind : Value → Kind
  | .empty => .empty
  | .endMark => .endMark
  | .bool _ => .bool
  | .int _ => .int
  | .float _ => .float
  | .text _ => .text
  | .token _ => .token
  | .list _ => .list
  | .map _ => .map
  | .node _ _ _ => .node

/-- The text of a text or a token. -/
def asText? : Value → Option String
  | .text content => some content
  | .token piece => some piece.text
  | _ => none

/-- The number of an integer. -/
def asInt? : Value → Option Int64
  | .int number => some number
  | _ => none

/-- The token of a token value. -/
def asToken? : Value → Option Token
  | .token piece => some piece
  | _ => none

/-- The members of a list. -/
def asList? : Value → Option (List Value)
  | .list members => some members
  | _ => none

/-- A value as a run of items: a list gives its members, the empty value none, and any
other value is its own single item. -/
def items : Value → List Value
  | .list members => members
  | .empty => []
  | other => [other]

/-- The member of a list at an index, or the empty value. -/
def item (index : Nat) : Value → Value
  | .list members => members[index]?.getD .empty
  | _ => .empty

/-- The child of a node at an index: the empty value if the node has no such child, and
nothing if the value is no node. -/
def child? (index : Nat) : Value → Option Value
  | .node _ _ children => some (children[index]?.getD .empty)
  | _ => none

mutual

/-- The texts at the leaves of a value, in order: those of texts and of tokens. -/
def leafTexts : Value → List String
  | .text content => [content]
  | .token piece => [piece.text]
  | .list members => leafTextsOfList members
  | .map entries => leafTextsOfEntries entries
  | .node _ _ children => leafTextsOfList children
  | _ => []

/-- The leaf texts of the members of a list, in order. -/
def leafTextsOfList : List Value → List String
  | [] => []
  | first :: rest => leafTexts first ++ leafTextsOfList rest

/-- The leaf texts of the entries of a map, in order. -/
def leafTextsOfEntries : List (String × Value) → List String
  | [] => []
  | first :: rest => leafTextsOfEntry first ++ leafTextsOfEntries rest

/-- The leaf texts of one entry; its key is not among them. -/
def leafTextsOfEntry : String × Value → List String
  | (_, content) => leafTexts content

end

/-- All text in a value, joined in order. -/
def spelling (value : Value) : String :=
  String.join value.leafTexts

mutual

/-- The first line that a value tells: where a token starts, or where a node says that
it does. -/
def line? : Value → Option Nat
  | .token piece => some piece.start.line
  | .node _ line _ => some line
  | .list members => lineOfList? members
  | .map entries => lineOfEntries? entries
  | _ => none

/-- The first line that a list of values tells. -/
def lineOfList? : List Value → Option Nat
  | [] => none
  | first :: rest =>
      match line? first with
      | some line => some line
      | none => lineOfList? rest

/-- The first line that the entries of a map tell. -/
def lineOfEntries? : List (String × Value) → Option Nat
  | [] => none
  | first :: rest =>
      match lineOfEntry? first with
      | some line => some line
      | none => lineOfEntries? rest

/-- The first line that one entry tells. -/
def lineOfEntry? : String × Value → Option Nat
  | (_, content) => line? content

end

/-- The line of a value, or zero if it tells none. -/
def lineOrZero (value : Value) : Nat :=
  value.line?.getD 0

/-- Whether a conditional parameter takes its first branch. -/
def isTruthy : Value → Bool
  | .empty => false
  | .endMark => true
  | .bool truth => truth
  | .int number => number != 0
  | .float number => number != 0
  | .text content => !content.isEmpty
  | .token piece => !piece.isEmpty
  | .list members => !members.isEmpty
  | .map entries => !entries.isEmpty
  | .node _ _ _ => true

/-- An integer in decimal notation. -/
def showInt (number : Int64) : String :=
  toString number.toInt

/-- A value for a reader: lists and maps show all their text, and a node shows its kind
and its line. -/
def display : Value → String
  | .empty => ""
  | .endMark => ""
  | .bool truth => if truth then "true" else "false"
  | .int number => showInt number
  | .float number => Decimal.Layout.plain.writeFloat number
  | .text content => content
  | .token piece => piece.text
  | .list members => (Value.list members).spelling
  | .map entries => (Value.map entries).spelling
  | .node kind line _ => kind ++ "@" ++ toString line

/-! ## Agreement of values

Two values agree when they have the same shape and agreeing leaves. Floating-point
numbers agree by their own equality, so one that is not a number agrees with nothing;
tokens agree by text and offsets, whatever lines and columns they tell. -/

mutual

/-- Whether two values agree. -/
def agrees : Value → Value → Bool
  | .empty, .empty => true
  | .endMark, .endMark => true
  | .bool first, .bool second => first == second
  | .int first, .int second => first == second
  | .float first, .float second => first == second
  | .text first, .text second => first == second
  | .token first, .token second => first.agrees second
  | .list first, .list second => agreeingLists first second
  | .map first, .map second => agreeingEntries first second
  | .node firstKind firstLine first, .node secondKind secondLine second =>
      firstKind == secondKind && firstLine == secondLine && agreeingLists first second
  | _, _ => false
termination_by structural first => first

/-- Whether two lists agree member by member. -/
def agreeingLists : List Value → List Value → Bool
  | [], [] => true
  | first :: firstRest, second :: secondRest =>
      agrees first second && agreeingLists firstRest secondRest
  | _, _ => false
termination_by structural first => first

/-- Whether two runs of entries agree, keys included. -/
def agreeingEntries : List (String × Value) → List (String × Value) → Bool
  | [], [] => true
  | first :: firstRest, second :: secondRest =>
      agreeingEntry first second && agreeingEntries firstRest secondRest
  | _, _ => false
termination_by structural first => first

/-- Whether two entries have the same key and agreeing values. -/
def agreeingEntry : String × Value → String × Value → Bool
  | (firstKey, first), (secondKey, second) => firstKey == secondKey && agrees first second
termination_by structural first => first

end

end Value

end ScopedGrammar
