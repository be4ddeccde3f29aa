/-
# Trees of Croco programs

Croco is a small statement language structured by indentation. A program is a tree of
nodes, each tagged with the line it starts on. This file makes the nodes from raw matches:
operators fold to the left, postfix operations wrap their target, blocks gather their
statements, and branches hang on the clause that they follow.
-/

import ScopedGrammar.Value.Basic
import ScopedGrammar.Value.Arithmetic
import ScopedGrammar.Text.Quoted

namespace ScopedGrammar.Croco

/-- The last of a run of values, or the empty value. -/
def final (values : List Value) : Value :=
  values.getLast?.getD .empty

/-- The last but one of a run of values, or the empty value. -/
def beforeFinal (values : List Value) : Value :=
  final values.dropLast

/-- The node of a kind on the line of its raw match. -/
def nodeFrom (kind : String) (raw : Value) (children : List Value) : Value :=
  .node kind raw.lineOrZero children

/-- A node with a further child at its end. -/
def addChildren (children : List Value) : Value → Value
  | .node kind line own => .node kind line (own ++ children)
  | other => other

/-- A number with a point. -/
def floatValue (raw : Value) : Value :=
  let numeral := raw.spelling
  nodeFrom "number" raw
    [match Decimal.readFloat? numeral.toList with
      | some number => .float number
      | none => .text numeral]

/-- A whole number; one that fits no signed word keeps its digits. -/
def intValue (raw : Value) : Value :=
  let numeral := raw.spelling
  nodeFrom "number" raw
    [match Decimal.readWord? numeral.toList with
      | some number => .int number
      | none => .text numeral]

/-- A string, which holds what stands between its quotes. -/
def stringValue (raw : Value) : Value :=
  nodeFrom "string" raw [.text (raw.item 1).spelling]

/-- A name. -/
def nameValue (raw : Value) : Value :=
  nodeFrom "name" raw [.text raw.spelling]

/-- A bracketed collection. A single parenthesised item without a trailing comma is just
that item. -/
def collectionValue (kind : String) (raw : Value) : Value :=
  let parts := (raw.item 1).items
  let trailing := final parts
  let members := (beforeFinal parts).items
  match kind == "tuple" && !trailing.isTruthy, members with
  | true, [member] => member
  | _, _ => nodeFrom kind raw members

/-- One more application of an operator to what stands to its left. -/
def applyOperator (kind : String) (left pair : Value) : Value :=
  let parts := pair.items
  nodeFrom kind left [beforeFinal parts, left, final parts]

/-- A run of operators of one level, folded to the left. -/
def foldOperators (kind : String) (raw : Value) : Value :=
  let parts := raw.items
  (final parts).items.foldl (applyOperator kind) (beforeFinal parts)

/-- A postfix operation applied to its target, which becomes its first child. -/
def applyPostfix (target : Value) : Value → Value
  | .node kind line children => .node kind line (target :: children)
  | _ => target

/-- A run of postfix operations applied to the primary before them. -/
def foldPostfix (raw : Value) : Value :=
  let parts := raw.items
  (final parts).items.foldl applyPostfix (beforeFinal parts)

/-- An attribute access, still without its object. -/
def attributeValue (raw : Value) : Value :=
  nodeFrom "getattr" raw (((raw.item 1).child? 0).toList)

/-- A call, still without its callee. -/
def callValue (raw : Value) : Value :=
  nodeFrom "call" raw (raw.item 1).items

/-- An index, still without its object. -/
def indexValue (raw : Value) : Value :=
  nodeFrom "getitem" raw [raw.item 1]

/-- An assignment: its target, its operator if it works in place, and its value. -/
def assignmentValue (raw : Value) : Value :=
  nodeFrom "assign" raw [raw.item 0, .text (raw.item 1).spelling, raw.item 4]

/-- The statements in a part of a block: a line may hold several, or none. -/
def statementsOf : Value → List Value
  | .empty => []
  | .list statements => statements
  | other => [other]

/-- A block. Its line is that of its first statement. -/
def blockValue (raw : Value) : Value :=
  let statements := raw.items.flatMap statementsOf
  .node "block" ((statements.head?.bind Value.line?).getD 0) statements

/-- A clause: its header with its body as a further child. -/
def clauseValue (raw : Value) : Value :=
  let parts := raw.items
  match beforeFinal parts with
  | .node kind line children => .node kind line (children ++ [final parts])
  | _ => final parts

/-- The branch of an `else` clause, if there is one: the body of the clause. -/
def elseBranch (clauses : Value) : Option Value :=
  clauses.items.getLast?.bind (Value.child? 0)

/-- One `elif` clause in front of the branches after it. -/
def chainBranch (clause : Value) (later : Option Value) : Option Value :=
  match clause with
  | .node kind line children => some (.node kind line (children ++ later.toList))
  | _ => later

/-- A clause with its branches: each `elif` clause hangs on the clause before it, and the
`else` branch on the last. -/
def flowValue (raw : Value) : Value :=
  let parts := raw.items
  let branches := (beforeFinal parts).items.foldr chainBranch (elseBranch (final parts))
  addChildren branches.toList (beforeFinal parts.dropLast)

mutual

/-- A tree as a symbolic expression: a node in parentheses, a list in brackets, texts and
tokens between quotes, and everything else as a reader sees it. -/
def render : Value → String
  | .node kind _ children => "(" ++ kind ++ renderChildren children ++ ")"
  | .list members => "[" ++ String.intercalate " " (renderMembers members) ++ "]"
  | .text content => Text.quote content
  | .token piece => Text.quote piece.text
  | other => other.display

/-- The children of a node, each after a space. -/
def renderChildren : List Value → String
  | [] => ""
  | first :: rest => " " ++ render first ++ renderChildren rest

/-- The members of a list, one by one. -/
def renderMembers : List Value → List String
  | [] => []
  | first :: rest => render first :: renderMembers rest

end

end ScopedGrammar.Croco
