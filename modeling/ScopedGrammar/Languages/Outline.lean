/-
# Outlines

An outline is a text structured by indentation. A line that ends in a colon opens a block
whose lines stand exactly one space deeper. Each line becomes an item: a node whose first
child is the line's text and whose other children are the items of its block. A line
indented deeper than its block allows is an error.
-/

import ScopedGrammar.Grammar.Basic

namespace ScopedGrammar.Outline

open Pattern

/-- The node of a line, made from its indentation, its text and what ends it. Only a
block makes a list there. -/
def itemValue (raw : Value) : Value :=
  let parts := raw.items
  let ending := parts.getLast?.getD .empty
  let text := parts.dropLast.getLast?.getD .empty
  .node "item" raw.lineOrZero (text :: ending.asList?.getD [])

/-- The indentation of a line at the current depth. -/
def indentation : Pattern :=
  sequence
    [(oneOf " ").times (.name "indent"),
      ((oneOf " ").notAhead).demand "unexpected indentation on line \x7bline\x7d"]

/-- The text of a line. -/
def lineText : Pattern :=
  ((noneOf ":\n").atLeast 1).map fun raw => .text raw.spelling

/-- The block that a colon opens, one level deeper. -/
def block : Pattern :=
  ((literal ":\n").andThen
    ((named "BLOCK").withBinding "indent" (.sum "indent" (.const (.int 1))))).pick [1]

/-- A line together with its block. -/
def line : Pattern :=
  (sequence [indentation, lineText, (block.orElse (literal "\n")).orElse finish]).map itemValue

/-- The rules by name, and the depth of the outermost lines. -/
def definitions : Frame :=
  [("LINE", .rule line), ("BLOCK", .rule ((named "LINE").atLeast 1)),
    ("start", .rule (named "BLOCK")), ("indent", .value (.int 0))]

/-- The grammar of outlines. -/
def grammar : Grammar :=
  Grammar.ofDefinitions definitions "start"

/-- The nested steps granted for a text: each block costs a bounded number of patterns
around each other and at least a character, and no repetition goes on without one. -/
def stepsFor (length : Nat) : Nat :=
  64 * (length + 2)

/-- Parses an outline. -/
def parse (text : String) : Except Halt Value :=
  grammar.parse (stepsFor text.length) text

/-- The line of an item, without its block. -/
def headLine (depth : Nat) (children : List Value) : String :=
  let text := ((children[0]?).getD Value.empty).spelling
  let mark := if 1 < children.length then ":" else ""
  String.ofList (List.replicate depth ' ') ++ text ++ mark ++ "\n"

mutual

/-- An item and its block at a depth. Values that are no nodes are passed over. -/
def renderAt (depth : Nat) : Value → String
  | .node _ _ children => headLine depth children ++ renderTail depth children
  | _ => ""

/-- The block of an item: its children but the first, which is its text. -/
def renderTail (depth : Nat) : List Value → String
  | [] => ""
  | _ :: rest => renderAll (depth + 1) rest

/-- Items at a depth, one after the other. -/
def renderAll (depth : Nat) : List Value → String
  | [] => ""
  | first :: rest => renderAt depth first ++ renderAll depth rest

end

/-- An outline as text, one line for each item. -/
def render (outline : Value) : String :=
  renderAll 0 (outline.asList?.getD [])

end ScopedGrammar.Outline
