/-
# Programs as they are written

The statements of Croco, apart from any way to parse them: the lines that each is written as,
and the tree of nodes that it stands for. What makes a statement well-formed is part of it, so
every block has a text.

A simple statement takes one line. A clause takes a line for its header, and its body stands
on the lines below it, one level deeper; the branches of a clause stand at its own depth. How
a level of indentation is written may differ from line to line and from level to level. A
tree tells the lines that its nodes are on, so the text and the tree of a block both ask for
the line that it starts on.
-/

import ScopedGrammar.Proofs.Croco.Expressions

namespace ScopedGrammar.Croco

/-- A level of indentation. -/
inductive Indent where
  | spaces | tab
  deriving DecidableEq

/-- How a level of indentation is written. -/
def Indent.text : Indent → List Char
  | .spaces => [' ', ' ', ' ', ' ']
  | .tab => ['\t']

/-- Levels of indentation, one after the other. -/
def margin (levels : List Indent) : List Char :=
  levels.flatMap Indent.text

/-- How the levels of indentation on each line are written. -/
abbrev Style : Type :=
  Nat → Nat → Indent

/-- The indentation of a line at a depth. -/
def Style.levels (style : Style) (line depth : Nat) : List Indent :=
  (List.range depth).map (style line)

/-- The header of a clause that begins a statement. -/
inductive Header where
  | condition (word : String) (hword : word ∈ ["if", "while"]) (guard : Expression)
  | loop (target iterable : Expression)

mutual

/-- A statement. An assignment may work in place, and then has an operator before its sign. -/
inductive Statement where
  | keyword (word : String) (hword : word ∈ ["break", "continue", "pass"])
  | assignment (target : Expression) (sign : String)
      (hsign : sign = "" ∨ sign ∈ inPlaceOperators) (gap : Gap) (value : Expression)
  | expression (value : Expression)
  | flow (header : Header) (body : Block) (branches : Branches)

/-- A block of at least one statement. -/
inductive Block where
  | last (statement : Statement)
  | more (statement : Statement) (rest : Block)

/-- What is done where the guard of a clause fails: nothing, a last body, or a further
clause with its own branches. -/
inductive Branches where
  | none
  | last (body : Block)
  | further (guard : Expression) (body : Block) (rest : Branches)

end

mutual

/-- The number of lines that a statement takes. -/
def Statement.lines : Statement → Nat
  | .keyword _ _ => 1
  | .assignment _ _ _ _ _ => 1
  | .expression _ => 1
  | .flow _ body branches => 1 + body.lines + branches.lines

/-- The number of lines that a block takes. -/
def Block.lines : Block → Nat
  | .last statement => statement.lines
  | .more statement rest => statement.lines + rest.lines

/-- The number of lines that branches take. -/
def Branches.lines : Branches → Nat
  | .none => 0
  | .last body => 1 + body.lines
  | .further _ body rest => 1 + body.lines + rest.lines

end

/-- The target of an assignment or of a loop, in parentheses if it is an operation. -/
def Expression.targetText (target : Expression) : List Char :=
  enclosed (decide (target.rank < postfixRank)) target.text

/-- What a header is written as, up to its colon. -/
def Header.text : Header → List Char
  | .condition word _ guard => word.toList ++ (' ' :: guard.text)
  | .loop target iterable =>
      "for".toList ++ (' ' :: (target.targetText ++ (' ' :: ("in".toList ++
        (' ' :: iterable.text)))))

/-- A header on its line, and below it a body. -/
def clauseText (levels : List Indent) (header body : List Char) : List Char :=
  margin levels ++ (header ++ (':' :: '\n' :: body))

/-- What ends the body before branches: the end of its line, if there are any. -/
def Branches.endingBefore (ending : List Char) : Branches → List Char
  | .none => ending
  | _ => ['\n']

mutual

/-- What a statement at a depth is written as, from a line on. The last of its lines has a
given ending. -/
def Statement.text (style : Style) (depth line : Nat) (ending : List Char) :
    Statement → List Char
  | .keyword word _ => margin (style.levels line depth) ++ (word.toList ++ ending)
  | .assignment target sign _ gap value =>
      margin (style.levels line depth) ++ ((target.targetText ++ (gap.before ++ (sign.toList ++
        ('=' :: (gap.after ++ value.text))))) ++ ending)
  | .expression value => margin (style.levels line depth) ++ (value.text ++ ending)
  | .flow header body branches =>
      clauseText (style.levels line depth) header.text
          (body.text style (depth + 1) (line + 1) (branches.endingBefore ending)) ++
        branches.text style depth (line + 1 + body.lines) ending

/-- What a block at a depth is written as. -/
def Block.text (style : Style) (depth line : Nat) (ending : List Char) : Block → List Char
  | .last statement => statement.text style depth line ending
  | .more statement rest =>
      statement.text style depth line ['\n'] ++
        rest.text style depth (line + statement.lines) ending

/-- What branches at a depth are written as. -/
def Branches.text (style : Style) (depth line : Nat) (ending : List Char) :
    Branches → List Char
  | .none => []
  | .last body =>
      clauseText (style.levels line depth) "else".toList
        (body.text style (depth + 1) (line + 1) ending)
  | .further guard body rest =>
      clauseText (style.levels line depth) ("elif".toList ++ (' ' :: guard.text))
          (body.text style (depth + 1) (line + 1) (rest.endingBefore ending)) ++
        rest.text style depth (line + 1 + body.lines) ending

end

/-- The kind of the node for a header. -/
def Header.kind : Header → String
  | .condition word _ _ => word
  | .loop _ _ => "for"

/-- The trees of the expressions in a header. -/
def Header.nodes (line : Nat) : Header → List Value
  | .condition _ _ guard => [guard.node line]
  | .loop target iterable => [target.node line, iterable.node line]

mutual

/-- The tree that a statement stands for, from a line on. -/
def Statement.node (line : Nat) : Statement → Value
  | .keyword word _ => .node word line []
  | .assignment target sign _ _ value =>
      .node "assign" line [target.node line, .text sign, value.node line]
  | .expression value => value.node line
  | .flow header body branches =>
      .node header.kind line (header.nodes line ++
        (.node "block" (line + 1) (body.nodes (line + 1)) ::
          (branches.node? (line + 1 + body.lines)).toList))

/-- The trees that the statements of a block stand for. -/
def Block.nodes (line : Nat) : Block → List Value
  | .last statement => [statement.node line]
  | .more statement rest => statement.node line :: rest.nodes (line + statement.lines)

/-- The tree that branches stand for, if there are any. A further clause is a condition of its
own, with its branches. -/
def Branches.node? (line : Nat) : Branches → Option Value
  | .none => .none
  | .last body => some (.node "block" (line + 1) (body.nodes (line + 1)))
  | .further guard body rest =>
      some (.node "if" line (guard.node line ::
        .node "block" (line + 1) (body.nodes (line + 1)) ::
          (rest.node? (line + 1 + body.lines)).toList))

end

/-- The tree that a block stands for. -/
def Block.node (line : Nat) (block : Block) : Value :=
  .node "block" line (block.nodes line)

end ScopedGrammar.Croco
