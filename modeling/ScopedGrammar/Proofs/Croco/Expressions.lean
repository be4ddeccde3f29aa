/-
# Expressions as they are written

The expressions of Croco, apart from any way to parse them: the text that each is written
as, on one line, and the tree of nodes that it stands for. What makes a leaf well-formed is
part of the leaf, so every expression has a text.

Operators stand on four tiers and associate to the left. An operand is written in
parentheses if it binds more loosely than its place asks for: a left operand may be of the
operator's own tier, a right operand must be of a tighter one, and what a postfix operation
is applied to must be no operation with an operator at all. The text leaves open which
blanks stand around operators and commas and which quotes stand around a string. An
expression holds this choice as well, and its tree does not show it.
-/

import ScopedGrammar.Languages.Croco.Rules

namespace ScopedGrammar.Croco

/-- A statement about the characters of a list is decided over the list, never over all the
characters that there are. -/
scoped instance (priority := 1100) decidableForallMem (holds : Char → Prop)
    [DecidablePred holds] (run : List Char) : Decidable (∀ c ∈ run, holds c) :=
  List.decidableBAll holds run

/-- So is one about the character that a list may begin with. -/
scoped instance (priority := 1100) decidableForallMemOption (holds : Char → Prop)
    [DecidablePred holds] (first : Option Char) : Decidable (∀ c ∈ first, holds c) :=
  Option.decidableForallMem first

scoped instance (priority := 1100) decidableExistsMemOption (holds : Char → Prop)
    [DecidablePred holds] (first : Option Char) : Decidable (∃ c ∈ first, holds c) :=
  Option.decidableExistsMem first

/-- Whether a character may begin a name. -/
def isNameStart (c : Char) : Bool :=
  c.isAlpha || c == '_'

/-- Whether a character may stand in a name. -/
def isNameChar (c : Char) : Bool :=
  isNameStart c || Decimal.isDigit c

/-- A name, which is no reserved word. -/
structure Name where
  first : Char
  more : List Char
  starts : isNameStart first = true
  goesOn : ∀ c ∈ more, isNameChar c = true
  free : String.ofList (first :: more) ∉ keywords

/-- The characters of a name. -/
def Name.text (name : Name) : List Char :=
  name.first :: name.more

/-- A whole number without a sign that fits a signed word. -/
structure Numeral where
  number : Int64
  unsigned : 0 ≤ number.toInt

/-- The digits of a number. -/
def Numeral.text (numeral : Numeral) : List Char :=
  (Value.showInt numeral.number).toList

/-- A string on one line between quotes that do not stand in it. -/
structure Quoted where
  quote : Char
  content : List Char
  isQuote : quote = '\'' ∨ quote = '"'
  plain : ∀ c ∈ content, c ≠ quote ∧ c ≠ '\n'

/-- A string with its quotes. -/
def Quoted.text (quoted : Quoted) : List Char :=
  quoted.quote :: (quoted.content ++ [quoted.quote])

/-- A run of spaces and tabs. -/
def Blank (run : List Char) : Prop :=
  ∀ c ∈ run, c = ' ' ∨ c = '\t'

instance (run : List Char) : Decidable (Blank run) :=
  inferInstanceAs (Decidable (∀ c ∈ run, c = ' ' ∨ c = '\t'))

/-- The blanks before and after an operator or a comma. -/
structure Gap where
  before : List Char
  after : List Char
  blankBefore : Blank before
  blankAfter : Blank after

/-- No blanks. -/
def Gap.tight : Gap where
  before := []
  after := []
  blankBefore := by decide
  blankAfter := by decide

/-- One blank on each side. -/
def Gap.single : Gap where
  before := [' ']
  after := [' ']
  blankBefore := by decide
  blankAfter := by decide

/-- A comma with blanks around it. -/
def Gap.comma (gap : Gap) : List Char :=
  gap.before ++ (',' :: gap.after)

/-- The tiers of operators, from the loosest to the tightest. -/
inductive Tier where
  | comparison | sum | product | power
  deriving DecidableEq

/-- How tightly the operators of a tier bind. -/
def Tier.rank : Tier → Nat
  | .comparison => 0
  | .sum => 1
  | .product => 2
  | .power => 3

/-- How tightly postfix operations and all that needs no operator bind. -/
def postfixRank : Nat :=
  4

/-- The kind of the nodes for the operators of a tier. -/
def Tier.kind : Tier → String
  | .comparison => "compare"
  | _ => "binop"

/-- The binary operators. -/
inductive Operator where
  | less | atMost | greater | atLeast | differs | equals
  | plus | minus
  | times | divide | floorDivide | remainder
  | toThe
  deriving DecidableEq

namespace Operator

/-- The tier of an operator. -/
def tier : Operator → Tier
  | .less | .atMost | .greater | .atLeast | .differs | .equals => .comparison
  | .plus | .minus => .sum
  | .times | .divide | .floorDivide | .remainder => .product
  | .toThe => .power

/-- How an operator is written. -/
def spelling : Operator → String
  | .less => "<"
  | .atMost => "<="
  | .greater => ">"
  | .atLeast => ">="
  | .differs => "!="
  | .equals => "=="
  | .plus => "+"
  | .minus => "-"
  | .times => "*"
  | .divide => "/"
  | .floorDivide => "//"
  | .remainder => "%"
  | .toThe => "**"

/-- The characters of an operator. -/
def text (operator : Operator) : List Char :=
  operator.spelling.toList

end Operator

/-- The brackets of collections. -/
inductive Bracket where
  | tuple | list | set
  deriving DecidableEq

namespace Bracket

/-- The kind of the node for a collection. -/
def kind : Bracket → String
  | .tuple => "tuple"
  | .list => "list"
  | .set => "set"

/-- The bracket before a collection. -/
def opening : Bracket → Char
  | .tuple => '('
  | .list => '['
  | .set => '\x7b'

/-- The bracket after a collection. -/
def closing : Bracket → Char
  | .tuple => ')'
  | .list => ']'
  | .set => '\x7d'

end Bracket

/-- An expression, with the blanks that it is written with. There is a gap for each comma;
where it is not given, the comma stands without blanks. -/
inductive Expression where
  | name (word : Name)
  | number (numeral : Numeral)
  | string (quoted : Quoted)
  | collection (bracket : Bracket) (members : List Expression) (gaps : List Gap)
  | attribute (target : Expression) (word : Name)
  | call (callee : Expression) (arguments : List Expression) (gaps : List Gap)
  | index (target position : Expression)
  | operation (left : Expression) (gap : Gap) (operator : Operator) (right : Expression)

namespace Expression

/-- How tightly an expression binds. -/
def rank : Expression → Nat
  | .operation _ _ operator _ => operator.tier.rank
  | _ => postfixRank

/-- Whether an expression is a number, after which a point would go on with it. -/
def isNumber : Expression → Bool
  | .number _ => true
  | _ => false

end Expression

/-- A run in parentheses, if they are needed. -/
def enclosed (needed : Bool) (run : List Char) : List Char :=
  if needed then '(' :: (run ++ [')']) else run

/-- Runs with a comma in front of each. -/
def afterCommas : List Gap → List (List Char) → List Char
  | _, [] => []
  | gaps, first :: rest =>
      (gaps.headD .tight).comma ++ (first ++ afterCommas gaps.tail rest)

/-- Runs with commas between them. -/
def separated (gaps : List Gap) : List (List Char) → List Char
  | [] => []
  | first :: rest => first ++ afterCommas gaps rest

/-- The comma after the only member of a tuple. Nothing else stands before the closing
bracket of a collection. -/
def lastComma (bracket : Bracket) (gaps : List Gap) (runs : List (List Char)) : List Char :=
  match bracket, runs with
  | .tuple, [_] => (gaps.headD .tight).comma
  | _, _ => []

namespace Expression

mutual

/-- What an expression is written as. -/
def text : Expression → List Char
  | .name word => word.text
  | .number numeral => numeral.text
  | .string quoted => quoted.text
  | .collection bracket members gaps =>
      bracket.opening :: (separated gaps (texts members) ++
        (lastComma bracket gaps (texts members) ++ [bracket.closing]))
  | .attribute target word =>
      enclosed (target.isNumber || decide (target.rank < postfixRank)) target.text ++
        ('.' :: word.text)
  | .call callee arguments gaps =>
      enclosed (decide (callee.rank < postfixRank)) callee.text ++
        ('(' :: (separated gaps (texts arguments) ++ [')']))
  | .index target position =>
      enclosed (decide (target.rank < postfixRank)) target.text ++
        ('[' :: (position.text ++ [']']))
  | .operation left gap operator right =>
      enclosed (decide (left.rank < operator.tier.rank)) left.text ++
        (gap.before ++ (operator.text ++ (gap.after ++
          enclosed (decide (right.rank ≤ operator.tier.rank)) right.text)))

/-- What expressions are written as, one by one. -/
def texts : List Expression → List (List Char)
  | [] => []
  | first :: rest => first.text :: texts rest

end

mutual

/-- The tree that an expression on a line stands for. -/
def node (line : Nat) : Expression → Value
  | .name word => .node "name" line [.text (String.ofList word.text)]
  | .number numeral => .node "number" line [.int numeral.number]
  | .string quoted => .node "string" line [.text (String.ofList quoted.content)]
  | .collection bracket members _ => .node bracket.kind line (nodes line members)
  | .attribute target word =>
      .node "getattr" line [node line target, .text (String.ofList word.text)]
  | .call callee arguments _ => .node "call" line (node line callee :: nodes line arguments)
  | .index target position => .node "getitem" line [node line target, node line position]
  | .operation left _ operator right =>
      .node operator.tier.kind line
        [.text operator.spelling, node line left, node line right]

/-- The trees that expressions on a line stand for, one by one. -/
def nodes (line : Nat) : List Expression → List Value
  | [] => []
  | first :: rest => node line first :: nodes line rest

end

/-- The tree of an expression tells the line of the expression. -/
theorem lineOrZero_node (expression : Expression) (line : Nat) :
    (expression.node line).lineOrZero = line := by
  cases expression <;> simp [node, Value.lineOrZero, Value.line?]

end Expression

end ScopedGrammar.Croco
