/-
# The grammar of Croco

Expressions have comparisons and the operators `+ - * / // % **` with the usual
precedence, attribute access, calls, indexes, and collections in brackets. Statements are
assignments, `break`, `continue`, `pass` and expressions, separated by newlines or
semicolons. The headers `if`, `elif`, `else`, `while` and `for` open a block, which stands
after the colon or, one level deeper, on the following lines. A level of indentation is
four spaces or a tab. A backslash before a newline continues a line, and newlines are
blanks inside brackets.
-/

import ScopedGrammar.Languages.Croco.Tree
import ScopedGrammar.Grammar.Basic

namespace ScopedGrammar.Croco

open Pattern

/-- The characters that start a name. -/
def nameStart : String :=
  "abcdefghijklmnopqrstuvwxyzABCDEFGHIJKLMNOPQRSTUVWXYZ_"

/-- The decimal digits. -/
def digits : String :=
  "0123456789"

/-- The words that are no names. -/
def keywords : List String :=
  ["if", "elif", "else", "while", "for", "in", "break", "continue", "pass"]

/-- The operators that may stand before the sign of an assignment. -/
def inPlaceOperators : List String :=
  ["//", "**", "+", "-", "*", "/", "%", "@", "|", "&"]

/-- A character inside a name. -/
def nameChar : Pattern :=
  oneOf (nameStart ++ digits)

/-- A reserved word, which no name goes on after. -/
def keyword (word : String) : Pattern :=
  ((literal word).andThen nameChar.notAhead).pick [0]

/-- A pattern with blanks around it. -/
def spaced (inner : Pattern) : Pattern :=
  (((named "SPACES").andThen inner).andThen (named "SPACES")).pick [1]

/-- Blanks on a line. A backslash before a newline is one. -/
def spaces : Pattern :=
  ((oneOf " \t").orElse (literal "\\\n")).many

/-- Blanks inside brackets, where newlines and comments count as such. -/
def multilineSpaces : Pattern :=
  (((oneOf " \t\r\n").orElse (literal "\\\n")).orElse (named "COMMENT")).many

/-- A comment, up to the end of its line. -/
def comment : Pattern :=
  (literal "#").andThen (literal "\n").exclude.many

/-- The end of a line or of the text. -/
def lineEnd : Pattern :=
  ((literal "\n").orElse finish).demand
    "unexpected \x7bfound\x7d on line \x7bline\x7d, column \x7bcolumn\x7d"

/-- A bracket as it stands in a message template, where braces are doubled. -/
def inTemplate (bracket : String) : String :=
  String.ofList (bracket.toList.flatMap fun c => if c = '\x7b' ∨ c = '\x7d' then [c, c] else [c])

/-- A pattern between brackets, where newlines are blanks. The opening bracket is
captured, so that a missing closing one is reported together with it. -/
def bracketed (inner : Pattern) (opening closing : String) : Pattern :=
  let body := (((named "SPACES").andThen inner).pick [1]).withBinding "SPACES"
    (.rule (named "MULTILINE_SPACES"))
  let message := "expected closing '" ++ inTemplate closing ++ "' for '" ++ inTemplate opening ++
    "' opened on line \x7bbracket_opening.line\x7d"
  ((((literal opening).capture "bracket_opening").andThen body).andThen
    ((literal closing).demand message)).pick [0, 1]

/-- A collection of expressions between brackets, with commas between them and possibly
one after the last. -/
def collection (opening closing kind : String) : Pattern :=
  (bracketed
    (((named "EXPRESSION").separatedBy (literal ",")).andThen
      ((literal ",").andThen (named "SPACES")).optional)
    opening closing).map (collectionValue kind)

/-- A number with a point in it. -/
def float : Pattern :=
  (((((oneOf digits).atLeast 1).andThen (literal ".")).andThen (oneOf digits).many).orElse
    ((literal ".").andThen ((oneOf digits).atLeast 1))).map floatValue

/-- A whole number. -/
def int : Pattern :=
  ((oneOf digits).atLeast 1).map intValue

/-- A string between quotes of one kind, with any characters but that quote. -/
def string : Pattern :=
  ((((oneOf "'\"").capture "quote").andThen (named "quote").exclude.many).andThen
    ((named "quote").demand "unclosed quote \x7bquote\x7d on line \x7bline\x7d")).map stringValue

/-- A name, which is no reserved word. -/
def identifier : Pattern :=
  ((((choice (keywords.map keyword)).notAhead).andThen (oneOf nameStart)).andThen
    nameChar.many).pick [1, 2] |>.map nameValue

/-- What needs no operator. -/
def primary : Pattern :=
  spaced
    ((((((named "NUMBER").orElse (named "STRING")).orElse (named "IDENTIFIER")).orElse
      (collection "(" ")" "tuple")).orElse
      (collection "[" "]" "list")).orElse
      (collection "\x7b" "\x7d" "set"))

/-- An attribute access after its object. -/
def attributeAccess : Pattern :=
  ((literal ".").andThen
    ((spaced (named "IDENTIFIER")).demand
      "expected an attribute name on line \x7bline\x7d")).map attributeValue

/-- The arguments of a call after its callee. -/
def call : Pattern :=
  (bracketed ((named "EXPRESSION").separatedBy (literal ",")) "(" ")").map callValue

/-- An index after its object. -/
def index : Pattern :=
  (bracketed
    ((named "EXPRESSION").demand "expected an index expression on line \x7bline\x7d")
    "[" "]").map indexValue

/-- A primary and its postfix operations. -/
def postfixed : Pattern :=
  ((((named "PRIMARY").andThen ((attributeAccess.orElse call).orElse index).many).andThen
    (named "SPACES")).pick [0, 1]).map foldPostfix

/-- One level of operators, all of which associate to the left, over the rule for the
tighter levels. -/
def operatorLevel (operators : List String) (operand kind : String) : Pattern :=
  let operator := ((choice (operators.map literal)).map fun raw => .text raw.spelling).capture
    "last_op"
  let right := (named operand).demand
    "expected an expression after '\x7blast_op\x7d' on line \x7bline\x7d"
  ((named operand).andThen (operator.andThen right).many).map (foldOperators kind)

/-- An assignment, plain or in place. -/
def assignment : Pattern :=
  (((((named "POSTFIX").andThen (choice (inPlaceOperators.map literal)).optional).andThen
    (literal "=")).andThen (literal "=").notAhead).andThen
    ((named "EXPRESSION").demand
      "expected an expression after '=' on line \x7bline\x7d")).map assignmentValue

/-- A statement that is a single word. -/
def keywordStatement : Pattern :=
  choice (["break", "continue", "pass"].map fun word =>
    (keyword word).map fun raw => nodeFrom word raw [])

/-- A statement. -/
def statement : Pattern :=
  ((spaced keywordStatement).orElse assignment).orElse (named "EXPRESSION")

/-- The indentation of a line at the current depth. -/
def indentation : Pattern :=
  sequence
    [((literal "    ").orElse (literal "\t")).times (.name "indent"),
      (oneOf " \t").notAhead.demand
        "too many indentations on line \x7bline\x7d, column \x7bcolumn\x7d"]

/-- A line without a statement. -/
def emptyLine : Pattern :=
  ((((oneOf " \t").many.andThen (named "COMMENT").optional).andThen (literal "\n")).orElse
    (((oneOf " \t").atLeast 1).andThen finish)).map fun _ => .empty

/-- Statements on one line. -/
def statements : Pattern :=
  ((named "STATEMENT").atLeast 1).separatedBy (literal ";")

/-- A line of statements. -/
def simpleLine : Pattern :=
  ((((named "INDENT").andThen statements).andThen (named "COMMENT").optional).andThen
    lineEnd).pick [1]

/-- A header with a condition. -/
def condition (word : String) : Pattern :=
  let kind := if word = "while" then "while" else "if"
  ((keyword word).andThen
    ((named "EXPRESSION").demand
      ("expected a condition after '" ++ word ++ "' on line \x7bline\x7d"))).map
    fun raw => nodeFrom kind raw [raw.item 1]

/-- The header of a loop over an iterable. -/
def forHeader : Pattern :=
  ((((keyword "for").andThen
    ((named "POSTFIX").demand "expected a loop target on line \x7bline\x7d")).andThen
    ((keyword "in").demand "expected 'in' on line \x7bline\x7d, column \x7bcolumn\x7d")).andThen
    ((named "EXPRESSION").demand "expected an iterable on line \x7bline\x7d")).map
    fun raw => nodeFrom "for" raw [raw.item 1, raw.item 3]

/-- The header of the last branch. -/
def elseHeader : Pattern :=
  (keyword "else").map fun raw => nodeFrom "else" raw []

/-- A body on the line of its header. -/
def inlineBody : Pattern :=
  (((statements.andThen (named "COMMENT").optional).andThen lineEnd).pick [0]).map blockValue

/-- A body on the lines after its header, one level deeper. -/
def nestedBody : Pattern :=
  (((named "SPACES").andThen (literal "\n")).andThen
    (((named "BLOCK").demand "expected an indented block on line \x7bline\x7d").withBinding
      "indent" (.sum "indent" (.const (.int 1))))).pick [2]

/-- The colon after a header. -/
def colon : Pattern :=
  ((named "SPACES").andThen
    ((literal ":").demand "expected ':' on line \x7bline\x7d, column \x7bcolumn\x7d")).pick [1]

/-- A header and its body. -/
def clause (header : Pattern) : Pattern :=
  (((((named "INDENT").andThen header).andThen colon).andThen
    (inlineBody.orElse nestedBody)).pick [1, 3]).map clauseValue

/-- A clause with the branches that follow it. -/
def flow : Pattern :=
  (((clause (((condition "if").orElse (condition "while")).orElse forHeader)).andThen
    (clause (condition "elif")).many).andThen (clause elseHeader).optional).map flowValue

/-- Lines at the current depth. -/
def block : Pattern :=
  (((emptyLine.orElse flow).orElse simpleLine).atLeast 1).map blockValue

/-- The rules by name, and the depth of the outermost lines. -/
def definitions : Frame :=
  [("SPACES", .rule spaces), ("MULTILINE_SPACES", .rule multilineSpaces),
    ("COMMENT", .rule comment), ("NUMBER", .rule (float.orElse int)),
    ("STRING", .rule string), ("IDENTIFIER", .rule identifier),
    ("PRIMARY", .rule primary), ("POSTFIX", .rule postfixed),
    ("EXPONENT", .rule (operatorLevel ["**"] "POSTFIX" "binop")),
    ("MULTIPLICATION", .rule (operatorLevel ["*", "//", "/", "%"] "EXPONENT" "binop")),
    ("ADDITION", .rule (operatorLevel ["+", "-"] "MULTIPLICATION" "binop")),
    ("EXPRESSION",
      .rule (operatorLevel ["<=", "<", ">=", ">", "!=", "=="] "ADDITION" "compare")),
    ("STATEMENT", .rule statement), ("INDENT", .rule indentation), ("BLOCK", .rule block),
    ("start", .rule ((named "BLOCK").orElse (finish.map fun _ => .node "block" 1 []))),
    ("indent", .value (.int 0))]

/-- The grammar of Croco programs. -/
def grammar : Grammar :=
  Grammar.ofDefinitions definitions "start"

/-- The nested steps granted for a text: each bracket, each block and each postfix
operation costs a bounded number of patterns around each other and at least a character,
and no repetition goes on without one. -/
def stepsFor (length : Nat) : Nat :=
  256 * (length + 2)

/-- Parses a Croco program. -/
def parse (text : String) : Except Halt Value :=
  grammar.parse (stepsFor text.length) text

end ScopedGrammar.Croco
