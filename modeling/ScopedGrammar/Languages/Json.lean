/-
# JSON

A grammar for JSON. Objects become maps with their keys in the order of the text, arrays
become lists, and null becomes the empty value. A number without fraction and exponent
that fits a signed word becomes an integer, and any other number a floating-point one.
Faults inside strings, arrays and objects are reported where they are.
-/

import ScopedGrammar.Grammar.Basic
import ScopedGrammar.Value.JsonText

namespace ScopedGrammar.Json

open Pattern

/-- The value of a number. -/
def numberValue (numeral : List Char) : Value :=
  let fractional := numeral.any fun c => c == '.' || c == 'e' || c == 'E'
  match if fractional then none else Decimal.readWord? numeral with
  | some number => .int number
  | none =>
      match Decimal.readFloat? numeral with
      | some number => .float number
      | none => .empty

/-- The value of a hexadecimal digit. -/
def hexDigit (c : Char) : Nat :=
  if c.toNat ≤ '9'.toNat then c.toNat - '0'.toNat
  else if c.toNat ≤ 'F'.toNat then c.toNat - 'A'.toNat + 10
  else c.toNat - 'a'.toNat + 10

/-- The character with a code given in hexadecimal. A code that is no character, such as
half of a surrogate pair, stands for the replacement character. -/
def ofHexCode (digits : List Char) : Char :=
  let code := digits.foldl (fun total c => 16 * total + hexDigit c) 0
  if code.isValidChar then Char.ofNat code else '\ufffd'

/-- The character that a letter after a backslash denotes. -/
def unescape : List Char → Char
  | ['b'] => '\x08'
  | ['f'] => '\x0c'
  | ['n'] => '\n'
  | ['r'] => '\r'
  | ['t'] => '\t'
  | c :: _ => c
  | [] => '\x00'

/-- The characters of a value's text. -/
def spelled (raw : Value) : List Char :=
  raw.spelling.toList

/-- The key and the value of an object's member. -/
def memberEntry (member : Value) : String × Value :=
  let parts := member.items
  let item := parts.getLast?.getD .empty
  let key := parts.dropLast.getLast?.map Value.spelling
  (key.getD "", item)

/-- The map of an object's members. -/
def objectValue (members : Value) : Value :=
  .map (members.items.map memberEntry)

/-- Any run of blanks between the parts of a document. -/
def blanks : Pattern :=
  (oneOf " \t\r\n").many

/-- One digit or more. -/
def digits : Pattern :=
  (oneOf "0123456789").atLeast 1

/-- A number. -/
def number : Pattern :=
  ((literal "-").optional.andThen digits
    |>.andThen ((literal ".").andThen digits).optional
    |>.andThen (((oneOf "eE").andThen (oneOf "+-").optional).andThen digits).optional).map
    fun raw => numberValue (spelled raw)

/-- A character given by its code. -/
def unicodeEscape : Pattern :=
  (((literal "\\u").andThen
      (((oneOf "0123456789abcdefABCDEF").exactly 4).demand
        "invalid unicode escape at line \x7bline\x7d, column \x7bcolumn\x7d")).pick [1]).map
    fun raw => .text (String.ofList [ofHexCode (spelled raw)])

/-- A character given by a letter. -/
def letterEscape : Pattern :=
  (((literal "\\").andThen
      ((oneOf "\"\\/bfnrt").demand
        "invalid escape \x7bfound\x7d at line \x7bline\x7d, column \x7bcolumn\x7d")).pick [1]).map
    fun raw => .text (String.ofList [unescape (spelled raw)])

/-- A string. -/
def stringRule : Pattern :=
  ((((literal "\"").andThen
      ((unicodeEscape.orElse letterEscape).orElse (noneOf "\"\\\n")).many).andThen
      ((literal "\"").demand
        "unterminated string at line \x7bline\x7d, column \x7bcolumn\x7d")).pick [1]).map
    fun raw => .text raw.spelling

/-- A value with blanks around it. -/
def element : Pattern :=
  ((blanks.andThen (named "VALUE")).andThen blanks).pick [1]

/-- An array. -/
def array : Pattern :=
  ((((literal "[").andThen blanks).andThen
      ((named "ELEMENT").separatedBy (literal ","))).andThen
      ((literal "]").demand
        "unexpected \x7bfound\x7d in array at line \x7bline\x7d, column \x7bcolumn\x7d")).pick [2]

/-- A member of an object: a key and a value. -/
def member : Pattern :=
  ((((blanks.andThen (named "STRING")).andThen blanks).andThen
      ((literal ":").demand
        "expected ':' after object key at line \x7bline\x7d, column \x7bcolumn\x7d")).andThen
      ((named "ELEMENT").demand
        "expected a value at line \x7bline\x7d, column \x7bcolumn\x7d")).pick [1, 4]

/-- An object. -/
def object : Pattern :=
  (((((literal "\x7b").andThen blanks).andThen
      ((named "MEMBER").separatedBy (literal ","))).andThen
      ((literal "\x7d").demand
        "unexpected \x7bfound\x7d in object at line \x7bline\x7d, column \x7bcolumn\x7d")).pick
      [2]).map objectValue

/-- One of the three words. -/
def constant : Pattern :=
  (((literal "true").map fun _ => .bool true).orElse
    ((literal "false").map fun _ => .bool false)).orElse
    ((literal "null").map fun _ => .empty)

/-- The rules by name. -/
def definitions : Frame :=
  [("STRING", .rule stringRule), ("ELEMENT", .rule element), ("MEMBER", .rule member),
    ("VALUE",
      .rule ((((object.orElse array).orElse (named "STRING")).orElse number).orElse constant)),
    ("start", .rule (named "ELEMENT"))]

/-- The grammar of JSON documents. -/
def grammar : Grammar :=
  Grammar.ofDefinitions definitions "start"

/-- The nested steps granted for a text: between two characters there are only so many
patterns around each other, and no repetition goes on without a character. -/
def stepsFor (length : Nat) : Nat :=
  64 * (length + 2)

/-- Parses a JSON document. -/
def parse (text : String) : Except Halt Value :=
  grammar.parse (stepsFor text.length) text

end ScopedGrammar.Json
