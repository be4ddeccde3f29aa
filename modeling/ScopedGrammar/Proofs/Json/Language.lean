/-
# The language of JSON documents

The context-free grammar of documents, apart from any way to parse them. Each phrase of the
grammar stands for something: a value, a value with blanks around it, a run of values with
commas between them, a member of an object, or a run of members. `Produces` relates a phrase
to the runs of characters that the grammar produces for it, with one constructor for each
production. What numbers and characters denote is said here as well, except for the value of
a numeral, which is taken as given.
-/

import ScopedGrammar.Languages.Json

namespace ScopedGrammar.Json

/-- A run of spaces, tabs, carriage returns and newlines. -/
def Blank (run : List Char) : Prop :=
  ∀ c ∈ run, c = ' ' ∨ c = '\t' ∨ c = '\r' ∨ c = '\n'

/-- One digit or more. -/
def Digits (run : List Char) : Prop :=
  run ≠ [] ∧ ∀ c ∈ run, Decimal.isDigit c = true

/-- A point and digits, or nothing. -/
inductive Fraction : List Char → Prop
  | none : Fraction []
  | some {digits : List Char} (hdigits : Digits digits) : Fraction ('.' :: digits)

/-- The letter e, an optional sign and digits, or nothing. -/
inductive Exponent : List Char → Prop
  | none : Exponent []
  | some {mark : Char} {sign digits : List Char} (hmark : mark = 'e' ∨ mark = 'E')
      (hsign : sign = [] ∨ sign = ['+'] ∨ sign = ['-']) (hdigits : Digits digits) :
      Exponent (mark :: (sign ++ digits))

/-- A number: an optional minus sign, digits, and possibly a fraction and an exponent. -/
inductive Numeral : List Char → Prop
  | mk {sign whole fraction exponent : List Char} (hsign : sign = [] ∨ sign = ['-'])
      (hwhole : Digits whole) (hfraction : Fraction fraction) (hexponent : Exponent exponent) :
      Numeral (sign ++ (whole ++ (fraction ++ exponent)))

/-- The letters that may stand after a backslash, and the characters they denote. -/
inductive LetterEscape : Char → Char → Prop
  | quote : LetterEscape '"' '"'
  | backslash : LetterEscape '\\' '\\'
  | slash : LetterEscape '/' '/'
  | backspace : LetterEscape 'b' '\x08'
  | formFeed : LetterEscape 'f' '\x0c'
  | newline : LetterEscape 'n' '\n'
  | carriageReturn : LetterEscape 'r' '\r'
  | tab : LetterEscape 't' '\t'

/-- A hexadecimal digit, in either case, and its value. -/
def HexDigit (c : Char) (digit : Nat) : Prop :=
  digit < 16 ∧ (c = Nat.digitChar digit ∨ c = (Nat.digitChar digit).toUpper)

/-- The character with a code of four hexadecimal digits. The codes of surrogates are no
characters and denote the replacement character. -/
def codeChar (code : Nat) : Char :=
  if 0xD800 ≤ code ∧ code ≤ 0xDFFF then '\ufffd' else Char.ofNat code

/-- A character of a string, as itself or as an escape. -/
inductive Piece : List Char → Char → Prop
  | plain {c : Char} (hplain : c ≠ '"' ∧ c ≠ '\\' ∧ c ≠ '\n') : Piece [c] c
  | letter {letter c : Char} (hescape : LetterEscape letter c) : Piece ['\\', letter] c
  | code {first second third fourth : Char} {a b c d : Nat} (hfirst : HexDigit first a)
      (hsecond : HexDigit second b) (hthird : HexDigit third c) (hfourth : HexDigit fourth d) :
      Piece ['\\', 'u', first, second, third, fourth]
        (codeChar (((a * 16 + b) * 16 + c) * 16 + d))

/-- What may stand between the quotes of a string, and the characters it denotes. -/
inductive Body : List Char → List Char → Prop
  | nil : Body [] []
  | cons {piece run content : List Char} {c : Char} (hpiece : Piece piece c)
      (hrest : Body run content) : Body (piece ++ run) (c :: content)

/-- The phrases of the grammar, with what they stand for. -/
inductive Phrase where
  | value (value : Value)
  /-- A value with blanks around it. -/
  | element (value : Value)
  /-- Elements with commas between them, one at least. -/
  | elements (values : List Value)
  /-- The key and the value of an object's member. -/
  | member (key : String) (value : Value)
  /-- Members with commas between them, one at least. -/
  | members (entries : List (String × Value))

/-- The runs of characters that the grammar produces for a phrase. -/
inductive Produces : Phrase → List Char → Prop
  | null : Produces (.value .empty) "null".toList
  | true : Produces (.value (.bool true)) "true".toList
  | false : Produces (.value (.bool false)) "false".toList
  | number {numeral : List Char} (hnumeral : Numeral numeral) :
      Produces (.value (numberValue numeral)) numeral
  | string {run content : List Char} (hbody : Body run content) :
      Produces (.value (.text (String.ofList content))) ('"' :: (run ++ ['"']))
  | emptyArray {gap : List Char} (hgap : Blank gap) :
      Produces (.value (.list [])) ('[' :: (gap ++ [']']))
  | array {gap run : List Char} {values : List Value} (hgap : Blank gap)
      (helements : Produces (.elements values) run) :
      Produces (.value (.list values)) ('[' :: (gap ++ (run ++ [']'])))
  | emptyObject {gap : List Char} (hgap : Blank gap) :
      Produces (.value (.map [])) ('\x7b' :: (gap ++ ['\x7d']))
  | object {gap run : List Char} {entries : List (String × Value)} (hgap : Blank gap)
      (hmembers : Produces (.members entries) run) :
      Produces (.value (.map entries)) ('\x7b' :: (gap ++ (run ++ ['\x7d'])))
  | element {before run after : List Char} {value : Value} (hbefore : Blank before)
      (hvalue : Produces (.value value) run) (hafter : Blank after) :
      Produces (.element value) (before ++ (run ++ after))
  | oneElement {run : List Char} {value : Value} (honly : Produces (.element value) run) :
      Produces (.elements [value]) run
  | moreElements {run further : List Char} {value : Value} {values : List Value}
      (hfirst : Produces (.element value) run) (hrest : Produces (.elements values) further) :
      Produces (.elements (value :: values)) (run ++ (',' :: further))
  | member {before key between run content : List Char} {value : Value}
      (hbefore : Blank before) (hkey : Body key content) (hbetween : Blank between)
      (helement : Produces (.element value) run) :
      Produces (.member (String.ofList content) value)
        (before ++ ('"' :: (key ++ ('"' :: (between ++ (':' :: run))))))
  | oneMember {run : List Char} {key : String} {value : Value}
      (honly : Produces (.member key value) run) : Produces (.members [(key, value)]) run
  | moreMembers {run further : List Char} {key : String} {value : Value}
      {entries : List (String × Value)} (hfirst : Produces (.member key value) run)
      (hrest : Produces (.members entries) further) :
      Produces (.members ((key, value) :: entries)) (run ++ (',' :: further))

end ScopedGrammar.Json
