/-
# Quoted text

Texts and characters appear in messages and in printed trees between quotes. The null
character, the tab, the newline, the carriage return, the backslash and the quote in use
are written with a backslash; every other character that is not shown as it is becomes
its code point in hexadecimal, between braces.
-/

import ScopedGrammar.Text.Printable

namespace ScopedGrammar.Text

/-- A code point in lower case hexadecimal, without leading zeros. -/
def hexadecimal (code : Nat) : List Char :=
  Nat.toDigits 16 code

/-- One character inside quotes. The predicate names the quotes that need a backslash. -/
def escape (isQuote : Char → Bool) (c : Char) : List Char :=
  if c = '\x00' then ['\\', '0']
  else if c = '\t' then ['\\', 't']
  else if c = '\n' then ['\\', 'n']
  else if c = '\r' then ['\\', 'r']
  else if c = '\\' then ['\\', '\\']
  else if isQuote c then ['\\', c]
  else if isShown c then [c]
  else ['\\', 'u', '\x7b'] ++ hexadecimal c.toNat ++ ['\x7d']

/-- A text between double quotes. -/
def quote (text : String) : String :=
  String.ofList (['"'] ++ text.toList.flatMap (escape (· == '"')) ++ ['"'])

/-- A character between single quotes. -/
def quoteChar (c : Char) : String :=
  String.ofList (['\''] ++ escape (· == '\'') c ++ ['\''])

/-- A character inside the brackets of a character class, where both quotes are written
with a backslash. -/
def escapeMember (c : Char) : List Char :=
  escape (fun d => d == '"' || d == '\'') c

end ScopedGrammar.Text
