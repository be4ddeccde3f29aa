/-
# Reading numerals

A whole numeral is a run of digits with an optional sign, and counts only if its value
fits a signed word of 64 bits. A fractional numeral may have a point, with digits missing
on one side of it, and an exponent; its value is the nearest floating-point number, ties
going to the even one, and infinity beyond the range.
-/

namespace ScopedGrammar.Decimal

/-- Whether a character is one of the ten decimal digits. -/
def isDigit (c : Char) : Bool :=
  '0' ≤ c && c ≤ '9'

/-- The natural number that a run of digits denotes. -/
def ofDigits (digits : List Char) : Nat :=
  digits.foldl (fun total c => 10 * total + (c.toNat - '0'.toNat)) 0

/-- The number of a numeral that holds one digit or more and nothing else. -/
def readNat? (numeral : List Char) : Option Nat :=
  if !numeral.isEmpty && numeral.all isDigit then some (ofDigits numeral) else none

/-- Splits an optional sign off a numeral; the first component tells a minus sign. -/
def splitSign : List Char → Bool × List Char
  | '-' :: rest => (true, rest)
  | '+' :: rest => (false, rest)
  | rest => (false, rest)

/-- The integer of a numeral with an optional sign. -/
def readInt? (numeral : List Char) : Option Int :=
  let (negative, digits) := splitSign numeral
  (readNat? digits).map fun n => if negative then -(n : Int) else n

/-- The least integer of a signed word. -/
def leastWord : Int :=
  -0x8000000000000000

/-- The greatest integer of a signed word. -/
def greatestWord : Int :=
  0x7FFFFFFFFFFFFFFF

/-- An integer as a signed word, if it fits. -/
def toWord? (n : Int) : Option Int64 :=
  if leastWord ≤ n ∧ n ≤ greatestWord then some (Int64.ofInt n) else none

/-- The signed word that a whole numeral denotes. -/
def readWord? (numeral : List Char) : Option Int64 :=
  (readInt? numeral).bind toWord?

/-- The floating-point number nearest to `digits * 10 ^ exponent`. Beyond the range of
the format no power is computed: with a leading digit past 10^310 the value is infinite,
and with one below 10^-330 it is zero. -/
def nearestFloat (digits : Nat) (exponent : Int) : Float :=
  let leading := exponent + (Nat.toDigits 10 digits).length
  if digits = 0 then Float.ofBits 0
  else if 310 < leading then Float.ofBits 0x7FF0000000000000
  else if leading < -330 then Float.ofBits 0
  else Float.ofScientific digits (exponent < 0) exponent.natAbs

/-- The floating-point number of a fractional numeral: an optional sign, digits with at
most one point among them and at least one digit in all, and optionally the letter e
with an exponent. -/
def readFloat? (numeral : List Char) : Option Float :=
  let (negative, unsigned) := splitSign numeral
  let mantissa := unsigned.takeWhile fun c => c != 'e' && c != 'E'
  let exponent? := match unsigned.dropWhile fun c => c != 'e' && c != 'E' with
    | [] => some 0
    | _ :: digits => readInt? digits
  let whole := mantissa.takeWhile (· != '.')
  let fraction := (mantissa.dropWhile (· != '.')).drop 1
  match readNat? (whole ++ fraction), exponent? with
  | some digits, some exponent =>
      let size := nearestFloat digits (exponent - fraction.length)
      some (if negative then -size else size)
  | _, _ => none

end ScopedGrammar.Decimal
