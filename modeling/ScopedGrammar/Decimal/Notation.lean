/-
# How numbers are laid out

Choosing the digits of a number and laying them out are two decisions. The layout is one
record: where positional notation is used, whether a whole number shows a fraction, and
which digits win a tie. Two layouts are in use, one for plain text and one for JSON.
-/

import ScopedGrammar.Decimal.Shortest

namespace ScopedGrammar.Decimal

/-- The decisions of a number format. -/
structure Layout where
  /-- Which digits are taken when two decimals are equally close to the number. -/
  tie : Tie
  /-- The decimal exponents of the leading digit, from the first to below the second,
  that are written positionally; all of them if there is no range. -/
  positional : Option (Int × Int)
  /-- Whether a whole number in positional notation ends in a zero after the point. -/
  pointZero : Bool

/-- Numbers in plain text are always positional, and whole numbers have no point. -/
def Layout.plain : Layout where
  tie := .up
  positional := none
  pointZero := false

/-- Numbers in JSON text are positional for exponents from -5 up to 15 and then always
have a fraction; other numbers carry an exponent with an explicit sign. -/
def Layout.json : Layout where
  tie := .even
  positional := some (-5, 16)
  pointZero := true

/-- The decimal exponent of the leading digit. -/
def Scaled.leading (number : Scaled) : Int :=
  number.exponent + (Nat.toDigits 10 number.digits).length - 1

/-- The digits with a point at the place that the exponent asks for. -/
def Layout.positionally (layout : Layout) (number : Scaled) : List Char :=
  let digits := Nat.toDigits 10 number.digits
  let whole := if layout.pointZero then ['.', '0'] else []
  if 0 ≤ number.exponent then
    digits ++ List.replicate number.exponent.toNat '0' ++ whole
  else
    let places := (-number.exponent).toNat
    if places < digits.length then
      digits.take (digits.length - places) ++ ['.'] ++ digits.drop (digits.length - places)
    else
      ['0', '.'] ++ List.replicate (places - digits.length) '0' ++ digits

/-- The digits with a point after the first, followed by a signed exponent. -/
def Scaled.scientifically (number : Scaled) : List Char :=
  let digits := Nat.toDigits 10 number.digits
  let fraction := if digits.length ≤ 1 then [] else '.' :: digits.drop 1
  let sign := if number.leading < 0 then '-' else '+'
  digits.take 1 ++ fraction ++ ['e', sign] ++ Nat.toDigits 10 number.leading.natAbs

/-- A decimal number in the layout's notation. -/
def Layout.write (layout : Layout) (number : Scaled) : List Char :=
  match layout.positional with
  | none => layout.positionally number
  | some (first, past) =>
      if first ≤ number.leading ∧ number.leading < past then layout.positionally number
      else number.scientifically

/-- A floating-point number in the layout's notation, with the texts of the special
values. Zero keeps its sign. -/
def Layout.writeFloat (layout : Layout) (number : Float) : String :=
  let bits := number.toBits.toNat
  let exponent := bits / fractionSpan % 2048
  let fraction := bits % fractionSpan
  let sign := if bits / fractionSpan / 2048 = 1 then ['-'] else []
  if exponent = 2047 then
    if fraction = 0 then String.ofList (sign ++ ['i', 'n', 'f']) else "NaN"
  else if exponent = 0 ∧ fraction = 0 then
    String.ofList (sign ++ layout.write ⟨0, 0⟩)
  else
    String.ofList (sign ++ layout.write (shortest layout.tie exponent fraction))

end ScopedGrammar.Decimal
