/-
# The fewest digits that identify a binary number

A finite binary floating-point number owns an interval of reals, those that round to it.
Written in decimal, it gets the fewest digits whose value lies in that interval, and of
two such decimals the one closer to the number itself. The search runs over decimal
grids, from coarse to fine, in exact natural-number arithmetic: on each grid only the two
neighbours of the number can qualify.
-/

namespace ScopedGrammar.Decimal

/-- The decimal number `digits * 10 ^ exponent`. -/
structure Scaled where
  digits : Nat
  exponent : Int
  deriving DecidableEq

/-- Which neighbour wins when both are equally close. -/
inductive Tie where
  | even
  | up
  deriving DecidableEq

/-- How many fractions a binary exponent has: they fill 52 bits. -/
def fractionSpan : Nat :=
  0x10000000000000

/-- The reals that round to a positive binary number, together with the number: the
three fields count steps of `2 ^ unit`. The ends round to the number exactly when
`closed` holds. -/
structure RoundingInterval where
  low : Nat
  value : Nat
  high : Nat
  unit : Int
  closed : Bool

/-- The interval of the positive finite number with the given exponent and fraction
fields. Below a power of two the next number is half as far away as above it, except at
the bottom of the range, where all gaps are equal. -/
def RoundingInterval.ofFields (exponent fraction : Nat) : RoundingInterval :=
  let significand := if exponent = 0 then fraction else fraction + fractionSpan
  let narrowBelow := fraction = 0 ∧ 1 < exponent
  { low := if narrowBelow then 4 * significand - 1 else 4 * significand - 2
    value := 4 * significand
    high := 4 * significand + 2
    unit := (if exponent = 0 then 1 else exponent : Int) - 1077
    closed := significand % 2 = 0 }

/-- Whether a point, given in the interval's own steps, rounds to the number. -/
def RoundingInterval.holds (interval : RoundingInterval) (scale point : Nat) : Bool :=
  if interval.closed then interval.low * scale ≤ point && point ≤ interval.high * scale
  else interval.low * scale < point && point < interval.high * scale

/-- The point of the grid `10 ^ exponent` that identifies the number, if there is one.
Both sides are brought to a common unit, so that `step` is one step of the grid. -/
def RoundingInterval.onGrid (interval : RoundingInterval) (tie : Tie) (exponent : Int) :
    Option Scaled :=
  let scale := Nat.pow 2 interval.unit.toNat * Nat.pow 10 (-exponent).toNat
  let step := Nat.pow 10 exponent.toNat * Nat.pow 2 (-interval.unit).toNat
  let below := interval.value * scale / step
  let above := below + 1
  let belowHolds := interval.holds scale (below * step)
  let aboveHolds := interval.holds scale (above * step)
  let belowGap := interval.value * scale - below * step
  let aboveGap := above * step - interval.value * scale
  let takesBelow := belowGap < aboveGap ||
    (belowGap == aboveGap && tie == .even && below % 2 == 0)
  match belowHolds, aboveHolds with
  | true, true => some ⟨if takesBelow then below else above, exponent⟩
  | true, false => some ⟨below, exponent⟩
  | false, true => some ⟨above, exponent⟩
  | false, false => none

/-- The first grid with a hit, trying `tries` grids from the given one downwards. -/
def RoundingInterval.search (interval : RoundingInterval) (tie : Tie) :
    Nat → Int → Option Scaled
  | 0, _ => none
  | tries + 1, exponent =>
      match interval.onGrid tie exponent with
      | some found => some found
      | none => interval.search tie tries (exponent - 1)

/-- A grid coarser than the number: ten to this power exceeds the interval's upper end,
because a binary digit is worth less than 0.302 decimal digits. -/
def RoundingInterval.coarse (interval : RoundingInterval) : Int :=
  (((interval.high.log2 : Int) + 1 + interval.unit) * 302) / 1000 + 2

/-- The fewest digits that identify a positive finite number. Seventeen digits always
do, so the search ends well within its number of tries; the number zero stands for the
case that cannot arise. -/
def shortest (tie : Tie) (exponent fraction : Nat) : Scaled :=
  let interval := RoundingInterval.ofFields exponent fraction
  (interval.search tie 40 interval.coarse).getD ⟨0, 0⟩

end ScopedGrammar.Decimal
