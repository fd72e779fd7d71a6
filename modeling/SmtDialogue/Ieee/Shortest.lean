import SmtDialogue.Ieee.Basic

/-!
# The shortest decimal of a word

Every finite word stands for an interval of reals that round to it, its ends
included exactly when its significand is even. The shortest decimal of the word
is the one with the fewest digits inside the interval, of those the nearest to
the word, and of two equally near the greater. On the decimal grid with a given
number of digits only the two neighbours of the word need to be tried: when any
point of a grid lies in the interval, one of them does.
-/

namespace SmtDialogue.Ieee

/-- The reals that round to a word, over one denominator. -/
structure Rounding where
  low : Nat
  value : Nat
  high : Nat
  denominator : Nat
  closed : Bool

/-- The interval of a positive finite pattern. Each end is half way to the
neighbour, and below a power of two the neighbour is half as far. -/
def rounding (f : Format) (pattern : Nat) : Rounding :=
  let e := pattern / f.exponentWeight
  let m := pattern % f.exponentWeight
  let significand := if e = 0 then m else f.exponentWeight + m
  let scale := 1 <<< (e - 1)
  let below := if m = 0 ∧ 1 < e then 1 else 2
  { low := (4 * significand - below) * scale
    value := 4 * significand * scale
    high := (4 * significand + 2) * scale
    denominator := 1 <<< (f.unitExponent + 2)
    closed := significand % 2 = 0 }

/-- A decimal: the first digit stands at the power `exponent` of ten. -/
structure Decimal where
  digits : List Char
  exponent : Int
deriving DecidableEq

/-- The number `k` for which the value lies between `10 ^ (k - 1)` and `10 ^ k`,
the former included. -/
def Rounding.magnitude (r : Rounding) : Int :=
  if r.denominator ≤ r.value then
    ((Nat.toDigits 10 (r.value / r.denominator)).length : Int)
  else
    1 - ((Nat.toDigits 10 ((r.denominator - 1) / r.value)).length : Int)

/-- The neighbour of the value that is chosen on the grid of `n` digits, if one
of them lies in the interval. -/
def Rounding.onGrid? (r : Rounding) (n : Nat) : Option Nat :=
  let shift := r.magnitude - n
  let up := Nat.pow 10 (-shift).toNat
  let unit := r.denominator * Nat.pow 10 shift.toNat
  let below := r.value * up / unit
  let low := r.low * up
  let high := r.high * up
  let belowHits := if r.closed then low ≤ below * unit else low < below * unit
  let aboveHits := if r.closed then (below + 1) * unit ≤ high else (below + 1) * unit < high
  if belowHits ∧ aboveHits then
    some (if 2 * (r.value * up) < (2 * below + 1) * unit then below else below + 1)
  else if belowHits then some below
  else if aboveHits then some (below + 1)
  else none

/-- The decimal of a grid point, without zeros at its end. -/
def Rounding.decimal (r : Rounding) (n point : Nat) : Decimal :=
  let digits := Nat.toDigits 10 point
  { digits := (digits.reverse.dropWhile (· == '0')).reverse
    exponent := digits.length - 1 + (r.magnitude - n) }

/-- The first grid with a hit; seventeen digits always suffice. -/
def shortest (r : Rounding) : Decimal :=
  match (List.range' 1 17).findSome? fun n => (r.onGrid? n).map (r.decimal n) with
  | some d => d
  | none => r.decimal 17 (r.value * Nat.pow 10 (17 - r.magnitude).toNat / r.denominator)

end SmtDialogue.Ieee
