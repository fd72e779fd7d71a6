/-!
# IEEE 754 words

A binary interchange format is a number of exponent bits and a number of
fraction bits. A word of the format is held as its bit pattern, a natural
number. Every finite word is a whole number of units, the unit being the least
positive word, so decoding, sums, products and rounding are exact arithmetic on
natural numbers. This file does not fix the payload of a NaN that an operation
creates beyond its being quiet.
-/

namespace SmtDialogue.Ieee

structure Format where
  exponentBits : Nat
  fractionBits : Nat

def single : Format := ⟨8, 23⟩

def double : Format := ⟨11, 52⟩

namespace Format

/-- Weight of the sign bit. -/
def signWeight (f : Format) : Nat := 1 <<< (f.exponentBits + f.fractionBits)

/-- Weight of the lowest exponent bit, and of the leading bit of a significand. -/
def exponentWeight (f : Format) : Nat := 1 <<< f.fractionBits

/-- The pattern of positive infinity: all exponent bits, no fraction bit. -/
def infinity (f : Format) : Nat := ((1 <<< f.exponentBits) - 1) * f.exponentWeight

/-- A quiet NaN. -/
def quietNaN (f : Format) : Nat := f.infinity + (1 <<< (f.fractionBits - 1))

def bias (f : Format) : Nat := (1 <<< (f.exponentBits - 1)) - 1

/-- One is this power of two many units. -/
def unitExponent (f : Format) : Nat := f.bias + f.fractionBits - 1

/-- The pattern of one. -/
def one (f : Format) : Nat := f.bias * f.exponentWeight

def isNegative (f : Format) (bits : Nat) : Bool := bits / f.signWeight % 2 = 1

/-- The pattern without its sign bit. -/
def unsigned (f : Format) (bits : Nat) : Nat := bits % f.signWeight

def exponent (f : Format) (bits : Nat) : Nat := f.unsigned bits / f.exponentWeight

def fraction (f : Format) (bits : Nat) : Nat := bits % f.exponentWeight

def signed (f : Format) (negative : Bool) (pattern : Nat) : Nat :=
  if negative then f.signWeight + pattern else pattern

end Format

/-- What a word stands for; a finite magnitude is counted in units. -/
inductive Meaning where
  | nan
  | infinite (negative : Bool)
  | finite (negative : Bool) (units : Nat)
deriving DecidableEq

/-- The units of an unsigned finite pattern: subnormal words are their fraction,
normal words have a leading bit above it. -/
def unitsOf (f : Format) (pattern : Nat) : Nat :=
  let e := pattern / f.exponentWeight
  let m := pattern % f.exponentWeight
  if e = 0 then m else (f.exponentWeight + m) <<< (e - 1)

def meaning (f : Format) (bits : Nat) : Meaning :=
  let pattern := f.unsigned bits
  if pattern < f.infinity then .finite (f.isNegative bits) (unitsOf f pattern)
  else if pattern = f.infinity then .infinite (f.isNegative bits)
  else .nan

/-- `n / 2 ^ s` rounded to the nearest integer, a half to the even neighbour. -/
def halfEven (n s : Nat) : Nat :=
  let unit := 1 <<< s
  let q := n / unit
  let twice := 2 * (n % unit)
  if twice < unit then q
  else if twice = unit then q + q % 2
  else q + 1

/-- The unsigned pattern nearest to `n / 2 ^ k` units. All but the leading
`fractionBits + 1` bits are rounded away, and a magnitude beyond the greatest
finite word becomes infinite. Adding the rounded significand to the shifted
exponent carries into the exponent as it should. -/
def round (f : Format) (n k : Nat) : Nat :=
  let length := if n = 0 then 0 else n.log2 + 1
  let s := max k (length - (f.fractionBits + 1))
  min ((s - k) * f.exponentWeight + halfEven n s) f.infinity

def neg (f : Format) (bits : Nat) : Nat :=
  f.signed (!f.isNegative bits) (f.unsigned bits)

/-- The signed number of units of a finite word. -/
def signedUnits (negative : Bool) (units : Nat) : Int :=
  if negative then -(units : Int) else units

/-- The rounded sum. A sum of zero is negative only when both words are. -/
def add (f : Format) (a b : Nat) : Nat :=
  match meaning f a, meaning f b with
  | .nan, _ | _, .nan => f.quietNaN
  | .infinite s, .infinite t => if s = t then a else f.quietNaN
  | .infinite _, .finite _ _ => a
  | .finite _ _, .infinite _ => b
  | .finite s m, .finite t n =>
    let total := signedUnits s m + signedUnits t n
    if total = 0 then f.signed (s && t) 0
    else f.signed (total < 0) (round f total.natAbs 0)

/-- The rounded product, its sign the exclusive or of the signs. -/
def mul (f : Format) (a b : Nat) : Nat :=
  let negative := f.isNegative a != f.isNegative b
  match meaning f a, meaning f b with
  | .nan, _ | _, .nan => f.quietNaN
  | .infinite _, .infinite _ => f.signed negative f.infinity
  | .infinite _, .finite _ n => if n = 0 then f.quietNaN else f.signed negative f.infinity
  | .finite _ m, .infinite _ => if m = 0 then f.quietNaN else f.signed negative f.infinity
  | .finite _ m, .finite _ n => f.signed negative (round f (m * n) f.unitExponent)

/-- The word nearest to an integer. -/
def ofInt (f : Format) (i : Int) : Nat :=
  f.signed (i < 0) (round f (i.natAbs <<< f.unitExponent) 0)

/-- How a word compares with zero, nothing for a NaN. -/
def signum? (f : Format) (bits : Nat) : Option Ordering :=
  match meaning f bits with
  | .nan => none
  | .infinite negative => some (if negative then .lt else .gt)
  | .finite negative units =>
    some (if units = 0 then .eq else if negative then .lt else .gt)

/-- The three fields of a word put together. -/
def assemble (f : Format) (sign exponent fraction : Nat) : Nat :=
  sign * f.signWeight + exponent * f.exponentWeight + fraction

end SmtDialogue.Ieee
