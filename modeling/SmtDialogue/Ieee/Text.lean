import SmtDialogue.Ieee.Shortest

/-!
# The text of a word

A word is written with its shortest digits. Positional notation always shows a
fraction; very small and very large magnitudes are written with an exponent.
-/

namespace SmtDialogue.Ieee

/-- The exponents that are written positionally, both ends included. -/
structure Layout where
  least : Int
  greatest : Int

/-- From one ten-thousandth up to, but not including, ten to the sixteenth. -/
def layout : Layout := ⟨-4, 15⟩

/-- Digits with the point after the power zero of ten. -/
def positional (d : Decimal) : List Char :=
  if d.exponent < 0 then
    ['0', '.'] ++ List.replicate (-d.exponent - 1).toNat '0' ++ d.digits
  else
    let whole := d.exponent.toNat + 1
    let padded := d.digits ++ List.replicate (whole - d.digits.length) '0'
    let fraction := padded.drop whole
    padded.take whole ++ ['.'] ++ (if fraction.isEmpty then ['0'] else fraction)

/-- Digits with the point after the first one, and the power of ten behind. -/
def scientific (d : Decimal) : List Char :=
  let fraction := d.digits.drop 1
  d.digits.take 1 ++ (if fraction.isEmpty then [] else '.' :: fraction) ++
    ['e'] ++ (toString d.exponent).toList

def Decimal.text (d : Decimal) : List Char :=
  if layout.least ≤ d.exponent ∧ d.exponent ≤ layout.greatest then positional d
  else scientific d

def text (f : Format) (bits : Nat) : String :=
  let sign := if f.isNegative bits then "-" else ""
  match meaning f bits with
  | .nan => "NaN"
  | .infinite _ => sign ++ "inf"
  | .finite _ units =>
    if units = 0 then sign ++ "0.0"
    else sign ++ String.ofList (shortest (rounding f (f.unsigned bits))).text

end SmtDialogue.Ieee
