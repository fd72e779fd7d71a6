import SmtDialogue.Numeral

/-!
# Decimals

Numbers with a point or an exponent, as far as a configuration needs them: it holds
none, but one that no double can hold is a fault or is text.
-/

namespace SmtDialogue

/-- The digits of a number without a sign, and the power of ten of the last one. -/
structure Decimal where
  digits : List Char
  exponent : Int

namespace Decimal

/-- The exponent of a number: an optional sign and digits. -/
def exponent? : List Char → Option Int
  | '-' :: cs => if Numeral.isDigits cs then some (-(Numeral.decimal cs : Int)) else none
  | '+' :: cs => if Numeral.isDigits cs then some (Numeral.decimal cs) else none
  | cs => if Numeral.isDigits cs then some (Numeral.decimal cs) else none

/-- Digits with a point somewhere among them or none, and perhaps an exponent. -/
def ofChars? (cs : List Char) : Option Decimal :=
  let whole := cs.takeWhile Numeral.isDigit
  let pointed := cs.dropWhile Numeral.isDigit
  let tail := if pointed.head? = some '.' then pointed.drop 1 else []
  let fraction := tail.takeWhile Numeral.isDigit
  let rest := if pointed.head? = some '.' then tail.dropWhile Numeral.isDigit else pointed
  let digits := whole ++ fraction
  if digits.isEmpty then none
  else
    match rest with
    | [] => some ⟨digits, -(fraction.length : Int)⟩
    | c :: cs =>
      if c = 'e' || c = 'E' then
        (exponent? cs).map fun e => ⟨digits, e - (fraction.length : Int)⟩
      else none

/-- Whether a number rounds to a finite double. The least one that does not is half a
unit above the greatest double. -/
def isFinite (d : Decimal) : Bool :=
  let digits := d.digits.dropWhile (· = '0')
  let power := (digits.length : Int) + d.exponent
  digits.isEmpty || power ≤ 308 ||
    (power = 309 &&
      Numeral.decimal digits * Nat.pow 10 d.exponent.toNat <
        ((1 <<< 1024) - (1 <<< 970)) * Nat.pow 10 (-d.exponent).toNat)

end Decimal

end SmtDialogue
