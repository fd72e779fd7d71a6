import SmtDialogue.Coefficients

/-!
# Algebraic reals

Solvers report a real as a rational, as a decimal that approximates it, or as a
root of a polynomial. Arithmetic is defined where the result is known exactly.
-/

namespace SmtDialogue

inductive AlgReal where
  | exact (q : Rat)
  /-- A decimal near an irrational value. -/
  | approximate (q : Rat)
  /-- The root with this number, counted from one in ascending order. -/
  | root (coefficients : Coefficients.Stored) (index : UInt32)
deriving DecidableEq

namespace AlgReal

/-- A rational shown as a quotient, or as an integer when it is one. -/
def rationalText (q : Rat) : String :=
  if q.den = 1 then toString q.num else toString q.num ++ "/" ++ toString q.den

/-- A rational as a term: decimals for numerator and denominator, and a negative
one the negation of its magnitude. -/
def rationalTerm (q : Rat) : String :=
  let magnitude :=
    if q.den = 1 then toString q.num.natAbs ++ ".0"
    else "(/ " ++ toString q.num.natAbs ++ ".0 " ++ toString q.den ++ ".0)"
  if q.num < 0 then "(- " ++ magnitude ++ ")" else magnitude

def ofInt (i : Int) : AlgReal := .exact i

def isExact : AlgReal → Bool
  | .exact _ => true
  | _ => false

/-- The exact rational value, if there is one. -/
def rational? : AlgReal → Option Rat
  | .exact q => some q
  | _ => none

/-- The rational value, exact or approximate. -/
def approximation? : AlgReal → Option Rat
  | .exact q | .approximate q => some q
  | .root _ _ => none

/-- Negation; the negated root of a polynomial has another number. -/
def neg? : AlgReal → Option AlgReal
  | .exact q => some (.exact (-q))
  | .approximate q => some (.approximate (-q))
  | .root _ _ => none

def add? : AlgReal → AlgReal → Option AlgReal
  | .exact p, .exact q => some (.exact (p + q))
  | _, _ => none

def mul? : AlgReal → AlgReal → Option AlgReal
  | .exact p, .exact q => some (.exact (p * q))
  | _, _ => none

/-- How the value compares with zero, where no root needs to be isolated. -/
def signum? (r : AlgReal) : Option Ordering :=
  r.approximation?.map fun q => compare q.num 0

/-- The term a solver reads. An approximation is written as its rational. -/
def term : AlgReal → String
  | .exact q | .approximate q => rationalTerm q
  | .root coefficients index =>
    "(root-obj " ++ coefficients.val.term ++ " " ++ toString index.toNat ++ ")"

/-- The form shown to a person. -/
def text : AlgReal → String
  | .exact q => rationalText q
  | .approximate q => "~" ++ rationalText q
  | .root coefficients index =>
    "root(" ++ toString index.toNat ++ ", " ++ coefficients.val.formula ++ ")"

/-- Reads the digits around the point of a decimal. There is at least one before it. -/
def magnitude? (cs : List Char) : Option Rat :=
  let whole := cs.takeWhile (· != '.')
  let fraction := (cs.dropWhile (· != '.')).drop 1
  if Numeral.isDigits whole && fraction.all Numeral.isDigit then
    some (mkRat (Numeral.decimal (whole ++ fraction)) (Nat.pow 10 fraction.length))
  else none

/-- Reads a decimal with an optional minus sign. -/
def signed? : List Char → Option Rat
  | '-' :: rest => (magnitude? rest).map fun q => -q
  | cs => magnitude? cs

/-- Reads a decimal; a question mark at its end marks an approximation. -/
def ofDecimal? (cs : List Char) : Option AlgReal :=
  if cs.getLast? = some '?' then (signed? cs.dropLast).map .approximate
  else (signed? cs).map .exact

end AlgReal

end SmtDialogue
