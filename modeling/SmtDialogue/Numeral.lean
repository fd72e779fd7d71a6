/-!
# Numerals

Digits in a base, what they are worth, and the numeral grammar of bit-vector
literals: an optional sign, then digits in which `_` may separate groups.
-/

namespace SmtDialogue.Numeral

/-- What a digit is worth; letters of either case continue after `9`. -/
def digitValue? (c : Char) : Option Nat :=
  if '0' ≤ c ∧ c ≤ '9' then some (c.toNat - '0'.toNat)
  else if 'a' ≤ c ∧ c ≤ 'z' then some (c.toNat - 'a'.toNat + 10)
  else if 'A' ≤ c ∧ c ≤ 'Z' then some (c.toNat - 'A'.toNat + 10)
  else none

/-- What a digit of the given base is worth. -/
def digit? (base : Nat) (c : Char) : Option Nat :=
  (digitValue? c).filter (· < base)

/-- The number written by digits, most significant first. -/
def value (base : Nat) (digits : List Nat) : Nat :=
  digits.foldl (fun acc d => acc * base + d) 0

def isDigit (c : Char) : Bool :=
  '0' ≤ c && c ≤ '9'

/-- One or more decimal digits. -/
def isDigits (cs : List Char) : Bool :=
  !cs.isEmpty && cs.all isDigit

/-- What a run of decimal digits is worth. -/
def decimal (cs : List Char) : Nat :=
  value 10 (cs.map fun c => c.toNat - '0'.toNat)

/-- Drops a plus sign that is not followed by another one. -/
def dropPlus : List Char → List Char
  | '+' :: '+' :: rest => '+' :: '+' :: rest
  | '+' :: rest => rest
  | cs => cs

/-- Reads an unsigned numeral. A separator may not come first. -/
def readNat? (base : Nat) (cs : List Char) : Option Nat :=
  match dropPlus cs with
  | [] => none
  | '_' :: _ => none
  | cs => ((cs.filter (· != '_')).mapM (digit? base)).map (value base)

/-- Reads a numeral with an optional minus sign, which no plus sign may follow. -/
def readInt? (base : Nat) : List Char → Option Int
  | '-' :: '+' :: _ => none
  | '-' :: rest => (readNat? base rest).map fun n => -(n : Int)
  | cs => (readNat? base cs).map Int.ofNat

/-- The digits of `n`, filled up with leading zeros to at least `width` of them. -/
def padded (base width n : Nat) : List Char :=
  let digits := Nat.toDigits base n
  List.replicate (width - digits.length) '0' ++ digits

/-- An integer as a term: a negative one is the negation of its magnitude. -/
def integerTerm (i : Int) : String :=
  if i < 0 then "(- " ++ toString i.natAbs ++ ")" else toString i.natAbs

end SmtDialogue.Numeral
