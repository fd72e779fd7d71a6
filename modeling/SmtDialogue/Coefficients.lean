import SmtDialogue.Numeral

/-!
# Polynomials by their coefficients

A polynomial in one variable is the list of its integer coefficients, the
constant first; zeros at the end are allowed. This file holds the arithmetic of
such lists, their value at a point, and their two texts: the term a solver reads
and the formula shown to a person.
-/

namespace SmtDialogue

abbrev Coefficients := List Int

namespace Coefficients

/-- The most coefficients that one list holds. A list of more takes up `2 ^ 63` bytes or more, at
`32` bytes for a coefficient, and asking for that many overflows. -/
def capacity : Nat := (1 <<< 58) - 1

/-- Coefficients that one list holds. -/
abbrev Stored := {p : Coefficients // p.length ≤ capacity}

def add : Coefficients → Coefficients → Coefficients
  | [], q => q
  | p, [] => p
  | a :: p, b :: q => (a + b) :: add p q

def scale (k : Int) (p : Coefficients) : Coefficients :=
  p.map (· * k)

/-- The product; multiplying by the empty list gives the empty list. -/
def mul : Coefficients → Coefficients → Coefficients
  | [], _ => []
  | [a], q => scale a q
  | a :: p, q => if q.isEmpty then [] else add (scale a q) (0 :: mul p q)

/-- The power of the variable with the given exponent. -/
def power (k : Nat) : Coefficients :=
  List.replicate k 0 ++ [1]

def eval {R : Type} [Zero R] [Add R] [Mul R] [IntCast R] (v : R) : Coefficients → R
  | [] => 0
  | a :: p => (a : R) + v * eval v p

/-- Degrees and coefficients of the terms that are not zero, highest first. -/
def terms (p : Coefficients) : List (Nat × Int) :=
  (p.zipIdx.map fun (c, degree) => (degree, c)).reverse.filter fun (_, c) => c ≠ 0

def termText (degree : Nat) (c : Int) : String :=
  match degree with
  | 0 => Numeral.integerTerm c
  | 1 => if c = 1 then "x" else "(* " ++ Numeral.integerTerm c ++ " x)"
  | k =>
    let monomial := "(^ x " ++ toString k ++ ")"
    if c = 1 then monomial else "(* " ++ Numeral.integerTerm c ++ " " ++ monomial ++ ")"

/-- The term a solver reads, a sum only when there are several terms. -/
def term (p : Coefficients) : String :=
  match p.terms.map fun (degree, c) => termText degree c with
  | [] => "0"
  | [only] => only
  | several => "(+ " ++ String.intercalate " " several ++ ")"

/-- The magnitude of a term, where a coefficient of one is left out. -/
def magnitudeText (degree : Nat) (c : Int) : String :=
  let coefficient := if degree = 0 ∨ c.natAbs ≠ 1 then toString c.natAbs else ""
  match degree with
  | 0 => coefficient
  | 1 => coefficient ++ "x"
  | k => coefficient ++ "x^" ++ toString k

/-- The formula shown to a person, with signs between the terms. -/
def formula (p : Coefficients) : String :=
  match p.terms with
  | [] => "0"
  | (degree, c) :: rest =>
    rest.foldl
      (fun text (degree, c) =>
        text ++ (if c < 0 then " - " else " + ") ++ magnitudeText degree c)
      ((if c < 0 then "-" else "") ++ magnitudeText degree c)

end Coefficients

end SmtDialogue
