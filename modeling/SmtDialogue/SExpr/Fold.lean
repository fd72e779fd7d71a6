import SmtDialogue.SExpr.Basic

/-!
# Literals written as applications

Solvers write many values as applications: negative numbers, quotients, indexed
bit-vector literals, floating-point words field by field, special
floating-point words, and roots of polynomials. Folding turns such an
application into the atom it stands for and leaves any other one as it is.

Two computations on the way overflow: the significand of a floating-point word is
one bit longer than its fraction, and the coefficients of a polynomial have to fit
into one list. What follows an overflow is up to those who fold, and asks first
whether there is one.
-/

namespace SmtDialogue.SExpr

/-- The value of an integer atom, whatever its width. -/
def int? : SExpr → Option Int
  | .atom (.int value _) => some value
  | _ => none

/-- The value of an integer atom that is a natural number below `bound`. -/
def natBelow? (bound : Nat) (e : SExpr) : Option Nat :=
  match e.int? with
  | some i => if 0 ≤ i ∧ i < bound then some i.toNat else none
  | none => none

/-- An integer without a width, or an exact real. -/
def rational? : SExpr → Option Rat
  | .atom (.int value none) => some value
  | .atom (.real (.exact q)) => some q
  | _ => none

/-- A variable to a constant power. -/
def power? : List SExpr → Option Coefficients
  | [.atom (.symbol _), exponent] =>
    (natBelow? Coefficients.capacity exponent).map Coefficients.power
  | _ => none

/-- Whether a power has an exponent of a machine word, but too many coefficients. -/
def powerOverflows : List SExpr → Bool
  | [.atom (.symbol _), exponent] =>
    (natBelow? UInt64.size exponent).any (Coefficients.capacity ≤ ·)
  | _ => false

/-- What an operator of the polynomial language makes of its arguments. -/
def combine? (operator : String) (args : List Coefficients) : Option Coefficients :=
  if operator = "*" then
    if args.isEmpty then none else some (args.foldl Coefficients.mul [1])
  else if operator = "+" then some (args.foldl Coefficients.add [])
  else if operator = "-" then
    match args with
    | [] => none
    | [only] => some (only.scale (-1))
    | first :: rest => some (rest.foldl (fun acc p => acc.add (p.scale (-1))) first)
  else none

mutual

/-- Coefficients of a polynomial in one variable; any symbol is the variable. -/
def polynomial? : SExpr → Option Coefficients
  | .atom (.int value none) => some [value]
  | .atom (.symbol _) => some [0, 1]
  | .app (.atom (.symbol operator) :: args) =>
    if operator = "^" then power? args
    else (polynomials? args).bind (combine? operator)
  | _ => none

def polynomials? : List SExpr → Option (List Coefficients)
  | [] => some []
  | e :: rest =>
    match polynomial? e, polynomials? rest with
    | some p, some ps => some (p :: ps)
    | _, _ => none

end

mutual

/-- Whether reading a tree as a polynomial overflows. -/
def polynomialOverflows : SExpr → Bool
  | .app (.atom (.symbol operator) :: args) =>
    if operator = "^" then powerOverflows args
    else if operator = "*" then factorsOverflow [1] args
    else if operator = "+" ∨ operator = "-" then termsOverflow args
    else false
  | _ => false

/-- Terms are read in order, up to the first that is no polynomial. -/
def termsOverflow : List SExpr → Bool
  | [] => false
  | e :: rest => polynomialOverflows e || (polynomial? e).isSome && termsOverflow rest

/-- Factors are read in order as well, each multiplied with those before it. -/
def factorsOverflow (product : Coefficients) : List SExpr → Bool
  | [] => false
  | e :: rest =>
    polynomialOverflows e ||
      match polynomial? e with
      | some p =>
        Coefficients.capacity < (product.mul p).length || factorsOverflow (product.mul p) rest
      | none => false

end

/-- A number that is negated; a root of a polynomial is not. -/
def negation? : List SExpr → Option Atom
  | [.atom (.int value none)] => some (.int (-value) none)
  | [.atom (.real r)] => r.neg?.map .real
  | _ => none

/-- A quotient of rationals. -/
def quotient? : List SExpr → Option Atom
  | [n, d] =>
    match n.rational?, d.rational? with
    | some p, some q => if q = 0 then none else some (.real (.exact (p / q)))
    | _, _ => none
  | _ => none

/-- The literal `bvN` of a width; its value is not reduced. -/
def bitVector? (name : String) (size : SExpr) : Option Atom :=
  match name.toList with
  | 'b' :: 'v' :: digits =>
    match Numeral.readInt? 10 digits, natBelow? UInt32.size size with
    | some value, some width => some (.int value (some (UInt32.ofNat width)))
    | _, _ => none
  | _ => none

/-- The pattern of a special floating-point word. -/
def specialWord? (f : Ieee.Format) (name : String) : Option Nat :=
  if name = "+oo" then some f.infinity
  else if name = "-oo" then some (f.signed true f.infinity)
  else if name = "+zero" then some 0
  else if name = "-zero" then some (f.signed true 0)
  else if name = "NaN" then some f.quietNaN
  else none

/-- A special floating-point word at its precision. -/
def special? (name : String) (exponentBits significandBits : SExpr) : Option Atom :=
  match natBelow? UInt32.size exponentBits, natBelow? UInt32.size significandBits with
  | some 8, some 24 => (specialWord? Ieee.single name).map fun p => .float (BitVec.ofNat 32 p)
  | some 11, some 53 => (specialWord? Ieee.double name).map fun p => .double (BitVec.ofNat 64 p)
  | _, _ => none

/-- An application of the underscore to a symbol and its indices. -/
def indexed? : List SExpr → Option Atom
  | [.atom (.symbol name), size] => bitVector? name size
  | [.atom (.symbol name), exponentBits, significandBits] =>
    special? name exponentBits significandBits
  | _ => none

/-- Three fields shifted into their places and joined; what overflows is lost. -/
def joinFields (exponentShift signShift : Nat) (sign exponent fraction : Nat) : BitVec 64 :=
  (BitVec.ofNat 64 sign <<< signShift) ||| (BitVec.ofNat 64 exponent <<< exponentShift) |||
    BitVec.ofNat 64 fraction

/-- Whether three fields are machine words. -/
def areFields (sign exponent fraction : Int) : Bool :=
  [sign, exponent, fraction].all fun i => 0 ≤ i ∧ i < UInt64.size

/-- A floating-point word given by three bit-vector literals. -/
def fields? : List SExpr → Option Atom
  | [.atom (.int sign (some 1)), .atom (.int exponent (some exponentBits)),
      .atom (.int fraction (some fractionBits))] =>
    if areFields sign exponent fraction then
      let join (exponentShift signShift : Nat) : BitVec 64 :=
        joinFields exponentShift signShift sign.toNat exponent.toNat fraction.toNat
      if exponentBits = 8 ∧ fractionBits = 23 then some (.float ((join 23 31).setWidth 32))
      else if exponentBits = 11 ∧ fractionBits = 52 then some (.double (join 52 63))
      else none
    else none
  | _ => none

/-- Whether the length of the significand overflows. It is only asked for when the fields are
machine words. -/
def fieldsOverflow : List SExpr → Bool
  | [.atom (.int sign (some 1)), .atom (.int exponent (some _)),
      .atom (.int fraction (some fractionBits))] =>
    areFields sign exponent fraction && UInt32.size ≤ fractionBits.toNat + 1
  | _ => false

/-- A root of a polynomial. One with too many coefficients does not get here. -/
def root? : List SExpr → Option Atom
  | [p, index] =>
    match polynomial? p, natBelow? UInt32.size index with
    | some coefficients, some n =>
      if stored : coefficients.length ≤ Coefficients.capacity then
        some (.real (.root ⟨coefficients, stored⟩ (UInt32.ofNat n)))
      else none
    | _, _ => none
  | _ => none

/-- The polynomial is read whether or not the index is one. -/
def rootOverflows : List SExpr → Bool
  | [p, _] => polynomialOverflows p
  | _ => false

/-- The atom that an operator and its arguments stand for. -/
def literal? (operator : String) (args : List SExpr) : Option Atom :=
  if operator = "-" then negation? args
  else if operator = "/" then quotient? args
  else if operator = "_" then indexed? args
  else if operator = "fp" then fields? args
  else if operator = "root-obj" then root? args
  else none

/-- Whether folding an application with these items overflows. -/
def foldOverflows : List SExpr → Bool
  | .atom (.symbol operator) :: args =>
    if operator = "fp" then fieldsOverflow args
    else if operator = "root-obj" then rootOverflows args
    else false
  | _ => false

/-- The tree of an application with these items. -/
def fold (items : List SExpr) : SExpr :=
  match items with
  | .atom (.symbol operator) :: args =>
    match literal? operator args with
    | some a => .atom a
    | none => .app items
  | _ => .app items

/-- Folds an application whose items may have changed. -/
def refold : SExpr → SExpr
  | .app items => fold items
  | e => e

mutual

/-- Whether a tree holds an application whose folding overflows. No tree that was read does. -/
def overflows : SExpr → Bool
  | .atom _ => false
  | .app items => foldOverflows items || overflowsAny items

def overflowsAny : List SExpr → Bool
  | [] => false
  | e :: rest => overflows e || overflowsAny rest

end

end SmtDialogue.SExpr
