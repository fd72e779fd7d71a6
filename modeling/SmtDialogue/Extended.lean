import SmtDialogue.Value.Text

/-!
# Extended values

Optimizing solvers report bounds in a domain wider than numbers: infinities, a
positive infinitesimal, intervals, and sums and products of these. All nodes of
one tree are meant to share a kind. Negation is arithmetic negation; simplifying
folds what can be computed and leaves the rest as it stands.
-/

namespace SmtDialogue

inductive Extended where
  | finite (v : Value)
  | posInfinity (kind : Kind)
  | negInfinity (kind : Kind)
  /-- A positive infinitesimal. -/
  | epsilon (kind : Kind)
  /-- A closed interval of possible values. -/
  | interval (low high : Extended)
  | sum (a b : Extended)
  | product (a b : Extended)
deriving DecidableEq

namespace Extended

/-- The kind of the leftmost leaf, which every node shares. -/
def kind : Extended → Kind
  | .finite v => v.kind
  | .posInfinity k | .negInfinity k | .epsilon k => k
  | .interval a _ | .sum a _ | .product a _ => a.kind

def finite? : Extended → Option Value
  | .finite v => some v
  | _ => none

def isFinite (e : Extended) : Bool :=
  e.finite?.isSome

def isInfinite : Extended → Bool
  | .posInfinity _ | .negInfinity _ => true
  | _ => false

/-- Minus one times a tree, where the kind has numbers. -/
def minusOneTimes (e : Extended) : Extended :=
  match Value.constant? e.kind (-1) with
  | some minusOne => .product (.finite minusOne) e
  | none => e

/-- Whether negation needs minus one at a kind whose range cannot be computed. -/
def negateOverflows : Extended → Bool
  | .epsilon k => k.lacksSign
  | .interval a b | .sum a b => a.negateOverflows || b.negateOverflows
  | .product a _ => a.negateOverflows
  | .finite _ | .posInfinity _ | .negInfinity _ => false

/-- Arithmetic negation, where it does not overflow: bounds of an interval change places, and
a product is negated in its first factor. -/
def negate : Extended → Extended
  | .posInfinity k => .negInfinity k
  | .negInfinity k => .posInfinity k
  | .finite v =>
    match v.neg? with
    | some w => .finite w
    | none => minusOneTimes (.finite v)
  | .epsilon k => minusOneTimes (.epsilon k)
  | .interval low high => .interval high.negate low.negate
  | .sum a b => .sum a.negate b.negate
  | .product a b => .product a.negate b

/-- A value or an infinitesimal, which vanishes beside an infinity. -/
def isAbsorbed : Extended → Bool
  | .finite _ | .epsilon _ => true
  | _ => false

/-- The sum of two simplified trees: numbers are added, a zero disappears, and an
infinity absorbs a number or an infinitesimal. -/
def simplifySum (a b : Extended) : Extended :=
  match a, b with
  | .finite x, .finite y =>
    match x.add? y with
    | some z => .finite z
    | none => .sum a b
  | .finite x, _ =>
    if x.isZero then b
    else if b.isInfinite then b
    else .sum a b
  | _, .finite y =>
    if y.isZero then a
    else if a.isInfinite then a
    else .sum a b
  | _, _ =>
    if a.isInfinite && b.isAbsorbed then a
    else if b.isInfinite && a.isAbsorbed then b
    else .sum a b

/-- An infinity times a number: its sign follows the number's, where that is known
and not zero. -/
def scaleInfinity (v : Value) (infinity : Extended) : Extended :=
  match v.signum? with
  | some .gt => infinity
  | some .lt => infinity.negate
  | _ => .product (.finite v) infinity

/-- The product of two simplified trees: numbers are multiplied, a one disappears,
and a number times an infinity is an infinity. -/
def simplifyProduct (a b : Extended) : Extended :=
  match a, b with
  | .finite x, .finite y =>
    match x.mul? y with
    | some z => .finite z
    | none => .product a b
  | .finite x, _ =>
    if x.isOne then b
    else if b.isInfinite then scaleInfinity x b
    else .product a b
  | _, .finite y =>
    if y.isOne then a
    else if a.isInfinite then scaleInfinity y a
    else .product a b
  | _, _ => .product a b

/-- Folds a tree from the leaves up. An interval with equal bounds is its bound. -/
def simplify : Extended → Extended
  | .interval low high =>
    let low := low.simplify
    let high := high.simplify
    if low = high then low else .interval low high
  | .sum a b => simplifySum a.simplify b.simplify
  | .product a b => simplifyProduct a.simplify b.simplify
  | leaf => leaf

/-- The form shown to a person. -/
def text : Extended → String
  | .finite v => v.text
  | .posInfinity _ => "oo"
  | .negInfinity _ => "-oo"
  | .epsilon _ => "epsilon"
  | .interval low high => "[" ++ low.text ++ " .. " ++ high.text ++ "]"
  | .sum a b => "(" ++ a.text ++ " + " ++ b.text ++ ")"
  | .product a b => "(" ++ a.text ++ " * " ++ b.text ++ ")"

end Extended

end SmtDialogue
