/-!
# Kinds

A kind is the semantic type of a value. Fixed-width integers of every width
and signedness share one constructor, and a sort is enumerated exactly when it
lists its constructors. This file holds kinds, the sort each one is declared
with, the range of the fixed-width ones, and the order in which sets of kinds
are listed.
-/

namespace SmtDialogue

inductive Kind where
  | bool
  /-- Two's complement integers of a fixed number of bits. -/
  | bits (signed : Bool) (width : UInt32)
  /-- Mathematical integers. -/
  | integer
  /-- Algebraic reals. -/
  | real
  /-- IEEE 754 single precision. -/
  | float
  /-- IEEE 754 double precision. -/
  | double
  | string
  /-- Single characters, written as strings of length one. -/
  | char
  /-- A declared sort, enumerated when its constructors are listed. -/
  | sort (name : String) (constructors : Option (List String))
deriving DecidableEq, Inhabited

namespace Kind

/-- Unsigned integers of the given width. -/
abbrev word (width : UInt32) : Kind := .bits false width

/-- Signed integers of the given width. -/
abbrev int (width : UInt32) : Kind := .bits true width

def isBits : Kind → Bool
  | .bits _ _ => true
  | _ => false

/-- Fixed-width and mathematical integers. -/
def isIntegral : Kind → Bool
  | .bits _ _ | .integer => true
  | _ => false

def isFloating : Kind → Bool
  | .float | .double => true
  | _ => false

/-- The kinds an objective can be measured in. -/
def isNumeric : Kind → Bool
  | .bits _ _ | .integer | .real | .float | .double => true
  | _ => false

def isSigned : Kind → Bool
  | .bits signed _ => signed
  | _ => false

def isSort : Kind → Bool
  | .sort _ _ => true
  | _ => false

def width? : Kind → Option UInt32
  | .bits _ width => some width
  | _ => none

/-- A signed kind of width zero has no bit for a sign. Finding the place of that bit, one below
the width, overflows, and with it everything that needs the range of the kind: its bounds and
the making of its values. So the kind has no values. -/
def lacksSign : Kind → Bool
  | .bits true width => width = 0
  | _ => false

theorem lacksSign_iff {kind : Kind} : kind.lacksSign = true ↔ kind = .int 0 := by
  unfold lacksSign
  split <;> simp_all [int]

/-- The least and the greatest value of a fixed-width kind that has values. -/
def bounds? : Kind → Option (Int × Int)
  | .bits false width => some (0, (1 <<< width.toNat : Nat) - 1)
  | .bits true width =>
    if width = 0 then none
    else
      let half : Nat := 1 <<< (width.toNat - 1)
      some (-half, half - 1)
  | _ => none

/-- Position of the first constructor with this label in an enumerated sort. -/
def constructorIndex? (kind : Kind) (label : String) : Option Nat :=
  match kind with
  | .sort _ (some constructors) => constructors.findIdx? (· == label)
  | _ => none

/-- The sort that a constant of this kind is declared with. -/
def sortText : Kind → String
  | .bool => "Bool"
  | .bits _ width => "(_ BitVec " ++ toString width.toNat ++ ")"
  | .integer => "Int"
  | .real => "Real"
  | .float => "(_ FloatingPoint 8 24)"
  | .double => "(_ FloatingPoint 11 53)"
  | .string | .char => "String"
  | .sort name _ => name

/-- The name a kind is shown under. -/
def text : Kind → String
  | .bool => "Bool"
  | .bits true width => "Int" ++ toString width.toNat
  | .bits false width => "Word" ++ toString width.toNat
  | .integer => "Integer"
  | .real => "Real"
  | .float => "Float"
  | .double => "Double"
  | .string => "String"
  | .char => "Char"
  | .sort name _ => name

/-- The unique value of the range of a positive width that agrees with `i` modulo
`2 ^ width`. -/
def wrap (signed : Bool) (width : Nat) (i : Int) : Int :=
  if signed then i.bmod (1 <<< width) else i % (1 <<< width : Nat)

/-- Brings an integer into the range of a fixed-width kind; nothing when that overflows. -/
def wrap? (signed : Bool) (width : UInt32) (i : Int) : Option Int :=
  if (bits signed width).lacksSign then none else some (wrap signed width.toNat i)

theorem wrap?_eq_some {signed : Bool} {width : UInt32} {i j : Int} :
    wrap? signed width i = some j ↔
      (bits signed width).lacksSign = false ∧ wrap signed width.toNat i = j := by
  cases lacks : (bits signed width).lacksSign <;> simp [wrap?, lacks]

theorem wrap_wrap (signed : Bool) (width : Nat) (i : Int) :
    wrap signed width (wrap signed width i) = wrap signed width i := by
  cases signed <;> simp [wrap]

/-- Place of a kind among the families: truth values, fixed-width integers,
integers, reals, floats, strings, characters, declared sorts. -/
def rank : Kind → Nat
  | .bool => 0
  | .bits _ _ => 1
  | .integer => 2
  | .real => 3
  | .float => 4
  | .double => 5
  | .string => 6
  | .char => 7
  | .sort _ _ => 8

/-- Lexicographic order of constructor lists, a list before its extensions. -/
def compareLabels : List String → List String → Ordering
  | [], [] => .eq
  | [], _ :: _ => .lt
  | _ :: _, [] => .gt
  | a :: as, b :: bs => (compare a b).then (compareLabels as bs)

/-- Families by rank; unsigned before signed, then by width; sorts by name, then
plain before enumerated, then by constructors. -/
def compare : Kind → Kind → Ordering
  | .bits s w, .bits t v => (Ord.compare s t).then (Ord.compare w.toNat v.toNat)
  | .sort a none, .sort b none => Ord.compare a b
  | .sort a none, .sort b (some _) => (Ord.compare a b).then .lt
  | .sort a (some _), .sort b none => (Ord.compare a b).then .gt
  | .sort a (some as), .sort b (some bs) => (Ord.compare a b).then (compareLabels as bs)
  | a, b => Ord.compare a.rank b.rank

/-- Adds a kind to an ascending list without repetitions. -/
def insert (kind : Kind) : List Kind → List Kind
  | [] => [kind]
  | other :: rest =>
    match compare kind other with
    | .lt => kind :: other :: rest
    | .eq => other :: rest
    | .gt => other :: insert kind rest

/-- The distinct kinds of a list in ascending order. -/
def sorted (kinds : List Kind) : List Kind :=
  kinds.foldl (fun acc kind => insert kind acc) []

end Kind

end SmtDialogue
