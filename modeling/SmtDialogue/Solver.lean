/-!
# Solvers

What a solver can do, the features a query can need of it in the order they are
checked, and the solvers whose abilities are known by name.
-/

namespace SmtDialogue

inductive Feature where
  | integers
  | reals
  | floats
  | quantifiers
  | sorts
  | optimization
deriving DecidableEq

def Feature.text : Feature → String
  | .integers => "unbounded integers"
  | .reals => "algebraic reals"
  | .floats => "floating-point numbers"
  | .quantifiers => "quantifiers"
  | .sorts => "uninterpreted sorts"
  | .optimization => "optimization routines"

/-- The features a solver declares, and the name it is shown under. Truth values
and fixed-width integers need no feature. -/
structure Capabilities where
  name : String
  integers : Bool
  reals : Bool
  floats : Bool
  quantifiers : Bool
  sorts : Bool
  optimization : Bool
deriving DecidableEq

namespace Capabilities

/-- A solver without optional features. -/
def minimal (name : String) : Capabilities :=
  ⟨name, false, false, false, false, false, false⟩

/-- A solver with every feature. -/
def full (name : String) : Capabilities :=
  ⟨name, true, true, true, true, true, true⟩

def supports (c : Capabilities) : Feature → Bool
  | .integers => c.integers
  | .reals => c.reals
  | .floats => c.floats
  | .quantifiers => c.quantifiers
  | .sorts => c.sorts
  | .optimization => c.optimization

end Capabilities

/-- The solvers known by name. -/
inductive Preset where
  | z3
  | cvc4
  | cvc5
  | yices
  | boolector
  | mathsat
  | abc
deriving DecidableEq

namespace Preset

def all : List Preset := [.z3, .cvc4, .cvc5, .yices, .boolector, .mathsat, .abc]

/-- The name used in configurations. -/
def key : Preset → String
  | .z3 => "z3"
  | .cvc4 => "cvc4"
  | .cvc5 => "cvc5"
  | .yices => "yices"
  | .boolector => "boolector"
  | .mathsat => "mathsat"
  | .abc => "abc"

/-- The name shown to a person. -/
def text : Preset → String
  | .z3 => "Z3"
  | .cvc4 => "CVC4"
  | .cvc5 => "cvc5"
  | .yices => "Yices"
  | .boolector => "Boolector"
  | .mathsat => "MathSAT"
  | .abc => "ABC"

def ofKey? (key : String) : Option Preset :=
  all.find? fun p => p.key = key

/-- Only Z3 optimizes; Boolector and ABC know truth values and fixed-width integers. -/
def capabilities (p : Preset) : Capabilities :=
  match p with
  | .z3 => Capabilities.full p.text
  | .cvc4 | .cvc5 => { Capabilities.full p.text with optimization := false }
  | .yices => { Capabilities.minimal p.text with integers := true, reals := true, sorts := true }
  | .mathsat =>
    { Capabilities.minimal p.text with
      integers := true, reals := true, floats := true, sorts := true }
  | .boolector | .abc => Capabilities.minimal p.text

end Preset

end SmtDialogue
