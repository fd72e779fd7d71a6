import SmtDialogue.Kind
import SmtDialogue.AlgReal
import SmtDialogue.Ieee.Basic

/-!
# Values

A value is a payload together with the kind it inhabits. Fixed-width integers
are kept in the range of their kind, and a constructor of an enumerated sort
carries its position, so two values are the same exactly when kind and payload
are. Floating-point payloads are bit patterns: a NaN equals itself, and the two
zeros differ.
-/

namespace SmtDialogue

inductive Payload where
  | bool (b : Bool)
  | integer (i : Int)
  | real (r : AlgReal)
  | float (bits : BitVec 32)
  | double (bits : BitVec 64)
  | string (s : String)
  | char (c : Char)
  /-- An element of a declared sort; the index is its position among the
  constructors of an enumerated one. -/
  | element (index : Option Nat) (label : String)
deriving DecidableEq

namespace Payload

/-- Brings an integer into the range of a fixed-width kind; nothing when that overflows. -/
def normalize? (kind : Kind) (payload : Payload) : Option Payload :=
  match kind, payload with
  | .bits signed width, .integer i => (Kind.wrap? signed width i).map .integer
  | _, payload => some payload

/-- Whether a payload is one that values of the kind hold. -/
def fits (kind : Kind) (payload : Payload) : Bool :=
  match kind, payload with
  | .bool, .bool _ => true
  | .bits signed width, .integer i => Kind.wrap? signed width i = some i
  | .integer, .integer _ => true
  | .real, .real _ => true
  | .float, .float _ => true
  | .double, .double _ => true
  | .string, .string _ => true
  | .char, .char _ => true
  | .sort _ (some constructors), .element (some index) label => constructors[index]? = some label
  | .sort _ none, .element none _ => true
  | _, _ => false

end Payload

structure Value where
  kind : Kind
  payload : Payload
  fits : payload.fits kind = true
deriving DecidableEq

/-- Why a kind and a payload make no value. -/
inductive Misfit where
  /-- No value of the kind holds the payload. -/
  | mismatch (kind : Kind) (payload : Payload)
  /-- The range of the kind cannot be computed. -/
  | overflow

namespace Value

/-- A signed kind that has a value has a bit for the sign. -/
theorem sized (v : Value) : v.kind.lacksSign = false := by
  obtain ⟨kind, payload, fits⟩ := v
  cases kind with
  | bits signed width =>
    cases payload <;> simp [Payload.fits, Kind.wrap?] at fits
    exact fits.1
  | _ => rfl

/-- The value of a kind with the given payload. -/
def ofPayload (kind : Kind) (payload : Payload) : Except Misfit Value :=
  match payload.normalize? kind with
  | none => .error .overflow
  | some normal =>
    if h : normal.fits kind = true then .ok ⟨kind, normal, h⟩
    else .error (.mismatch kind payload)

/-- The value of a kind with the given payload, if there is one. -/
def ofPayload? (kind : Kind) (payload : Payload) : Option Value :=
  (ofPayload kind payload).toOption

/-- The values that can be made are those of the kind with the normal form of the payload. -/
theorem ofPayload_eq_ok {kind : Kind} {payload : Payload} {v : Value} :
    ofPayload kind payload = .ok v ↔ v.kind = kind ∧ payload.normalize? kind = some v.payload := by
  unfold ofPayload
  constructor
  · intro made
    split at made
    · cases made
    · next normal normalized =>
      split at made <;> cases made
      exact ⟨rfl, normalized⟩
  · rintro ⟨rfl, normalized⟩
    simp [normalized, v.fits]

theorem ofPayload?_eq_some {kind : Kind} {payload : Payload} {v : Value} :
    ofPayload? kind payload = some v ↔
      v.kind = kind ∧ payload.normalize? kind = some v.payload := by
  rw [← ofPayload_eq_ok, ofPayload?]
  cases ofPayload kind payload <;> simp [Except.toOption]

theorem kind_of_ofPayload_overflow {kind : Kind} {payload : Payload}
    (overflow : ofPayload kind payload = .error .overflow) : kind = .int 0 := by
  unfold ofPayload at overflow
  split at overflow
  · next none =>
    unfold Payload.normalize? at none
    split at none
    · next signed width i =>
      by_cases lacks : (Kind.bits signed width).lacksSign = true
      · exact Kind.lacksSign_iff.mp lacks
      · simp [Kind.wrap?, lacks] at none
    · cases none
  · split at overflow <;> cases overflow

/-- The element of a declared sort with this label. -/
def ofLabel (kind : Kind) (label : String) : Except Misfit Value :=
  ofPayload kind (.element (kind.constructorIndex? label) label)

def ofBool (b : Bool) : Value := ⟨.bool, .bool b, rfl⟩

def ofInteger (i : Int) : Value := ⟨.integer, .integer i, rfl⟩

def ofReal (r : AlgReal) : Value := ⟨.real, .real r, rfl⟩

/-- An integer modulo the range of a fixed-width kind that has values. -/
def ofBits (signed : Bool) (width : UInt32) (i : Int)
    (sized : (Kind.bits signed width).lacksSign = false := by rfl) : Value :=
  ⟨.bits signed width, .integer (Kind.wrap signed width.toNat i), by
    simp [Payload.fits, Kind.wrap?, sized, Kind.wrap_wrap]⟩

/-- An integer modulo the range of an unsigned kind, which has values at every width. -/
abbrev ofWord (width : UInt32) (i : Int) : Value := ofBits false width i

def bool? (v : Value) : Option Bool :=
  match v.payload with
  | .bool b => some b
  | _ => none

def integer? (v : Value) : Option Int :=
  match v.payload with
  | .integer i => some i
  | _ => none

def real? (v : Value) : Option AlgReal :=
  match v.payload with
  | .real r => some r
  | _ => none

/-- The value of a numeric kind that stands for an integer, if the kind has values. -/
def constant? (kind : Kind) (n : Int) : Option Value :=
  match kind with
  | .bits _ _ | .integer => ofPayload? kind (.integer n)
  | .real => ofPayload? kind (.real (.ofInt n))
  | .float => ofPayload? kind (.float (BitVec.ofNat 32 (Ieee.ofInt Ieee.single n)))
  | .double => ofPayload? kind (.double (BitVec.ofNat 64 (Ieee.ofInt Ieee.double n)))
  | _ => none

/-- How a numeric value compares with zero; nothing for other kinds, for a NaN
and for a root of a polynomial. -/
def signum? (v : Value) : Option Ordering :=
  match v.payload with
  | .integer i => some (compare i 0)
  | .real r => r.signum?
  | .float bits => Ieee.signum? Ieee.single bits.toNat
  | .double bits => Ieee.signum? Ieee.double bits.toNat
  | _ => none

def isZero (v : Value) : Bool :=
  v.signum? = some .eq

/-- Whether the value is known to be one; an approximation never is. -/
def isOne (v : Value) : Bool :=
  match v.payload with
  | .integer i => i = 1
  | .real (.exact q) => q = 1
  | .float bits => bits.toNat = Ieee.single.one
  | .double bits => bits.toNat = Ieee.double.one
  | _ => false

/-- The sum of two payloads of one kind. -/
def sum? : Payload → Payload → Option Payload
  | .integer a, .integer b => some (.integer (a + b))
  | .real a, .real b => (a.add? b).map .real
  | .float a, .float b => some (.float (BitVec.ofNat 32 (Ieee.add Ieee.single a.toNat b.toNat)))
  | .double a, .double b =>
    some (.double (BitVec.ofNat 64 (Ieee.add Ieee.double a.toNat b.toNat)))
  | _, _ => none

/-- The product of two payloads of one kind. -/
def product? : Payload → Payload → Option Payload
  | .integer a, .integer b => some (.integer (a * b))
  | .real a, .real b => (a.mul? b).map .real
  | .float a, .float b => some (.float (BitVec.ofNat 32 (Ieee.mul Ieee.single a.toNat b.toNat)))
  | .double a, .double b =>
    some (.double (BitVec.ofNat 64 (Ieee.mul Ieee.double a.toNat b.toNat)))
  | _, _ => none

def negation? : Payload → Option Payload
  | .integer i => some (.integer (-i))
  | .real r => r.neg?.map .real
  | .float bits => some (.float (BitVec.ofNat 32 (Ieee.neg Ieee.single bits.toNat)))
  | .double bits => some (.double (BitVec.ofNat 64 (Ieee.neg Ieee.double bits.toNat)))
  | _ => none

def add? (a b : Value) : Option Value :=
  if a.kind = b.kind then (sum? a.payload b.payload).bind (ofPayload? a.kind) else none

def mul? (a b : Value) : Option Value :=
  if a.kind = b.kind then (product? a.payload b.payload).bind (ofPayload? a.kind) else none

def neg? (v : Value) : Option Value :=
  (negation? v.payload).bind (ofPayload? v.kind)

end Value

end SmtDialogue
