import Mathlib.Data.Int.ModEq
import SmtDialogue.Proofs.Decoding
import SmtDialogue.Proofs.Entries

/-!
# Arithmetic modulo a power of two

A fixed-width kind keeps of an integer what is left of it modulo the range of the kind, and
brings the result of every operation back into the range. Sums, products and negatives
respect congruence, so a computation in such a kind ends with the one number within bounds
that is congruent to what the integers give. The literal of a number depends on the same
remainder.
-/

namespace SmtDialogue

namespace Kind

theorem wrap_modEq (signed : Bool) (width : Nat) (i : Int) :
    wrap signed width i ≡ i [ZMOD 2 ^ width] :=
  wrap_emod_pow signed width i

/-- Wrapping sees an integer only up to congruence. -/
theorem wrap_congr {signed : Bool} {width : Nat} {i j : Int} (same : i ≡ j [ZMOD 2 ^ width]) :
    wrap signed width i = wrap signed width j := by
  have remainder : i % (1 <<< width : Nat) = j % (1 <<< width : Nat) := by
    rw [cast_one_shiftLeft]
    exact same
  rw [← wrap_emod, remainder, wrap_emod]

theorem wrap_eq_wrap_iff (signed : Bool) {width : Nat} {i j : Int} :
    wrap signed width i = wrap signed width j ↔ i ≡ j [ZMOD 2 ^ width] := by
  refine ⟨fun same => ?_, wrap_congr⟩
  calc i ≡ wrap signed width i [ZMOD 2 ^ width] := (wrap_modEq signed width i).symm
    _ ≡ j [ZMOD 2 ^ width] := same ▸ wrap_modEq signed width j

/-- What is left of an integer is the one number within bounds that is congruent to it. -/
theorem wrap_eq_iff {signed : Bool} {width : UInt32} (positive : 0 < width) {low high i j : Int}
    (range : (bits signed width).bounds? = some (low, high)) :
    wrap signed width.toNat i = j ↔ low ≤ j ∧ j ≤ high ∧ j ≡ i [ZMOD 2 ^ width.toNat] := by
  constructor
  · rintro rfl
    obtain ⟨above, below⟩ := (wrap_eq_self_iff positive range).mp (wrap_wrap _ _ _)
    exact ⟨above, below, wrap_modEq _ _ _⟩
  · rintro ⟨above, below, same⟩
    calc wrap signed width.toNat i = wrap signed width.toNat j := wrap_congr same.symm
      _ = j := (wrap_eq_self_iff positive range).mpr ⟨above, below⟩

end Kind

namespace Literal

/-- Two integers share a literal exactly when they are congruent. -/
theorem bits_eq_bits_iff {i j : Int} {width : UInt32} :
    bits i width.toNat = bits j width.toNat ↔ i ≡ j [ZMOD 2 ^ width.toNat] := by
  constructor
  · intro same
    exact (denotes_bits i width).unique (same ▸ denotes_bits j width)
  · intro same
    have remainder : i % (1 <<< width.toNat : Nat) = j % (1 <<< width.toNat : Nat) := by
      rw [Kind.cast_one_shiftLeft]
      exact same
    simp only [bits, remainder]

end Literal

namespace Value

variable {signed : Bool} {width : UInt32} (sized : (Kind.bits signed width).lacksSign = false)

theorem ofPayload?_bits (i : Int) :
    ofPayload? (.bits signed width) (.integer i) = some (ofBits signed width i sized) :=
  ofPayload?_eq_some.mpr ⟨rfl, by simp [Payload.normalize?, Kind.wrap?, sized, ofBits]⟩

theorem integer?_ofBits (i : Int) :
    (ofBits signed width i sized).integer? = some (Kind.wrap signed width.toNat i) :=
  rfl

/-- The values of two integers are the same exactly when the integers are congruent. -/
theorem ofBits_eq_ofBits_iff {i j : Int} :
    ofBits signed width i sized = ofBits signed width j sized ↔ i ≡ j [ZMOD 2 ^ width.toNat] := by
  rw [← Kind.wrap_eq_wrap_iff signed]
  constructor
  · intro same
    simpa [integer?_ofBits] using congrArg integer? same
  · intro same
    simp only [ofBits, same]

/-- Computing with what is left of integers gives what is left of the result. -/
theorem add?_ofBits (i j : Int) :
    (ofBits signed width i sized).add? (ofBits signed width j sized) =
      some (ofBits signed width (i + j) sized) := by
  have computed : (ofBits signed width i sized).add? (ofBits signed width j sized) =
      some (ofBits signed width
        (Kind.wrap signed width.toNat i + Kind.wrap signed width.toNat j) sized) :=
    (if_pos rfl).trans (ofPayload?_bits sized _)
  rw [computed, (ofBits_eq_ofBits_iff sized).mpr]
  exact (Kind.wrap_modEq _ _ i).add (Kind.wrap_modEq _ _ j)

theorem mul?_ofBits (i j : Int) :
    (ofBits signed width i sized).mul? (ofBits signed width j sized) =
      some (ofBits signed width (i * j) sized) := by
  have computed : (ofBits signed width i sized).mul? (ofBits signed width j sized) =
      some (ofBits signed width
        (Kind.wrap signed width.toNat i * Kind.wrap signed width.toNat j) sized) :=
    (if_pos rfl).trans (ofPayload?_bits sized _)
  rw [computed, (ofBits_eq_ofBits_iff sized).mpr]
  exact (Kind.wrap_modEq _ _ i).mul (Kind.wrap_modEq _ _ j)

theorem neg?_ofBits (i : Int) :
    (ofBits signed width i sized).neg? = some (ofBits signed width (-i) sized) := by
  have computed : (ofBits signed width i sized).neg? =
      some (ofBits signed width (-Kind.wrap signed width.toNat i) sized) :=
    ofPayload?_bits sized _
  rw [computed, (ofBits_eq_ofBits_iff sized).mpr]
  exact (Kind.wrap_modEq _ _ i).neg

end Value

/-- An operation on a number, with the integer its operand is made from. -/
inductive Calculation where
  | add (operand : Int)
  | mul (operand : Int)
  | neg

namespace Calculation

/-- The operation on the integers. -/
def exact : Calculation → Int → Int
  | .add operand, i => i + operand
  | .mul operand, i => i * operand
  | .neg, i => -i

/-- The operation on the values of a kind, with the operand as a value of the kind. -/
def onValue? (kind : Kind) : Calculation → Value → Option Value
  | .add operand, v => do v.add? (← Value.ofPayload? kind (.integer operand))
  | .mul operand, v => do v.mul? (← Value.ofPayload? kind (.integer operand))
  | .neg, v => v.neg?

/-- The operations one after the other on the integers. -/
def runExact (steps : List Calculation) (start : Int) : Int :=
  steps.foldl (fun i step => step.exact i) start

/-- The operations one after the other in a kind; nothing when one of them gives nothing. -/
def run? (kind : Kind) (steps : List Calculation) (start : Int) : Option Value := do
  let first ← Value.ofPayload? kind (.integer start)
  steps.foldlM (fun v step => step.onValue? kind v) first

section

variable {signed : Bool} {width : UInt32} (sized : (Kind.bits signed width).lacksSign = false)

theorem onValue?_ofBits (step : Calculation) (i : Int) :
    step.onValue? (.bits signed width) (.ofBits signed width i sized) =
      some (.ofBits signed width (step.exact i) sized) := by
  cases step with
  | add operand =>
    simp only [onValue?, exact, Value.ofPayload?_bits sized, Option.bind_eq_bind, Option.bind_some,
      Value.add?_ofBits]
  | mul operand =>
    simp only [onValue?, exact, Value.ofPayload?_bits sized, Option.bind_eq_bind, Option.bind_some,
      Value.mul?_ofBits]
  | neg => exact Value.neg?_ofBits sized i

theorem foldlM_onValue? (steps : List Calculation) (i : Int) :
    steps.foldlM (fun v step => step.onValue? (.bits signed width) v)
        (.ofBits signed width i sized) =
      some (.ofBits signed width (runExact steps i) sized) := by
  induction steps generalizing i with
  | nil => rfl
  | cons step steps ih =>
    rw [List.foldlM_cons, onValue?_ofBits, Option.bind_eq_bind, Option.bind_some, ih]
    rfl

theorem run?_bits (steps : List Calculation) (start : Int) :
    run? (.bits signed width) steps start =
      some (.ofBits signed width (runExact steps start) sized) := by
  rw [run?, Value.ofPayload?_bits sized, Option.bind_eq_bind, Option.bind_some, foldlM_onValue?]

end

end Calculation

/-- A computation in a fixed-width kind of at least one bit always has a result, and its
integer is the one number within the bounds of the kind that is congruent to the result on
the integers. Two integers have the same literal exactly when they are congruent, and
exactly when the kind keeps the same for both. -/
theorem Calculation.run?_modEq {signed : Bool} {width : UInt32} (positive : 0 < width) :
    (∃ low high, (Kind.bits signed width).bounds? = some (low, high) ∧
      ∀ (start : Int) (steps : List Calculation),
        ∃ v, run? (.bits signed width) steps start = some v ∧ v.kind = .bits signed width ∧
          ∀ i, v.integer? = some i ↔
            low ≤ i ∧ i ≤ high ∧ i ≡ runExact steps start [ZMOD 2 ^ width.toNat]) ∧
    ∀ i j : Int,
      (Literal.bits i width.toNat = Literal.bits j width.toNat ↔
        i ≡ j [ZMOD 2 ^ width.toNat]) ∧
      (Literal.bits i width.toNat = Literal.bits j width.toNat ↔
        ∃ v w, Value.ofPayload? (.bits signed width) (.integer i) = some v ∧
          Value.ofPayload? (.bits signed width) (.integer j) = some w ∧
          v.payload = w.payload) := by
  have sized := Kind.sized_of_pos signed positive
  obtain ⟨low, high, range⟩ := Kind.exists_bounds signed positive
  refine ⟨⟨low, high, range, fun start steps =>
    ⟨_, run?_bits sized steps start, rfl, fun i => ?_⟩⟩,
    fun i j => ⟨Literal.bits_eq_bits_iff, ?_⟩⟩
  · rw [Value.integer?_ofBits, Option.some_inj]
    exact Kind.wrap_eq_iff positive range
  · rw [Literal.bits_eq_bits_iff, ← Kind.wrap_eq_wrap_iff signed]
    constructor
    · intro same
      exact ⟨_, _, Value.ofPayload?_bits sized i, Value.ofPayload?_bits sized j,
        congrArg Payload.integer same⟩
    · rintro ⟨v, w, first, second, same⟩
      cases (Value.ofPayload?_bits sized i).symm.trans first
      cases (Value.ofPayload?_bits sized j).symm.trans second
      exact Payload.integer.inj same

/-- In signed numbers of one bit, which are minus one and zero, the square of three is the
negative of one. -/
theorem Calculation.run?_modEq_oneBit :
    ∃ v, run? (.int 1) [.add 2, .mul 3] 1 = some v ∧ v.integer? = some (-1) ∧
      Literal.bits 9 1 = Literal.bits (-1) 1 := by
  obtain ⟨⟨low, high, range, computations⟩, literals⟩ := @run?_modEq true 1 (by decide)
  obtain ⟨v, computed, -, remainder⟩ := computations 1 [.add 2, .mul 3]
  cases range
  exact ⟨v, computed, (remainder (-1)).mpr (by decide), (literals 9 (-1)).1.mpr (by decide)⟩

end SmtDialogue
