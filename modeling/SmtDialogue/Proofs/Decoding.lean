import SmtDialogue.Proofs.Occurrences

/-!
# Numbers that are decoded

A fixed-width kind accepts integers and whole reals of any size, and literals of its own
width, whose value need not be a pattern of that width. What it makes of them is the number
modulo its range. So a number is decoded as itself exactly when it is within the bounds,
and a literal as the reading of its pattern exactly when it is one.
-/

namespace SmtDialogue

namespace Kind

/-- The number that a bit pattern stands for: itself, or its two's complement reading. -/
def reading (signed : Bool) {width : Nat} (pattern : BitVec width) : Int :=
  if signed then pattern.toInt else pattern.toNat

theorem wrap_toNat (signed : Bool) {width : Nat} (pattern : BitVec width) :
    wrap signed width pattern.toNat = reading signed pattern := by
  cases signed with
  | false =>
    have below : pattern.toNat % 1 <<< width = pattern.toNat :=
      Nat.mod_eq_of_lt (by rw [Nat.one_shiftLeft]; exact pattern.isLt)
    simp only [wrap, reading, Bool.false_eq_true, if_false]
    exact_mod_cast below
  | true =>
    rw [wrap, reading, if_pos rfl, if_pos rfl, Nat.one_shiftLeft, BitVec.toInt_eq_toNat_bmod]

/-- A kind with bits has one for the sign. -/
theorem sized_of_pos (signed : Bool) {width : UInt32} (positive : 0 < width) :
    (bits signed width).lacksSign = false := by
  have nonzero : width ≠ 0 := UInt32.pos_iff_ne_zero.mp positive
  cases signed <;> simp [lacksSign, nonzero]

/-- A number is its own remainder in a fixed-width kind exactly when it is within bounds. -/
theorem wrap_eq_self_iff {signed : Bool} {width : UInt32} (positive : 0 < width) {low high i : Int}
    (range : (bits signed width).bounds? = some (low, high)) :
    wrap signed width.toNat i = i ↔ low ≤ i ∧ i ≤ high := by
  constructor
  · intro kept
    obtain ⟨low', high', same, inside⟩ := bounds_of_wrap (sized_of_pos signed positive) kept
    cases range.symm.trans same
    exact inside
  · rintro ⟨above, below⟩
    cases signed with
    | false =>
      cases range
      simp only [wrap, Bool.false_eq_true, if_false]
      exact Int.emod_eq_of_lt above (by omega)
    | true =>
      rw [bounds?, if_neg (UInt32.pos_iff_ne_zero.mp positive)] at range
      cases range
      have bit : width.toNat - 1 + 1 = width.toNat :=
        Nat.sub_add_cancel (UInt32.lt_iff_toNat_lt.mp positive)
      have half : 1 <<< width.toNat = 2 * 1 <<< (width.toNat - 1) := by
        rw [Nat.one_shiftLeft, Nat.one_shiftLeft, ← Nat.pow_succ', Nat.succ_eq_add_one, bit]
      rw [wrap, if_pos rfl]
      exact Int.bmod_eq_of_le_mul_two (by omega) (by omega)

theorem exists_bounds (signed : Bool) {width : UInt32} (positive : 0 < width) :
    ∃ low high, (bits signed width).bounds? = some (low, high) := by
  cases signed with
  | false => exact ⟨_, _, rfl⟩
  | true => exact ⟨_, _, if_neg (UInt32.pos_iff_ne_zero.mp positive)⟩

end Kind

namespace Value

section

variable (signed : Bool) (width : UInt32)

/-- The literals that a fixed-width kind accepts, with the numbers in them. -/
inductive Carries : SExpr → Int → Prop
  | plain (n : Int) : Carries (.atom (.int n none)) n
  | sized (n : Int) : Carries (.atom (.int n (some width))) n
  | whole (q : Rat) (integral : q.den = 1) : Carries (.atom (.real (.exact q))) q.num

/-- The literals of the numbers of a fixed-width kind: a number within its bounds stands for
itself, and a pattern of its width for what it reads as. -/
inductive States : SExpr → Int → Prop
  | plain {low high n : Int} (range : (Kind.bits signed width).bounds? = some (low, high))
      (above : low ≤ n) (below : n ≤ high) : States (.atom (.int n none)) n
  | whole {low high : Int} {q : Rat} (range : (Kind.bits signed width).bounds? = some (low, high))
      (integral : q.den = 1) (above : low ≤ q.num) (below : q.num ≤ high) :
      States (.atom (.real (.exact q))) q.num
  | pattern (p : BitVec width.toNat) :
      States (.atom (.int p.toNat (some width))) (Kind.reading signed p)

/-- Whether the number in a literal is one of the kind: within the bounds, or a pattern. -/
def InRange : SExpr → Prop
  | .atom (.int n none) =>
    ∀ low high, (Kind.bits signed width).bounds? = some (low, high) → low ≤ n ∧ n ≤ high
  | .atom (.int n (some _)) => 0 ≤ n ∧ n < 2 ^ width.toNat
  | .atom (.real (.exact q)) =>
    ∀ low high, (Kind.bits signed width).bounds? = some (low, high) → low ≤ q.num ∧ q.num ≤ high
  | _ => True

end

section

variable {signed : Bool} {width : UInt32} {e : SExpr} {v : Value} {n : Int}

theorem decode_integer (sized : (Kind.bits signed width).lacksSign = false) {a : Atom}
    (read : payloadOfAtom (.bits signed width) a = .ok (.integer n)) :
    decode (.bits signed width) (.atom a) = .ok (.ofBits signed width n sized) := by
  have normal : Payload.normalize? (.bits signed width) (.integer n) =
      some (ofBits signed width n sized).payload := by
    simp [Payload.normalize?, Kind.wrap?, sized, ofBits]
  exact decode_atom (ofBits signed width n sized).fits read normal

/-- What a fixed-width kind accepts, it takes modulo its range. -/
theorem decode_bits_eq_ok (sized : (Kind.bits signed width).lacksSign = false) :
    decode (.bits signed width) e = .ok v ↔
      ∃ n, Carries width e n ∧ v = .ofBits signed width n sized := by
  constructor
  · intro decoded
    obtain ⟨a, rfl⟩ := exists_atom_of_decode decoded
    obtain ⟨payload, read, -⟩ := payload_of_decode decoded
    cases a with
    | int i literalWidth =>
      cases literalWidth with
      | none =>
        rw [decode_integer sized (n := i) rfl] at decoded
        cases decoded
        exact ⟨i, .plain i, rfl⟩
      | some w =>
        by_cases same : w = width
        · subst same
          rw [decode_integer sized (n := i) (by simp [payloadOfAtom])] at decoded
          cases decoded
          exact ⟨i, .sized i, rfl⟩
        · simp [payloadOfAtom, same] at read
    | real r =>
      cases r with
      | exact q =>
        by_cases integral : q.den = 1
        · have whole : payloadOfAtom (.bits signed width) (.real (.exact q)) =
              .ok (.integer q.num) := by
            simp [payloadOfAtom, whole, AlgReal.rational?, integral]
          rw [decode_integer sized whole] at decoded
          cases decoded
          exact ⟨q.num, .whole q integral, rfl⟩
        · simp [payloadOfAtom, whole, AlgReal.rational?, integral] at read
      | approximate q => cases read
      | root coefficients index => cases read
    | _ => cases read
  · rintro ⟨n, carried, rfl⟩
    cases carried with
    | plain => exact decode_integer sized rfl
    | sized => exact decode_integer sized (by simp [payloadOfAtom])
    | whole q integral =>
      exact decode_integer sized (by simp [payloadOfAtom, whole, AlgReal.rational?, integral])

/-- What a literal of a number of the kind carries wraps to that number. -/
theorem States.carries (positive : 0 < width) (stated : States signed width e n) :
    ∃ m, Carries width e m ∧ Kind.wrap signed width.toNat m = n := by
  cases stated with
  | plain range above below =>
    exact ⟨n, .plain n, (Kind.wrap_eq_self_iff positive range).mpr ⟨above, below⟩⟩
  | @whole low high q range integral above below =>
    exact ⟨q.num, .whole q integral, (Kind.wrap_eq_self_iff positive range).mpr ⟨above, below⟩⟩
  | pattern p => exact ⟨p.toNat, .sized _, Kind.wrap_toNat signed p⟩

/-- A literal stands for a number of the kind exactly when the number in it is one. -/
theorem exists_states_iff (positive : 0 < width) (carried : Carries width e n) :
    (∃ m, States signed width e m) ↔ InRange signed width e := by
  obtain ⟨low, high, range⟩ := Kind.exists_bounds signed positive
  cases carried with
  | plain =>
    constructor
    · rintro ⟨_, stated⟩ low' high' range'
      cases stated with
      | plain range above below =>
        cases range.symm.trans range'
        exact ⟨above, below⟩
    · intro inside
      obtain ⟨above, below⟩ := inside low high range
      exact ⟨_, .plain range above below⟩
  | whole q integral =>
    constructor
    · rintro ⟨_, stated⟩ low' high' range'
      cases stated with
      | whole range integral above below =>
        cases range.symm.trans range'
        exact ⟨above, below⟩
    · intro inside
      obtain ⟨above, below⟩ := inside low high range
      exact ⟨_, .whole range integral above below⟩
  | sized =>
    constructor
    · rintro ⟨_, stated⟩
      cases stated with
      | pattern p => exact ⟨Int.natCast_nonneg _, by exact_mod_cast p.isLt⟩
    · rintro ⟨above, below⟩
      obtain ⟨pattern, rfl⟩ := Int.eq_ofNat_of_zero_le above
      have small : pattern < 2 ^ width.toNat := by exact_mod_cast below
      exact ⟨_, .pattern (BitVec.ofNatLT pattern small)⟩

end

/-- A fixed-width kind accepts integers, whole exact reals and literals of its width, nothing
else, and takes what they carry modulo its range. It accepts all literals of its numbers and
decodes them as these numbers. And nothing else comes out of a literal exactly when what it
carries is in range. -/
theorem decode_bits_iff (signed : Bool) {width : UInt32} (positive : 0 < width) (e : SExpr) :
    (∀ v, decode (.bits signed width) e = .ok v ↔
      ∃ n, Carries width e n ∧
        v = .ofBits signed width n (Kind.sized_of_pos signed positive)) ∧
    (∀ n, States signed width e n →
      ∃ v, decode (.bits signed width) e = .ok v ∧ v.payload = .integer n) ∧
    ((∀ v, decode (.bits signed width) e = .ok v →
      ∃ n, States signed width e n ∧ v.payload = .integer n) ↔
        ∀ n, Carries width e n → InRange signed width e) := by
  have sized := Kind.sized_of_pos signed positive
  have accepted : ∀ n, States signed width e n →
      ∃ v, decode (.bits signed width) e = .ok v ∧ v.payload = .integer n := by
    intro n stated
    obtain ⟨m, carried, wrapped⟩ := stated.carries positive
    exact ⟨_, (decode_bits_eq_ok sized).mpr ⟨m, carried, rfl⟩, congrArg Payload.integer wrapped⟩
  refine ⟨fun v => decode_bits_eq_ok sized, accepted, fun faithful n carried => ?_,
    fun inRange v decoded => ?_⟩
  · obtain ⟨m, stated, -⟩ := faithful _ ((decode_bits_eq_ok sized).mpr ⟨n, carried, rfl⟩)
    exact (exists_states_iff positive carried).mp ⟨m, stated⟩
  · obtain ⟨n, carried, -⟩ := (decode_bits_eq_ok sized).mp decoded
    obtain ⟨m, stated⟩ := (exists_states_iff positive carried).mpr (inRange n carried)
    obtain ⟨w, again, payload⟩ := accepted m stated
    rw [decoded] at again
    cases again
    exact ⟨m, stated, payload⟩

/-- The greatest pattern of eight bits is the number -1 of the signed kind, which the plain
number 255 is not. -/
theorem decode_bits_iff_signed :
    (0 : UInt32) < 8 ∧
      (∃ v, decode (.int 8) (.atom (.int 255 (some 8))) = .ok v ∧ v.payload = .integer (-1)) ∧
      ¬∀ v, decode (.int 8) (.atom (.int 255 none)) = .ok v →
        ∃ n, States true 8 (.atom (.int 255 none)) n ∧ v.payload = .integer n := by
  have positive : (0 : UInt32) < 8 := by decide
  obtain ⟨-, accepted, -⟩ := decode_bits_iff true positive (.atom (.int 255 (some 8)))
  obtain ⟨-, -, faithful⟩ := decode_bits_iff true positive (.atom (.int 255 none))
  have ones : States true 8 (.atom (.int 255 (some 8))) (-1) :=
    @States.pattern true 8 (255#8 : BitVec 8)
  refine ⟨positive, accepted (-1) ones, fun all => ?_⟩
  obtain ⟨-, below⟩ := faithful.mp all 255 (.plain 255) (-128) 127 rfl
  exact absurd below (by decide)

/-- The number 300 has more than eight bits and is decoded as 44 all the same. -/
theorem decode_wrapped :
    decode (.word 8) (.atom (.int 300 none)) = .ok (.ofBits false 8 44) ∧
      (Value.ofBits false 8 44).payload = .integer 44 ∧
      ¬∀ (signed : Bool) (width : UInt32) (e : SExpr) (v : Value), 0 < width →
        decode (.bits signed width) e = .ok v →
          ∃ n, States signed width e n ∧ v.payload = .integer n := by
  have decoded : decode (.word 8) (.atom (.int 300 none)) = .ok (.ofBits false 8 44) := by decide
  refine ⟨decoded, by decide, fun all => ?_⟩
  obtain ⟨n, stated, -⟩ := all false 8 _ _ (by decide) decoded
  obtain ⟨-, below⟩ := (exists_states_iff (by decide) (.plain 300)).mp ⟨n, stated⟩ 0 255 rfl
  exact absurd below (by decide)

end Value

end SmtDialogue
