import Mathlib.Data.Rat.Floor
import SmtDialogue.Proofs.Phrasing
import SmtDialogue.Proofs.Residues

/-!
# Constant shifts

A shift by a constant is written with a literal of the width of the word, so an amount above
the width is lowered to it. The width of a word of at least one bit always fits into that many
bits, and shifting by the width already does what shifting by more would do. So with the
meaning that the theory of bit vectors gives to the shifts, a left shift multiplies by a power
of two and a right shift divides by it and rounds down, whatever the amount.
-/

namespace SmtDialogue

open SExpr (named)

/-- The whole quotient by a power of two, as a word. -/
def shiftedDown {width : Nat} (x amount : BitVec width) : BitVec width :=
  BitVec.ofNat width (x.toNat / 2 ^ amount.toNat)

/-- The theory of bit vectors explains a left shift by a product and a logical right shift by
a quotient of naturals. An arithmetic right shift is the logical one, or where the first bit
is one, its complement on the complement. -/
def shifted? (operator : String) {width : Nat} (x amount : BitVec width) :
    Option (BitVec width) :=
  match operator with
  | "bvshl" => some (BitVec.ofNat width (x.toNat * 2 ^ amount.toNat))
  | "bvlshr" => some (shiftedDown x amount)
  | "bvashr" => some (if x.msb then ~~~shiftedDown (~~~x) amount else shiftedDown x amount)
  | _ => none

/-- The bit pattern that a tree stands for, given those of the symbols in it. A literal stands
for the pattern of its number when it has the width and the number fits. -/
def SExpr.pattern? {width : Nat} (symbols : String → Option (BitVec width)) :
    SExpr → Option (BitVec width)
  | .atom (.symbol name) => symbols name
  | .atom (.int i (some size)) =>
    if size.toNat = width ∧ 0 ≤ i ∧ i < 2 ^ width then some (BitVec.ofInt width i) else none
  | .app [.atom (.symbol operator), x, amount] => do
    shifted? operator (← pattern? symbols x) (← pattern? symbols amount)
  | _ => none

/-- The text of a term reads as a tree that stands for the pattern. -/
def Term.StandsFor (t : Term) {width : Nat} (symbols : String → Option (BitVec width))
    (x : BitVec width) : Prop :=
  ∃ e, SExpr.parse t.text = .ok e ∧ e.pattern? symbols = some x

theorem natCast_toNat_ofInt (width : Nat) (x : Int) :
    ((BitVec.ofInt width x).toNat : Int) = x % 2 ^ width := by
  have nonnegative : 0 ≤ x % 2 ^ width := Int.emod_nonneg x (by positivity)
  rw [BitVec.toNat_ofInt]
  push_cast
  exact Int.toNat_of_nonneg nonnegative

/-- The pattern of a number reads as what is left of it in the kind. -/
theorem Kind.reading_ofInt (signed : Bool) (width : Nat) (x : Int) :
    reading signed (BitVec.ofInt width x) = wrap signed width x := by
  have same : ((BitVec.ofInt width x).toNat : Int) ≡ x [ZMOD 2 ^ width] := by
    rw [natCast_toNat_ofInt]
    exact Int.mod_modEq x _
  rw [← wrap_toNat, wrap_congr same]

section

variable {width : Nat} {amount : BitVec width} {n : Nat}

/-- A number with a sign or without one is divided by the width of its range as by more. -/
theorem ediv_two_pow_min {x : Int} (above : -2 ^ width ≤ x) (below : x < 2 ^ width) :
    x / 2 ^ min n width = x / 2 ^ n := by
  by_cases within : n ≤ width
  · rw [min_eq_left within]
  · rw [min_eq_right (by omega)]
    have longer : (2 : Int) ^ width ≤ 2 ^ n := pow_le_pow_right₀ (by norm_num) (by omega)
    by_cases negative : x < 0
    · rw [Int.ediv_eq_neg_one_of_neg_of_le negative (by omega),
        Int.ediv_eq_neg_one_of_neg_of_le negative (by omega)]
    · rw [Int.ediv_eq_zero_of_lt (by omega) below,
        Int.ediv_eq_zero_of_lt (by omega) (by omega)]

/-- Behind the width a product has no bits left. -/
theorem mul_two_pow_min_modEq (x : Int) :
    x * 2 ^ min n width ≡ x * 2 ^ n [ZMOD 2 ^ width] := by
  by_cases within : n ≤ width
  · rw [min_eq_left within]
  · rw [min_eq_right (by omega)]
    have multiple : (2 : Int) ^ width ∣ x * 2 ^ n :=
      Dvd.dvd.mul_left (pow_dvd_pow 2 (by omega)) x
    exact (Int.modEq_zero_iff_dvd.mpr (dvd_mul_left _ x)).trans
      (Int.modEq_zero_iff_dvd.mpr multiple).symm

theorem shiftedDown_eq_ushiftRight (x amount : BitVec width) :
    shiftedDown x amount = x >>> amount.toNat := by
  apply BitVec.eq_of_toNat_eq
  have small : x.toNat / 2 ^ amount.toNat < 2 ^ width :=
    Nat.lt_of_le_of_lt (Nat.div_le_self _ _) x.isLt
  rw [shiftedDown, BitVec.toNat_ofNat, Nat.mod_eq_of_lt small, BitVec.toNat_ushiftRight,
    Nat.shiftRight_eq_div_pow]

theorem shifted?_arithmetic_eq (x amount : BitVec width) :
    shifted? "bvashr" x amount = some (x.sshiftRight amount.toNat) := by
  simp only [shifted?, shiftedDown_eq_ushiftRight]
  cases sign : x.msb with
  | true => rw [if_pos rfl, BitVec.sshiftRight_eq_of_msb_true sign]
  | false => rw [if_neg (by decide), BitVec.sshiftRight_eq_of_msb_false sign]

/-- A left shift multiplies a number as the kind reads it, up to the range. -/
theorem shifted?_left (lowered : amount.toNat = min n width) (signed : Bool)
    (x : BitVec width) :
    ∃ r, shifted? "bvshl" x amount = some r ∧
      (r.toNat : Int) = Kind.reading signed x * 2 ^ n % 2 ^ width := by
  have same : (x.toNat : Int) ≡ Kind.reading signed x [ZMOD 2 ^ width] := by
    rw [← Kind.wrap_toNat]
    exact (Kind.wrap_modEq signed width x.toNat).symm
  refine ⟨_, rfl, ?_⟩
  rw [BitVec.toNat_ofNat, lowered]
  push_cast
  exact (same.mul_right _).trans (mul_two_pow_min_modEq _)

/-- A right shift divides a number as the kind reads it: a logical one without a sign, an
arithmetic one with it. -/
theorem shifted?_right (lowered : amount.toNat = min n width) (signed : Bool)
    (x : BitVec width) :
    ∃ r, shifted? (if signed then "bvashr" else "bvlshr") x amount = some r ∧
      Kind.reading signed r = Kind.reading signed x / 2 ^ n := by
  cases signed with
  | false =>
    have below : (x.toNat : Int) < 2 ^ width := by exact_mod_cast x.isLt
    refine ⟨shiftedDown x amount, rfl, ?_⟩
    simp only [Kind.reading, Bool.false_eq_true, if_false]
    rw [shiftedDown_eq_ushiftRight, BitVec.toNat_ushiftRight, Nat.shiftRight_eq_div_pow, lowered,
      ← ediv_two_pow_min (by omega) below]
    push_cast
    rfl
  | true =>
    have positive : (0 : Int) < 2 ^ width := by positivity
    have twice : 2 * x.toInt < 2 ^ width := BitVec.two_mul_toInt_lt
    have negated : -2 ^ width ≤ 2 * x.toInt := BitVec.le_two_mul_toInt
    have below : x.toInt < 2 ^ width := by omega
    have above : -2 ^ width ≤ x.toInt := by omega
    refine ⟨x.sshiftRight amount.toNat, shifted?_arithmetic_eq x amount, ?_⟩
    simp only [Kind.reading, if_true]
    rw [BitVec.toInt_sshiftRight, Int.shiftRight_eq_div_pow, lowered,
      ← ediv_two_pow_min above below]
    push_cast
    rfl

end

section

variable {width : UInt32} {symbols : String → Option (BitVec width.toNat)} {id : WordId}
  {x r : BitVec width.toNat}

theorem Literal.pattern?_bits (symbols : String → Option (BitVec width.toNat)) (x : Int) :
    SExpr.pattern? symbols (.atom (.int (x % 2 ^ width.toNat) (some width))) =
      some (BitVec.ofInt width.toNat x) := by
  have above : 0 ≤ x % 2 ^ width.toNat := Int.emod_nonneg x (by positivity)
  have below : x % 2 ^ width.toNat < 2 ^ width.toNat := Int.emod_lt_of_pos x (by positivity)
  have same : BitVec.ofInt width.toNat (x % 2 ^ width.toNat) = BitVec.ofInt width.toNat x := by
    apply BitVec.eq_of_toNat_eq
    rw [BitVec.toNat_ofInt, BitVec.toNat_ofInt]
    push_cast
    rw [Int.emod_emod_of_dvd x (dvd_refl _)]
  rw [SExpr.pattern?, if_pos ⟨rfl, above, below⟩, same]

/-- The amount that is written is below the range, so that it is read as it is. -/
theorem min_emod_two_pow (n width : Nat) :
    ((min n width : Nat) : Int) % 2 ^ width = (min n width : Nat) := by
  have small : min n width < 2 ^ width :=
    Nat.lt_of_le_of_lt (Nat.min_le_right n width) Nat.lt_two_pow_self
  exact Int.emod_eq_of_lt (Int.natCast_nonneg _) (by exact_mod_cast small)

theorem toNat_ofInt_min (n width : Nat) :
    (BitVec.ofInt width (min n width : Nat)).toNat = min n width := by
  have casts := natCast_toNat_ofInt width (min n width : Nat)
  rw [min_emod_two_pow] at casts
  exact_mod_cast casts

theorem Op.phrase_shiftAmount (positive : 0 < width) (n : Nat) :
    Phrase (shiftAmount width n).text.toList
      (.atom (.int (min n width.toNat : Nat) (some width))) := by
  have phrase := Literal.phrase_bits
    (Kind.wrap false width.toNat (min n width.toNat : Nat)) positive
  rw [Kind.wrap_emod_pow, min_emod_two_pow] at phrase
  exact phrase

theorem Op.text_call (operator : String) (id : WordId) (amount : Term) :
    (Term.call operator [Term.word id, amount]).text =
      "(" ++ operator ++ " " ++ id.text ++ " " ++ amount.text ++ ")" := by
  simp [Term.call, Term.text, Term.textArgs, Operator.text, Term.word, Name.text,
    String.append_assoc]

/-- A shift of a named word reads as the application that it is. -/
theorem Op.parse_shift (positive : 0 < width) (n : Nat) (id : WordId) {operator : String}
    (listed : operator ∈ ["bvshl", "bvlshr", "bvashr"]) :
    SExpr.parse (Term.call operator [Term.word id, shiftAmount width n]).text =
      .ok (.app [.atom (.symbol operator), .atom (.symbol id.text),
        .atom (.int (min n width.toNat : Nat) (some width))]) := by
  have bare : Spelling.IsBare operator.toList := by
    revert operator
    decide +kernel
  have other : ∀ name ∈ ["-", "/", "_", "fp", "root-obj"], operator ≠ name := by
    revert operator
    decide
  have each : ∀ p ∈ [(id.text, named id.text), ((shiftAmount width n).text,
      .atom (.int (min n width.toNat : Nat) (some width)))], Phrase p.1.toList p.2 := by
    simp only [List.forall_mem_cons]
    exact ⟨id.phrase, phrase_shiftAmount positive n, by simp⟩
  have whole := phrase_call bare other each
  refine Phrase.parse ?_
  simpa [text_call, spaced, named] using whole

/-- A shift stands for what the theory makes of the pattern of its word. -/
theorem Op.standsFor_shift (positive : 0 < width) (n : Nat) {operator : String}
    (listed : operator ∈ ["bvshl", "bvlshr", "bvashr"]) (known : symbols id.text = some x)
    (shifted : shifted? operator x (BitVec.ofInt width.toNat (min n width.toNat : Nat)) = some r) :
    (Term.call operator [Term.word id, shiftAmount width n]).StandsFor symbols r := by
  have word : SExpr.pattern? symbols (.atom (.symbol id.text)) = some x := by
    rw [SExpr.pattern?, known]
  have amount := Literal.pattern?_bits symbols (min n width.toNat : Nat)
  rw [min_emod_two_pow] at amount
  refine ⟨_, parse_shift positive n id listed, ?_⟩
  rw [SExpr.pattern?, word, amount]
  exact shifted

theorem Op.exists_standsFor_left (positive : 0 < width) (n : Nat)
    (known : symbols id.text = some x) (signed : Bool) :
    ∃ r, (Term.call "bvshl" [Term.word id, shiftAmount width n]).StandsFor symbols r ∧
      (r.toNat : Int) = Kind.reading signed x * 2 ^ n % 2 ^ width.toNat := by
  obtain ⟨r, shifted, product⟩ := shifted?_left (toNat_ofInt_min n width.toNat) signed x
  exact ⟨r, standsFor_shift positive n (by decide) known shifted, product⟩

theorem Op.exists_standsFor_right (positive : 0 < width) (n : Nat)
    (known : symbols id.text = some x) (signed : Bool) :
    ∃ r, (Term.call (if signed then "bvashr" else "bvlshr")
        [Term.word id, shiftAmount width n]).StandsFor symbols r ∧
      Kind.reading signed r = ⌊(Kind.reading signed x : ℚ) / 2 ^ n⌋ := by
  obtain ⟨r, shifted, quotient⟩ := shifted?_right (toNat_ofInt_min n width.toNat) signed x
  have listed : (if signed then "bvashr" else "bvlshr") ∈ ["bvshl", "bvlshr", "bvashr"] := by
    cases signed <;> decide
  have floor := Rat.floor_intCast_div_natCast (Kind.reading signed x) (2 ^ n)
  push_cast at floor
  exact ⟨r, standsFor_shift positive n listed known shifted, quotient.trans floor.symm⟩

end

/-- A value of a fixed-width kind stands for the pattern that reads as its number. -/
theorem Value.exists_pattern {signed : Bool} {width : UInt32} (positive : 0 < width) {v : Value}
    (bits : v.kind = .bits signed width) :
    ∃ pattern : BitVec width.toNat, v.integer? = some (Kind.reading signed pattern) ∧
      ∀ symbols, (Term.literal v).StandsFor symbols pattern := by
  obtain ⟨kind, payload, fits⟩ := v
  obtain rfl : kind = .bits signed width := bits
  cases Payload.fits_iff.mp fits with
  | @bits signed width x _ inRange =>
    refine ⟨BitVec.ofInt width.toNat x, ?_, fun symbols => ?_⟩
    · rw [Kind.reading_ofInt, inRange]
      rfl
    · exact ⟨_, (Literal.phrase_bits x positive).parse, Literal.pattern?_bits symbols x⟩

/-- A shift by a constant is written with an amount of at most the width. With a number of the
kind at its word, a left shift stands for the product with the power of two modulo the range,
and a right shift for the quotient rounded down. -/
theorem Op.term_shift_exact (signed : Bool) {width : UInt32} (positive : 0 < width) (n : Nat)
    (id : WordId) (result : Kind) :
    ∃ left right literal,
      (shiftLeft n).term result [(id, .bits signed width)] = .ok left ∧
      left.text = "(bvshl " ++ id.text ++ " " ++ literal ++ ")" ∧
      (shiftRight n).term result [(id, .bits signed width)] = .ok right ∧
      right.text = "(" ++ (if signed then "bvashr" else "bvlshr") ++ " " ++ id.text ++ " " ++
        literal ++ ")" ∧
      SExpr.parse literal = .ok (.atom (.int (min n width.toNat : Nat) (some width))) ∧
      ∀ v : Value, v.kind = .bits signed width →
        ∃ (x : Int) (pattern : BitVec width.toNat), v.integer? = some x ∧
          Kind.reading signed pattern = x ∧
          ∀ symbols, (Term.literal v).StandsFor symbols pattern ∧
            (symbols id.text = some pattern →
              (∃ r, left.StandsFor symbols r ∧
                (r.toNat : Int) = x * 2 ^ n % 2 ^ width.toNat) ∧
              ∃ r, right.StandsFor symbols r ∧
                Kind.reading signed r = ⌊(x : ℚ) / 2 ^ n⌋) := by
  have written : (shiftLeft n).term result [(id, .bits signed width)] =
        .ok (Term.call "bvshl" [Term.word id, shiftAmount width n]) ∧
      (shiftRight n).term result [(id, .bits signed width)] =
        .ok (Term.call (if signed then "bvashr" else "bvlshr")
          [Term.word id, shiftAmount width n]) := by
    cases signed <;> exact ⟨rfl, rfl⟩
  refine ⟨_, _, (shiftAmount width n).text, written.1, text_call _ _ _, written.2,
    text_call _ _ _, (phrase_shiftAmount positive n).parse, ?_⟩
  intro v bits
  obtain ⟨pattern, integer, literal⟩ := v.exists_pattern positive bits
  refine ⟨_, pattern, integer, rfl, ?_⟩
  intro symbols
  refine ⟨literal symbols, ?_⟩
  intro known
  constructor
  · exact exists_standsFor_left positive n known signed
  · exact exists_standsFor_right positive n known signed

/-- A word of one bit takes an amount of one at most, which is enough for any shift: the
number -1 is shifted out to the left and stays itself to the right. -/
theorem Op.term_shift_exact_oneBit :
    (0 : UInt32) < 1 ∧ ∃ left right,
      (shiftLeft 5).term (.int 1) [(⟨0⟩, .int 1)] = .ok left ∧ left.text = "(bvshl s0 #b1)" ∧
      (shiftRight 5).term (.int 1) [(⟨0⟩, .int 1)] = .ok right ∧
      right.text = "(bvashr s0 #b1)" ∧
      ∀ symbols, symbols "s0" = some (1#1) →
        (∃ r, left.StandsFor symbols r ∧ (r.toNat : Int) = 0) ∧
        ∃ r, right.StandsFor symbols r ∧ Kind.reading true r = -1 := by
  have positive : (0 : UInt32) < 1 := by decide
  obtain ⟨left, right, literal, first, _, second, _, _, values⟩ :=
    term_shift_exact true positive 5 ⟨0⟩ (.int 1)
  obtain ⟨x, pattern, integer, reads, shifts⟩ := values (.ofBits true 1 (-1)) rfl
  have value : (Value.ofBits true 1 (-1)).integer? = some (-1) := by decide
  cases value.symm.trans integer
  have ones : ∀ p : BitVec 1, Kind.reading true p = -1 → p = 1#1 := by decide
  cases ones pattern reads
  have floor : ⌊((-1 : Int) : ℚ) / 2 ^ 5⌋ = -1 := by norm_num
  rw [floor] at shifts
  refine ⟨positive, left, right, first, ?_, second, ?_, ?_⟩
  · cases first
    decide
  · cases second
    decide
  · intro symbols known
    obtain ⟨_, shifted⟩ := shifts symbols
    exact shifted known

end SmtDialogue
