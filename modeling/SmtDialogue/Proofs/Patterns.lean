import SmtDialogue.Proofs.Words

/-!
# Bit patterns

The spellings of fixed-width integers and of floating-point words. An integer is its
two's complement pattern, so what is read is the integer modulo its range; a word is
three fields, which joined again are the word.
-/

namespace SmtDialogue

namespace Spelling

/-- A bit pattern, in base sixteen where the width allows it. -/
def pattern (width n : Nat) : Spelling :=
  if width % 4 = 0 then hexadecimal (width / 4) n else binary width n

/-- The two's complement pattern of an integer. -/
def bits (i : Int) (width : Nat) : Spelling :=
  pattern width (i % (1 <<< width : Nat)).toNat

/-- A floating-point word by its three fields. -/
def floating (f : Ieee.Format) (p : Nat) : Spelling :=
  .list [bare "fp", binary 1 (if f.isNegative p then 1 else 0),
    binary f.exponentBits (f.exponent p), binary f.fractionBits (f.fraction p)]

theorem chars_bits (i : Int) (width : Nat) :
    (bits i width).chars = (Literal.bits i width).toList := by
  by_cases nibbles : width % 4 = 0 <;>
    simp [bits, pattern, nibbles, hexadecimal, binary, chars, Literal.bits]

theorem chars_floating (f : Ieee.Format) (p : Nat) :
    (floating f p).chars = (Literal.word f p).toList := by
  simp [floating, bare, binary, chars, charsList, Literal.word]

theorem one_shiftLeft (width : Nat) : (1 <<< width : Nat) = Nat.pow 2 width := by
  rw [Nat.shiftLeft_eq, Nat.one_mul]
  rfl

theorem proper_pattern {width n : Nat} (positive : 0 < width) (h : n < Nat.pow 2 width)
    (narrow : width < UInt32.size) : (pattern width n).Proper := by
  rw [pattern]
  split
  · next nibbles =>
    have quarters : width = 4 * (width / 4) := by omega
    have power : Nat.pow 16 (width / 4) = Nat.pow 2 width := by
      conv_rhs => rw [quarters]
      exact (Nat.pow_mul 2 4 (width / 4)).symm
    exact proper_hexadecimal (by omega) (by omega) (by omega)
  · exact proper_binary positive h

theorem tree_pattern (width : UInt32) (n : Nat) :
    (pattern width.toNat n).tree = .atom (.int n (some width)) := by
  rw [pattern]
  split
  · next nibbles =>
    have quarters : width.toNat / 4 * 4 = width.toNat := by omega
    simp [hexadecimal, tree, quarters]
  · simp [binary, tree]

/-- The pattern of an integer is one of its width. -/
theorem emod_shiftLeft_lt (i : Int) (width : Nat) :
    (i % (1 <<< width : Nat)).toNat < Nat.pow 2 width := by
  have positive : 0 < Nat.pow 2 width := Nat.pow_pos (by decide)
  rw [one_shiftLeft]
  have low := Int.emod_nonneg i (b := (Nat.pow 2 width : Nat)) (by omega)
  have high := Int.emod_lt_of_pos i (b := (Nat.pow 2 width : Nat)) (by omega)
  omega

theorem proper_bits (i : Int) {width : Nat} (positive : 0 < width) (narrow : width < UInt32.size) :
    (bits i width).Proper :=
  proper_pattern positive (emod_shiftLeft_lt i width) narrow

end Spelling

/-- Wrapping a pattern gives back what it is the pattern of. -/
theorem Kind.wrap_emod (signed : Bool) (width : Nat) (i : Int) :
    wrap signed width ((i % (1 <<< width : Nat)).toNat : Int) = wrap signed width i := by
  have positive : 0 < Nat.pow 2 width := Nat.pow_pos (by decide)
  have low := Int.emod_nonneg i (b := (1 <<< width : Nat)) (by rw [Spelling.one_shiftLeft]; omega)
  rw [Int.toNat_of_nonneg low]
  cases signed with
  | false => simp [wrap]
  | true => simp only [wrap, ↓reduceIte, Int.emod_bmod]

namespace Spelling

/-- Fields that do not overlap are joined by addition. -/
theorem toNat_joinFields {exponentBits fractionBits sign exponent fraction : Nat}
    (hs : sign < 2) (he : exponent < Nat.pow 2 exponentBits)
    (hf : fraction < Nat.pow 2 fractionBits) (fits : fractionBits + exponentBits < 64) :
    (SExpr.joinFields fractionBits (fractionBits + exponentBits) sign exponent fraction).toNat =
      sign * Nat.pow 2 (fractionBits + exponentBits) +
        (exponent * Nat.pow 2 fractionBits + fraction) := by
  have power : Nat.pow 2 (fractionBits + exponentBits) =
      Nat.pow 2 fractionBits * Nat.pow 2 exponentBits := Nat.pow_add 2 fractionBits exponentBits
  have word : 2 * Nat.pow 2 (fractionBits + exponentBits) ≤ Nat.pow 2 64 := by
    have widened : Nat.pow 2 (fractionBits + exponentBits + 1) ≤ Nat.pow 2 64 :=
      Nat.pow_le_pow_right (by decide) fits
    have doubled : Nat.pow 2 (fractionBits + exponentBits + 1) =
      Nat.pow 2 (fractionBits + exponentBits) * 2 := rfl
    omega
  have low : exponent * Nat.pow 2 fractionBits + fraction <
      Nat.pow 2 (fractionBits + exponentBits) := by
    have step : (exponent + 1) * Nat.pow 2 fractionBits ≤
        Nat.pow 2 exponentBits * Nat.pow 2 fractionBits := Nat.mul_le_mul_right _ he
    rw [Nat.add_mul, Nat.one_mul, Nat.mul_comm (Nat.pow 2 exponentBits), ← power] at step
    omega
  have high : sign * Nat.pow 2 (fractionBits + exponentBits) ≤
      Nat.pow 2 (fractionBits + exponentBits) := by
    have step := Nat.mul_le_mul_right (Nat.pow 2 (fractionBits + exponentBits))
      (Nat.le_of_lt_succ hs)
    rwa [Nat.one_mul] at step
  -- every field keeps all its bits where it is put
  have kept : ∀ n k : Nat, n * Nat.pow 2 k < Nat.pow 2 64 →
      (BitVec.ofNat 64 n <<< k).toNat = n <<< k := by
    intro n k below
    have positive : 0 < Nat.pow 2 k := Nat.pow_pos (by decide)
    have small : n < Nat.pow 2 64 := by
      have step := Nat.le_mul_of_pos_right n positive
      omega
    rw [BitVec.toNat_shiftLeft, BitVec.toNat_ofNat, Nat.mod_eq_of_lt small, Nat.mod_eq_of_lt]
    rw [Nat.shiftLeft_eq]
    exact below
  have placed : (BitVec.ofNat 64 fraction).toNat = fraction := by
    rw [BitVec.toNat_ofNat, Nat.mod_eq_of_lt]
    change fraction < Nat.pow 2 64
    omega
  rw [SExpr.joinFields, BitVec.toNat_or, BitVec.toNat_or, kept sign _ (by omega),
    kept exponent _ (by omega), placed, Nat.or_assoc,
    ← Nat.shiftLeft_add_eq_or_of_lt hf exponent]
  have joined : exponent <<< fractionBits + fraction =
      exponent * Nat.pow 2 fractionBits + fraction := by
    rw [Nat.shiftLeft_eq]
    rfl
  rw [joined, ← Nat.shiftLeft_add_eq_or_of_lt low sign, Nat.shiftLeft_eq]
  rfl

/-- Joining the fields of a word gives the word. -/
theorem toNat_joinFields_word (f : Ieee.Format) (fits : f.fractionBits + f.exponentBits < 64)
    {p : Nat} (h : p < Nat.pow 2 (f.fractionBits + f.exponentBits + 1)) :
    (SExpr.joinFields f.fractionBits (f.fractionBits + f.exponentBits)
      (if f.isNegative p then 1 else 0) (f.exponent p) (f.fraction p)).toNat = p := by
  have power : Nat.pow 2 (f.fractionBits + f.exponentBits) =
      Nat.pow 2 f.fractionBits * Nat.pow 2 f.exponentBits := Nat.pow_add 2 _ _
  have sign : f.signWeight = Nat.pow 2 (f.fractionBits + f.exponentBits) := by
    rw [Nat.add_comm]
    exact one_shiftLeft _
  have unit : f.exponentWeight = Nat.pow 2 f.fractionBits := one_shiftLeft _
  have positive : 0 < f.signWeight := sign ▸ Nat.pow_pos (by decide)
  have low : p % f.signWeight < f.signWeight := Nat.mod_lt p positive
  have small : p / f.signWeight < 2 := by
    rw [Nat.div_lt_iff_lt_mul positive, sign, Nat.mul_comm]
    exact h
  have negative : (if f.isNegative p then 1 else 0) = p / f.signWeight := by
    by_cases one : p / f.signWeight = 1
    · simp [Ieee.Format.isNegative, one]
    · have zero : p / f.signWeight = 0 := by
        generalize p / f.signWeight = sign at small one
        omega
      simp [Ieee.Format.isNegative, zero]
  have exponent : f.exponent p < Nat.pow 2 f.exponentBits := by
    apply Nat.div_lt_of_lt_mul
    rw [unit, ← power, ← sign]
    exact low
  have fraction : f.fraction p = p % f.signWeight % f.exponentWeight := by
    rw [Ieee.Format.fraction, sign, unit, power, Nat.mod_mul_right_mod]
  have inside : f.fraction p < Nat.pow 2 f.fractionBits := by
    rw [Ieee.Format.fraction, unit]
    exact Nat.mod_lt p (Nat.pow_pos (by decide))
  have outer := Nat.div_add_mod' p f.signWeight
  have inner := Nat.div_add_mod' (p % f.signWeight) f.exponentWeight
  rw [negative, toNat_joinFields small exponent inside fits, ← sign, ← unit, fraction]
  rw [Ieee.Format.exponent, Ieee.Format.unsigned, inner, outer]

theorem proper_floating {f : Ieee.Format} (exponentBits : 0 < f.exponentBits)
    (fractionBits : 0 < f.fractionBits) (narrow : f.fractionBits + 1 < UInt32.size) (p : Nat) :
    (floating f p).Proper := by
  have power : f.signWeight = f.exponentWeight * Nat.pow 2 f.exponentBits := by
    have sum : Nat.pow 2 (f.fractionBits + f.exponentBits) =
        Nat.pow 2 f.fractionBits * Nat.pow 2 f.exponentBits := Nat.pow_add 2 _ _
    rw [Ieee.Format.signWeight, Ieee.Format.exponentWeight, one_shiftLeft, one_shiftLeft,
      Nat.add_comm, sum]
  have positive : 0 < f.exponentWeight := by
    rw [Ieee.Format.exponentWeight, one_shiftLeft]
    exact Nat.pow_pos (by decide)
  have unsigned : f.unsigned p < f.signWeight :=
    Nat.mod_lt p (power ▸ Nat.mul_pos positive (Nat.pow_pos (by decide)))
  have exponent : f.exponent p < Nat.pow 2 f.exponentBits :=
    Nat.div_lt_of_lt_mul (power ▸ unsigned)
  have fraction : f.fraction p < Nat.pow 2 f.fractionBits := by
    rw [← one_shiftLeft]
    exact Nat.mod_lt p positive
  have sign : (if f.isNegative p then 1 else 0) < Nat.pow 2 1 := by split <;> decide
  have width : (UInt32.ofNat f.fractionBits).toNat = f.fractionBits :=
    UInt32.toNat_ofNat_of_lt (by omega)
  have fits : SExpr.foldOverflows (treeList [bare "fp",
      binary 1 (if f.isNegative p then 1 else 0), binary f.exponentBits (f.exponent p),
      binary f.fractionBits (f.fraction p)]) = false := by
    have shorter : ¬UInt32.size ≤ f.fractionBits + 1 := by omega
    simp [treeList, bare, binary, tree, SExpr.foldOverflows, SExpr.fieldsOverflow, width, shorter]
  exact ⟨fits, proper_bare (by decide), proper_binary (by decide) sign,
    proper_binary exponentBits exponent, proper_binary fractionBits fraction, trivial⟩

theorem tree_floating (f : Ieee.Format) (p : Nat) :
    (floating f p).tree = SExpr.fold [.atom (.symbol "fp"),
      .atom (.int (if f.isNegative p then 1 else 0 : Nat) (some 1)),
      .atom (.int (f.exponent p) (some (UInt32.ofNat f.exponentBits))),
      .atom (.int (f.fraction p) (some (UInt32.ofNat f.fractionBits)))] :=
  rfl

theorem fold_fields {args : List SExpr} {a : Atom} (h : SExpr.fields? args = some a) :
    SExpr.fold (.atom (.symbol "fp") :: args) = .atom a := by
  simp [SExpr.fold, SExpr.literal?, h]

/-- What is made of the fields of a word, for which 64 bits are enough. -/
theorem fields?_word (f : Ieee.Format) {p : Nat} (h : p < UInt64.size)
    (exponentBits fractionBits : UInt32) :
    SExpr.fields? [.atom (.int (if f.isNegative p then 1 else 0 : Nat) (some 1)),
      .atom (.int (f.exponent p) (some exponentBits)),
      .atom (.int (f.fraction p) (some fractionBits))] =
    (let join (exponentShift signShift : Nat) : BitVec 64 :=
      SExpr.joinFields exponentShift signShift (if f.isNegative p then 1 else 0) (f.exponent p)
        (f.fraction p)
    if exponentBits = 8 ∧ fractionBits = 23 then some (.float ((join 23 31).setWidth 32))
    else if exponentBits = 11 ∧ fractionBits = 52 then some (.double (join 52 63))
    else none) := by
  have sign : (if f.isNegative p then 1 else 0) < UInt64.size := by split <;> decide
  have exponent : f.exponent p < UInt64.size :=
    Nat.lt_of_le_of_lt (Nat.div_le_self _ _) (Nat.lt_of_le_of_lt (Nat.mod_le _ _) h)
  have fraction : f.fraction p < UInt64.size := Nat.lt_of_le_of_lt (Nat.mod_le _ _) h
  have small : SExpr.areFields (if f.isNegative p then 1 else 0 : Nat) (f.exponent p)
      (f.fraction p) = true := by
    simp only [SExpr.areFields, List.all_cons, List.all_nil, Bool.and_true, Bool.and_eq_true,
      decide_eq_true_eq]
    omega
  simp only [SExpr.fields?]
  rw [if_pos small]
  rfl

theorem tree_single (bits : BitVec 32) :
    (floating Ieee.single bits.toNat).tree = .atom (.float bits) := by
  have word := toNat_joinFields_word Ieee.single (by decide) (p := bits.toNat) bits.isLt
  have joined : (SExpr.joinFields 23 31 (if Ieee.single.isNegative bits.toNat then 1 else 0)
      (Ieee.single.exponent bits.toNat) (Ieee.single.fraction bits.toNat)).setWidth 32 = bits := by
    apply BitVec.eq_of_toNat_eq
    rw [BitVec.toNat_setWidth]
    exact (congrArg (· % 2 ^ 32) word).trans (Nat.mod_eq_of_lt bits.isLt)
  have read := fields?_word Ieee.single (Nat.lt_trans bits.isLt (by decide)) 8 23
  simp only [and_self, ↓reduceIte, joined] at read
  rw [tree_floating]
  exact fold_fields read

theorem tree_double (bits : BitVec 64) :
    (floating Ieee.double bits.toNat).tree = .atom (.double bits) := by
  have word := toNat_joinFields_word Ieee.double (by decide) (p := bits.toNat) bits.isLt
  have joined : SExpr.joinFields 52 63 (if Ieee.double.isNegative bits.toNat then 1 else 0)
      (Ieee.double.exponent bits.toNat) (Ieee.double.fraction bits.toNat) = bits :=
    BitVec.eq_of_toNat_eq word
  have read := fields?_word Ieee.double bits.isLt 11 52
  have width : ¬((11 : UInt32) = 8 ∧ (52 : UInt32) = 23) := by decide
  simp only [width, and_self, ↓reduceIte, joined] at read
  rw [tree_floating]
  exact fold_fields read

end Spelling

end SmtDialogue
