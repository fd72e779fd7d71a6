import Mathlib
import SmtDialogue.SExpr.Escape
import SmtDialogue.Text.Quoted

/-!
# Digits read back

Numbers are written by the digits of core and read by the digits of this library.
The two agree in every base up to sixteen, leading zeros do not count, and the
code point of a character, in digits of either case, reads back as that character.
-/

namespace SmtDialogue.Numeral

theorem digitValue?_digitChar : ∀ n, n < 16 → digitValue? n.digitChar = some n := by
  decide

theorem digit?_digitChar {base n : Nat} (small : base ≤ 16) (h : n < base) :
    digit? base n.digitChar = some n := by
  simp [digit?, digitValue?_digitChar n (by omega), h]

theorem value_append_singleton (base : Nat) (ds : List Nat) (d : Nat) :
    value base (ds ++ [d]) = value base ds * base + d := by
  simp [value]

/-- The digits of a number are digits of its base, and are worth the number. -/
theorem toDigits_eq_map {base : Nat} (hb : 1 < base) (n : Nat) :
    ∃ ds, Nat.toDigits base n = ds.map Nat.digitChar ∧ (∀ d ∈ ds, d < base) ∧
      value base ds = n := by
  induction n using Nat.strongRecOn with
  | ind n ih =>
    by_cases h : n < base
    · refine ⟨[n], Nat.toDigits_of_lt_base h, by simpa using h, by simp [value]⟩
    · have shorter : n / base < n := Nat.div_lt_self (by omega) hb
      obtain ⟨ds, written, small, worth⟩ := ih _ shorter
      have last : n % base < base := Nat.mod_lt _ (by omega)
      refine ⟨ds ++ [n % base], ?_, ?_, ?_⟩
      · rw [Nat.toDigits_of_base_le hb (by omega), written, List.map_append, List.map_singleton]
      · intro d member
        rcases List.mem_append.mp member with member | member
        · exact small d member
        · exact List.mem_singleton.mp member ▸ last
      · rw [value_append_singleton, worth, Nat.div_add_mod']

theorem mapM_digit?_map {base : Nat} (small : base ≤ 16) {ds : List Nat}
    (digits : ∀ d ∈ ds, d < base) : (ds.map Nat.digitChar).mapM (digit? base) = some ds := by
  induction ds with
  | nil => rfl
  | cons d ds ih =>
    have first := digit?_digitChar small (digits d List.mem_cons_self)
    have others := ih fun e member => digits e (List.mem_cons_of_mem d member)
    simp [first, others]

theorem mapM_digit?_toDigits {base : Nat} (hb : 1 < base) (small : base ≤ 16) (n : Nat) :
    ∃ ds, (Nat.toDigits base n).mapM (digit? base) = some ds ∧ value base ds = n := by
  obtain ⟨ds, written, digits, worth⟩ := toDigits_eq_map hb n
  exact ⟨ds, written ▸ mapM_digit?_map small digits, worth⟩

/-- Digits are worth what they are as coefficients, least significant first. -/
theorem value_eq_ofDigits (base : Nat) (ds : List Nat) :
    value base ds = Nat.ofDigits base ds.reverse := by
  induction ds using List.reverseRecOn with
  | nil => rfl
  | append_singleton ds d ih =>
    rw [value_append_singleton, List.reverse_append, List.reverse_singleton,
      List.singleton_append, Nat.ofDigits_cons, ih]
    ring

/-- Zeros in front change neither that digits are read nor what they are worth. -/
theorem mapM_digit?_padded {base : Nat} (hb : 1 < base) (small : base ≤ 16) (width n : Nat) :
    ∃ ds, (padded base width n).mapM (digit? base) = some ds ∧ value base ds = n := by
  obtain ⟨ds, read, worth⟩ := mapM_digit?_toDigits hb small n
  have zero : digit? base '0' = some 0 := digit?_digitChar (n := 0) small (by omega)
  have zeros : ∀ k, (List.replicate k '0').mapM (digit? base) = some (List.replicate k 0) := by
    intro k
    induction k with
    | zero => rfl
    | succ k ih => simp [List.replicate_succ, zero, ih]
  refine ⟨List.replicate (width - (Nat.toDigits base n).length) 0 ++ ds, ?_, ?_⟩
  · simp [padded, List.mapM_append, zeros, read]
  · have start : ∀ k, (List.replicate k 0).foldl (fun acc d => acc * base + d) 0 = 0 := by
      intro k
      induction k with
      | zero => rfl
      | succ k ih => simpa [List.replicate_succ] using ih
    simpa [value, List.foldl_append, start] using worth

theorem padded_ne_nil (base width n : Nat) : padded base width n ≠ [] := by
  simp [padded]

theorem length_padded {base width n : Nat} (hb : 1 < base) (positive : 0 < width)
    (h : n < Nat.pow base width) : (padded base width n).length = width := by
  have fits : (Nat.toDigits base n).length ≤ width :=
    (Nat.length_toDigits_le_iff hb positive).mpr h
  simp only [padded, List.length_append, List.length_replicate]
  omega

/-- Every character of a numeral is a digit of its base. -/
theorem exists_digit_of_mem {base : Nat} {cs : List Char} {ds : List Nat}
    (read : cs.mapM (digit? base) = some ds) {c : Char} (hc : c ∈ cs) :
    ∃ d, digit? base c = some d := by
  induction cs generalizing ds with
  | nil => simp at hc
  | cons a rest ih =>
    simp only [List.mapM_cons, Option.bind_eq_bind, Option.bind_eq_some_iff] at read
    obtain ⟨d, first, ds, tail, _⟩ := read
    rcases List.mem_cons.mp hc with rfl | hc
    · exact ⟨d, first⟩
    · exact ih tail hc

theorem ne_of_digit? {base d : Nat} {a c : Char} (h : digit? base c = some d)
    (no : digitValue? a = none) : c ≠ a := by
  rintro rfl
  simp [digit?, no] at h

/-- Digits alone are a numeral: no sign and no separator is among them. -/
theorem readInt?_of_digits {base : Nat} {cs : List Char} {ds : List Nat}
    (read : cs.mapM (digit? base) = some ds) (nonempty : cs ≠ []) :
    readInt? base cs = some (value base ds : Int) := by
  have plain : ∀ a, digitValue? a = none → ∀ c ∈ cs, c ≠ a := by
    intro a no c hc
    obtain ⟨d, hd⟩ := exists_digit_of_mem read hc
    exact ne_of_digit? hd no
  have plus := plain '+' (by decide)
  have minus := plain '-' (by decide)
  have separator := plain '_' (by decide)
  have kept : cs.filter (· != '_') = cs := by
    simpa [List.filter_eq_self] using separator
  cases cs with
  | nil => exact absurd rfl nonempty
  | cons c rest =>
    have hplus : c ≠ '+' := plus c List.mem_cons_self
    have hminus : c ≠ '-' := minus c List.mem_cons_self
    have hseparator : c ≠ '_' := separator c List.mem_cons_self
    have natural : readNat? base (c :: rest) = some (value base ds) := by
      simp [readNat?, dropPlus, hplus, hseparator, kept, read]
    simp [readInt?, hminus, natural]

theorem readInt?_padded {base : Nat} (hb : 1 < base) (small : base ≤ 16) (width n : Nat) :
    readInt? base (padded base width n) = some (n : Int) := by
  obtain ⟨ds, read, worth⟩ := mapM_digit?_padded hb small width n
  rw [readInt?_of_digits read (padded_ne_nil base width n), worth]

theorem isDigit_of_mem_toDigits {n : Nat} {c : Char} (h : c ∈ Nat.toDigits 10 n) :
    isDigit c = true := by
  have digit := Nat.isDigit_of_mem_toDigits (by decide) (by decide) h
  simp only [Char.isDigit, Bool.and_eq_true, decide_eq_true_eq] at digit
  simpa [isDigit, Char.le_def] using digit

theorem isDigits_toDigits (n : Nat) : isDigits (Nat.toDigits 10 n) = true := by
  simp only [isDigits, Bool.and_eq_true, List.all_eq_true]
  exact ⟨by simp, fun c hc => isDigit_of_mem_toDigits hc⟩

theorem digitChar_of_isDigit {c : Char} (digit : isDigit c = true) :
    c.toNat - '0'.toNat < 10 ∧ Nat.digitChar (c.toNat - '0'.toNat) = c := by
  simp only [isDigit, Bool.and_eq_true, decide_eq_true_eq, Char.le_def, UInt32.le_iff_toNat_le]
    at digit
  have low : 48 ≤ c.toNat := digit.1
  have high : c.toNat ≤ 57 := digit.2
  have zero : '0'.toNat = 48 := rfl
  refine ⟨by omega, Char.toNat_inj.mp ?_⟩
  rw [Nat.toNat_digitChar_of_lt_ten (by omega)]
  omega

theorem decimal_eq_ofDigitChars (cs : List Char) : decimal cs = Nat.ofDigitChars 10 cs 0 := by
  simp only [decimal, value, List.foldl_map, Nat.ofDigitChars_eq_foldl, Nat.mul_comm]

theorem decimal_toDigits (n : Nat) : decimal (Nat.toDigits 10 n) = n := by
  rw [decimal_eq_ofDigitChars, Nat.ofDigitChars_ten_toDigits]

theorem ne_of_isDigit {a c : Char} (h : isDigit c = true) (no : isDigit a = false) : c ≠ a := by
  rintro rfl
  simp [no] at h

end SmtDialogue.Numeral

namespace SmtDialogue

/-- A hexadecimal digit of either case. -/
def IsHexDigit (a : Char) (d : Nat) : Prop :=
  d < 16 ∧ (a = d.digitChar ∨ a = d.digitChar.toUpper)

/-- One or more hexadecimal digits, most significant first, that write the code point of
a character. -/
def IsHexCode (digits : List Char) (c : Char) : Prop :=
  digits ≠ [] ∧ ∃ ds, List.Forall₂ IsHexDigit digits ds ∧ Nat.ofDigits 16 ds.reverse = c.toNat

namespace Numeral

theorem digit?_of_isHexDigit {a : Char} {d : Nat} (digit : IsHexDigit a d) :
    digit? 16 a = some d := by
  have upper : ∀ d < 16, digit? 16 d.digitChar.toUpper = some d := by decide
  obtain ⟨small, rfl | rfl⟩ := digit
  · exact digit?_digitChar (by decide) small
  · exact upper d small

theorem mapM_digit?_of_isHexDigit {cs : List Char} {ds : List Nat}
    (digits : List.Forall₂ IsHexDigit cs ds) : cs.mapM (digit? 16) = some ds := by
  induction digits with
  | nil => rfl
  | cons first _ ih => simp [digit?_of_isHexDigit first, ih]

end Numeral

theorem Escape.scalar?_toNat (c : Char) : scalar? c.toNat = some c := by
  have valid : c.toNat.isValidChar := c.valid
  have same := Char.ofNat_toNat c
  simp only [Char.ofNat, valid, ↓reduceDIte] at same
  simp only [scalar?, valid, ↓reduceDIte, same]

namespace IsHexCode

variable {digits : List Char} {c : Char}

/-- The code point as it is printed. -/
theorem hexCode (c : Char) : IsHexCode (Text.hexCode c) c := by
  obtain ⟨ds, written, small, worth⟩ := Numeral.toDigits_eq_map (by decide : 1 < 16) c.toNat
  refine ⟨Nat.toDigits_ne_nil, ds, ?_, by rw [← Numeral.value_eq_ofDigits, worth]⟩
  rw [Text.hexCode, written, List.forall₂_map_left_iff, List.forall₂_same]
  exact fun d member => ⟨small d member, .inl rfl⟩

theorem ne_of_mem (code : IsHexCode digits c) {a b : Char} (member : b ∈ digits)
    (no : Numeral.digitValue? a = none) : b ≠ a := by
  obtain ⟨_, ds, each, _⟩ := code
  obtain ⟨d, digit⟩ :=
    Numeral.exists_digit_of_mem (Numeral.mapM_digit?_of_isHexDigit each) member
  exact Numeral.ne_of_digit? digit no

/-- The code point of a character names it. -/
theorem character? (code : IsHexCode digits c) : Escape.character? digits = some c := by
  obtain ⟨nonempty, ds, each, worth⟩ := id code
  have read := Numeral.mapM_digit?_of_isHexDigit each
  obtain ⟨a, rest, rfl⟩ := List.exists_cons_of_ne_nil nonempty
  have unsigned : a ≠ '+' := code.ne_of_mem List.mem_cons_self (by decide)
  have value : Numeral.value 16 ds = c.toNat := by rw [Numeral.value_eq_ofDigits, worth]
  simp [Escape.character?, unsigned, read, value, Escape.scalar?_toNat]

end IsHexCode

end SmtDialogue
