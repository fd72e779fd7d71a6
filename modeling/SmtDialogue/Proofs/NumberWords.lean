import SmtDialogue.Proofs.Words

/-!
# Words that write numbers

A number is written with an optional minus sign, one or more digits, perhaps a point and
digits behind it, and perhaps a question mark for an approximation. The digits before the
point count powers of ten and those behind it powers of one tenth. A word is read as a
number exactly when it is written so, and as the number it writes; any other word is a
keyword or a symbol.
-/

namespace SmtDialogue

namespace Numeral

/-- Decimal digits as they are written. -/
def digitChars (ds : List (Fin 10)) : List Char :=
  ds.map fun d : Fin 10 => d.val.digitChar

/-- The point and the digits behind it, where there is one. -/
def pointed : Option (List (Fin 10)) → List Char
  | none => []
  | some ds => '.' :: digitChars ds

/-- What the digits before and behind a point are worth. -/
def worth (whole fraction : List (Fin 10)) : Rat :=
  (Nat.ofDigits 10 (whole.map Fin.val).reverse : Nat) +
    Nat.ofDigits (10⁻¹ : Rat) (0 :: fraction.map Fin.val)

theorem isDigit_digitChar : ∀ d : Fin 10, isDigit d.val.digitChar = true := by
  decide

theorem all_isDigit_iff {cs : List Char} :
    cs.all isDigit = true ↔ ∃ ds, digitChars ds = cs := by
  constructor
  · intro digits
    induction cs with
    | nil => exact ⟨[], rfl⟩
    | cons c cs ih =>
      rw [List.all_cons, Bool.and_eq_true] at digits
      obtain ⟨small, same⟩ := digitChar_of_isDigit digits.1
      obtain ⟨ds, rfl⟩ := ih digits.2
      exact ⟨⟨_, small⟩ :: ds, congrArg (· :: digitChars ds) same⟩
  · rintro ⟨ds, rfl⟩
    simp [digitChars, isDigit_digitChar]

theorem isDigits_iff {cs : List Char} :
    isDigits cs = true ↔ ∃ ds, ds ≠ [] ∧ digitChars ds = cs := by
  rw [isDigits, Bool.and_eq_true, all_isDigit_iff]
  constructor
  · rintro ⟨nonempty, ds, rfl⟩
    exact ⟨ds, by simpa [digitChars] using nonempty, rfl⟩
  · rintro ⟨ds, nonempty, rfl⟩
    exact ⟨by simpa [digitChars] using nonempty, ds, rfl⟩

theorem ne_of_mem_digitChars {ds : List (Fin 10)} {a c : Char} (member : c ∈ digitChars ds)
    (no : isDigit a = false) : c ≠ a :=
  ne_of_isDigit (List.all_eq_true.mp (all_isDigit_iff.mpr ⟨ds, rfl⟩) c member) no

theorem decimal_digitChars (ds : List (Fin 10)) :
    decimal (digitChars ds) = Nat.ofDigits 10 (ds.map Fin.val).reverse := by
  have each : ∀ d : Fin 10, d.val.digitChar.toNat - '0'.toNat = d.val := by decide
  rw [decimal, digitChars, List.map_map, value_eq_ofDigits]
  congr 2
  exact List.map_congr_left fun d _ => each d

/-- A number whose digits all stand behind the point, as a quotient. -/
theorem ofDigits_tenths (ns : List Nat) :
    Nat.ofDigits (10⁻¹ : Rat) (0 :: ns) =
      (Nat.ofDigits 10 ns.reverse : Nat) / 10 ^ ns.length := by
  induction ns with
  | nil => simp [Nat.ofDigits]
  | cons n ns ih =>
    -- The digits behind the first one are worth a tenth of what they were by themselves.
    have step : Nat.ofDigits (10⁻¹ : Rat) (0 :: n :: ns) =
        10⁻¹ * (n + Nat.ofDigits (10⁻¹ : Rat) (0 :: ns)) := by
      simp [Nat.ofDigits]
    rw [step, ih, Nat.ofDigits_reverse_cons, List.length_cons]
    push_cast
    field_simp
    ring

/-- The digits on both sides of the point, taken as one number and divided. -/
theorem mkRat_decimal (whole fraction : List (Fin 10)) :
    mkRat (decimal (digitChars whole ++ digitChars fraction)) (Nat.pow 10 fraction.length) =
      worth whole fraction := by
  have joined : digitChars whole ++ digitChars fraction = digitChars (whole ++ fraction) :=
    List.map_append.symm
  have divided : ∀ k f w : Nat, mkRat ((f + 10 ^ k * w : Nat) : Int) (10 ^ k) = w + f / 10 ^ k := by
    intro k f w
    rw [Rat.mkRat_eq_div]
    push_cast
    field_simp
    ring
  rw [joined, decimal_digitChars, List.map_append, List.reverse_append, Nat.ofDigits_append, worth,
    ofDigits_tenths, List.length_reverse, List.length_map, Nat.pow_eq]
  exact divided _ _ _

theorem ofDigits_append_zeros {α : Type} [Semiring α] (b : α) (ns : List Nat) (k : Nat) :
    Nat.ofDigits b (ns ++ List.replicate k 0) = Nat.ofDigits b ns := by
  have zeros : Nat.ofDigits b (List.replicate k 0) = 0 := by
    induction k with
    | zero => rfl
    | succ k ih => simp [List.replicate_succ, Nat.ofDigits, ih]
  induction ns with
  | nil => exact zeros
  | cons n ns ih => simp [Nat.ofDigits, ih]

/-- Zeros in front of the digits and behind those of the fraction count for nothing. -/
theorem worth_padded (leading trailing : Nat) (whole fraction : List (Fin 10)) :
    worth (List.replicate leading 0 ++ whole) (fraction ++ List.replicate trailing 0) =
      worth whole fraction := by
  have before : ((List.replicate leading 0 ++ whole).map Fin.val).reverse =
      (whole.map Fin.val).reverse ++ List.replicate leading 0 := by simp
  have behind : 0 :: (fraction ++ List.replicate trailing 0).map Fin.val =
      (0 :: fraction.map Fin.val) ++ List.replicate trailing 0 := by simp
  rw [worth, before, behind, ofDigits_append_zeros, ofDigits_append_zeros, worth]

end Numeral

/-- The parts of a word that writes a number. -/
structure NumberWord where
  negative : Bool
  whole : List (Fin 10)
  nonempty : whole ≠ []
  fraction : Option (List (Fin 10))
  approximate : Bool

namespace NumberWord

open Numeral

/-- The word up to the question mark. -/
def body (w : NumberWord) : List Char :=
  (if w.negative then ['-'] else []) ++ (digitChars w.whole ++ pointed w.fraction)

def chars (w : NumberWord) : List Char :=
  w.body ++ if w.approximate then ['?'] else []

/-- Only digits, behind the sign if there is one. -/
def IsInteger (w : NumberWord) : Prop :=
  w.fraction = none ∧ w.approximate = false

def value (w : NumberWord) : Rat :=
  if w.negative then -worth w.whole (w.fraction.getD []) else worth w.whole (w.fraction.getD [])

def real (w : NumberWord) : AlgReal :=
  if w.approximate then .approximate w.value else .exact w.value

/-- The same word with further zeros in front of the digits and behind those of the
fraction. -/
def padded (w : NumberWord) (leading trailing : Nat) : NumberWord where
  negative := w.negative
  whole := List.replicate leading 0 ++ w.whole
  nonempty := by simp [w.nonempty]
  fraction := w.fraction.map (· ++ List.replicate trailing 0)
  approximate := w.approximate

variable {w : NumberWord} {cs : List Char}

theorem isInteger_padded (leading trailing : Nat) :
    (w.padded leading trailing).IsInteger ↔ w.IsInteger := by
  simp [IsInteger, padded]

theorem value_padded (w : NumberWord) (leading trailing : Nat) :
    (w.padded leading trailing).value = w.value := by
  have same : worth (w.padded leading trailing).whole
      ((w.padded leading trailing).fraction.getD []) =
      worth w.whole (w.fraction.getD []) := by
    cases fraction : w.fraction with
    | none => simpa [padded, fraction] using worth_padded leading 0 w.whole []
    | some ds => simpa [padded, fraction] using worth_padded leading trailing w.whole ds
  rw [value, same]
  rfl

theorem real_padded (w : NumberWord) (leading trailing : Nat) :
    (w.padded leading trailing).real = w.real := by
  rw [real, value_padded]
  rfl

/-- Nothing but signs, digits and points stands in front of the question mark. -/
theorem cases_of_mem_body {c : Char} (member : c ∈ w.body) :
    c = '-' ∨ c = '.' ∨ isDigit c = true := by
  have digit : ∀ {ds : List (Fin 10)}, c ∈ digitChars ds → isDigit c = true :=
    fun {ds} inside => List.all_eq_true.mp (all_isDigit_iff.mpr ⟨ds, rfl⟩) c inside
  rw [body, List.mem_append, List.mem_append] at member
  rcases member with sign | whole | behind
  · cases negative : w.negative with
    | true => exact .inl (by simpa [negative] using sign)
    | false => simp [negative] at sign
  · exact .inr (.inr (digit whole))
  · cases fraction : w.fraction with
    | none => simp [pointed, fraction] at behind
    | some ds =>
      rw [fraction, pointed] at behind
      rcases List.mem_cons.mp behind with point | others
      · exact .inr (.inl point)
      · exact .inr (.inr (digit others))

theorem question_notMem_body (w : NumberWord) : '?' ∉ w.body := fun member =>
  absurd (cases_of_mem_body member) (by decide)

theorem colon_notMem_chars (w : NumberWord) : ':' ∉ w.chars := by
  have body : ':' ∉ w.body := fun member => absurd (cases_of_mem_body member) (by decide)
  cases approximate : w.approximate <;> simp [chars, body, approximate]

theorem chars_of_isInteger (integer : w.IsInteger) :
    w.chars = (if w.negative then ['-'] else []) ++ digitChars w.whole := by
  obtain ⟨fraction, approximate⟩ := integer
  simp [chars, body, fraction, approximate, pointed]

/-- An integer is a word without a point and without a question mark. -/
theorem isInteger_iff : w.IsInteger ↔ '.' ∉ w.chars ∧ '?' ∉ w.chars := by
  constructor
  · intro integer
    have absent : ∀ a, isDigit a = false → a ∉ digitChars w.whole := fun a no member =>
      ne_of_mem_digitChars member no rfl
    have point := absent '.' (by decide)
    have question := absent '?' (by decide)
    rw [chars_of_isInteger integer]
    cases w.negative <;> simp [point, question]
  · rintro ⟨point, question⟩
    constructor
    · cases fraction : w.fraction with
      | none => rfl
      | some ds => exact absurd (by simp [chars, body, fraction, pointed]) point
    · cases approximate : w.approximate with
      | false => rfl
      | true => exact absurd (by simp [chars, approximate]) question

theorem exists_digit_of_nonempty : ∃ c rest, digitChars w.whole = c :: rest ∧ isDigit c = true := by
  obtain ⟨d, ds, digits⟩ := List.exists_cons_of_ne_nil w.nonempty
  exact ⟨d.val.digitChar, digitChars ds, by rw [digits]; rfl, isDigit_digitChar d⟩

theorem magnitude?_pointed (w : NumberWord) :
    AlgReal.magnitude? (digitChars w.whole ++ pointed w.fraction) =
      some (worth w.whole (w.fraction.getD [])) := by
  have before : ∀ c ∈ digitChars w.whole, (c != '.') = true := by
    intro c member
    simpa using ne_of_mem_digitChars member (by decide : isDigit '.' = false)
  have first : (digitChars w.whole ++ pointed w.fraction).takeWhile (· != '.') =
      digitChars w.whole := by
    rw [List.takeWhile_append_of_pos before]
    cases w.fraction <;> simp [pointed]
  have behind : ((digitChars w.whole ++ pointed w.fraction).dropWhile (· != '.')).drop 1 =
      digitChars (w.fraction.getD []) := by
    rw [List.dropWhile_append_of_pos before]
    cases w.fraction <;> simp [pointed, digitChars]
  have digits : isDigits (digitChars w.whole) = true := isDigits_iff.mpr ⟨_, w.nonempty, rfl⟩
  have others : (digitChars (w.fraction.getD [])).all isDigit = true := all_isDigit_iff.mpr ⟨_, rfl⟩
  have size : (digitChars (w.fraction.getD [])).length = (w.fraction.getD []).length :=
    List.length_map _
  simp only [AlgReal.magnitude?, first, behind, digits, others, Bool.and_self, if_true, size,
    mkRat_decimal]

theorem exists_of_magnitude? {q : Rat} (read : AlgReal.magnitude? cs = some q) :
    ∃ ds, ds ≠ [] ∧ ∃ fraction, digitChars ds ++ pointed fraction = cs := by
  simp only [AlgReal.magnitude?] at read
  split at read
  · next digits =>
    obtain ⟨whole, others⟩ := Bool.and_eq_true_iff.mp digits
    obtain ⟨ds, nonempty, first⟩ := isDigits_iff.mp whole
    obtain ⟨es, behind⟩ := all_isDigit_iff.mp others
    refine ⟨ds, nonempty, ?_⟩
    rw [first]
    have joined : cs.takeWhile (· != '.') ++ cs.dropWhile (· != '.') = cs :=
      List.takeWhile_append_dropWhile
    -- What is left behind the digits is nothing, or it begins with the point.
    cases rest : cs.dropWhile (· != '.') with
    | nil =>
      rw [rest] at joined
      exact ⟨none, joined⟩
    | cons c tail =>
      have point : c = '.' := by
        simpa [rest] using List.head?_dropWhile_not (· != '.') cs
      rw [rest, point] at joined
      rw [rest, List.drop_one, List.tail_cons] at behind
      exact ⟨some es, by rw [pointed, behind, joined]⟩
  · cases read

/-- The word up to the question mark is read as its value. -/
theorem signed?_body (w : NumberWord) : AlgReal.signed? w.body = some w.value := by
  have magnitude := w.magnitude?_pointed
  cases negative : w.negative with
  | true => simp [body, value, negative, AlgReal.signed?, magnitude]
  | false =>
    obtain ⟨c, rest, digits, digit⟩ := w.exists_digit_of_nonempty
    have sign : c ≠ '-' := ne_of_isDigit digit (by decide)
    rw [digits] at magnitude
    simpa [body, value, negative, AlgReal.signed?, digits, sign] using magnitude

theorem exists_of_signed? {q : Rat} (read : AlgReal.signed? cs = some q) (approximate : Bool) :
    ∃ w : NumberWord, w.approximate = approximate ∧ w.body = cs := by
  unfold AlgReal.signed? at read
  split at read
  · obtain ⟨_, magnitude, _⟩ := Option.map_eq_some_iff.mp read
    obtain ⟨ds, nonempty, fraction, rfl⟩ := exists_of_magnitude? magnitude
    exact ⟨⟨true, ds, nonempty, fraction, approximate⟩, rfl, rfl⟩
  · obtain ⟨ds, nonempty, fraction, rfl⟩ := exists_of_magnitude? read
    exact ⟨⟨false, ds, nonempty, fraction, approximate⟩, rfl, rfl⟩

theorem ofDecimal?_chars (w : NumberWord) : AlgReal.ofDecimal? w.chars = some w.real := by
  have read := w.signed?_body
  cases approximate : w.approximate with
  | true => simp [chars, real, approximate, AlgReal.ofDecimal?, read]
  | false =>
    have last : w.body.getLast? ≠ some '?' := fun last =>
      w.question_notMem_body (List.mem_of_getLast? last)
    simp [chars, real, approximate, AlgReal.ofDecimal?, read, last]

theorem exists_of_ofDecimal? {r : AlgReal} (read : AlgReal.ofDecimal? cs = some r) :
    ∃ w : NumberWord, w.chars = cs := by
  rw [AlgReal.ofDecimal?] at read
  split at read
  · next marked =>
    obtain ⟨front, rfl⟩ := List.getLast?_eq_some_iff.mp marked
    obtain ⟨_, signed, _⟩ := Option.map_eq_some_iff.mp read
    rw [List.dropLast_concat] at signed
    obtain ⟨w, approximate, rfl⟩ := exists_of_signed? signed true
    exact ⟨w, by simp [chars, approximate]⟩
  · obtain ⟨_, signed, _⟩ := Option.map_eq_some_iff.mp read
    obtain ⟨w, approximate, rfl⟩ := exists_of_signed? signed false
    exact ⟨w, by simp [chars, approximate]⟩

theorem value_of_isInteger (integer : w.IsInteger) :
    w.value = (if w.negative then -(decimal (digitChars w.whole) : Int)
      else decimal (digitChars w.whole) : Int) := by
  have worth_whole : worth w.whole [] = (decimal (digitChars w.whole) : Int) := by
    simp [worth, decimal_digitChars, Nat.ofDigits]
  rw [value, integer.1, Option.getD_none, worth_whole]
  split <;> simp

theorem integerOfWord?_chars (integer : w.IsInteger) :
    ∃ n : Int, integerOfWord? w.chars = some n ∧ w.value = n := by
  refine ⟨_, ?_, value_of_isInteger integer⟩
  have digits : isDigits (digitChars w.whole) = true := isDigits_iff.mpr ⟨_, w.nonempty, rfl⟩
  rw [chars_of_isInteger integer]
  cases negative : w.negative with
  | true => simp [integerOfWord?, digits]
  | false =>
    obtain ⟨c, rest, first, digit⟩ := w.exists_digit_of_nonempty
    have sign : c ≠ '-' := ne_of_isDigit digit (by decide)
    rw [first] at digits ⊢
    simp [integerOfWord?, digits, sign]

theorem exists_of_integerOfWord? {n : Int} (read : integerOfWord? cs = some n) :
    ∃ w : NumberWord, w.IsInteger ∧ w.chars = cs := by
  unfold integerOfWord? at read
  split at read
  · split at read
    · next digits =>
      obtain ⟨ds, nonempty, rfl⟩ := isDigits_iff.mp digits
      exact ⟨⟨true, ds, nonempty, none, false⟩, ⟨rfl, rfl⟩, chars_of_isInteger ⟨rfl, rfl⟩⟩
    · cases read
  · split at read
    · next digits =>
      obtain ⟨ds, nonempty, rfl⟩ := isDigits_iff.mp digits
      exact ⟨⟨false, ds, nonempty, none, false⟩, ⟨rfl, rfl⟩, chars_of_isInteger ⟨rfl, rfl⟩⟩
    · cases read

end NumberWord

/-- The word is a number in decimal digits, with or without a point. -/
def WritesNumber (cs : List Char) : Prop :=
  ∃ w : NumberWord, w.chars = cs

/-- The word is this integer in decimal digits. -/
def WritesInteger (cs : List Char) (n : Int) : Prop :=
  ∃ w : NumberWord, w.chars = cs ∧ w.IsInteger ∧ w.value = n

/-- The word is a number in decimal digits, and the number is this real. -/
def WritesReal (cs : List Char) (r : AlgReal) : Prop :=
  ∃ w : NumberWord, w.chars = cs ∧ w.real = r

namespace NumberWord

variable {w : NumberWord}

theorem head?_chars (w : NumberWord) : w.chars.head? ≠ some ':' := fun first =>
  w.colon_notMem_chars (List.mem_of_mem_head? first)

/-- Whether a word is an integer can be seen from its characters. -/
theorem isInteger_congr {v : NumberWord} (same : v.chars = w.chars) :
    v.IsInteger ↔ w.IsInteger := by
  rw [isInteger_iff, isInteger_iff, same]

theorem ofWord_of_isInteger (integer : w.IsInteger) :
    ∃ n : Int, Atom.ofWord w.chars = .int n none ∧ w.value = n := by
  obtain ⟨n, read, worth⟩ := integerOfWord?_chars integer
  exact ⟨n, by simp [Atom.ofWord, w.head?_chars, read], worth⟩

theorem ofWord_of_not_isInteger (other : ¬w.IsInteger) : Atom.ofWord w.chars = .real w.real := by
  have none : integerOfWord? w.chars = none := by
    rw [Option.eq_none_iff_forall_ne_some]
    intro n read
    -- The integer read would be another way to come to the same characters.
    obtain ⟨v, integer, same⟩ := exists_of_integerOfWord? read
    exact other ((isInteger_congr same).mp integer)
  simp [Atom.ofWord, w.head?_chars, none, w.ofDecimal?_chars]

theorem writesInteger_iff : (∃ n, WritesInteger w.chars n) ↔ w.IsInteger := by
  constructor
  · rintro ⟨n, v, same, integer, _⟩
    exact (isInteger_congr same).mp integer
  · intro integer
    obtain ⟨n, _, worth⟩ := ofWord_of_isInteger integer
    exact ⟨n, w, rfl, integer, worth⟩

/-- Zeros that are worth nothing do not change what a word is read as. -/
theorem ofWord_padded (w : NumberWord) (leading trailing : Nat) :
    Atom.ofWord (w.padded leading trailing).chars = Atom.ofWord w.chars := by
  have kept : (w.padded leading trailing).IsInteger ↔ w.IsInteger :=
    isInteger_padded leading trailing
  by_cases integer : w.IsInteger
  · obtain ⟨n, read, worth⟩ := ofWord_of_isInteger integer
    obtain ⟨m, readPadded, worthPadded⟩ := ofWord_of_isInteger (kept.mpr integer)
    rw [value_padded, worth] at worthPadded
    rw [read, readPadded, Int.cast_injective worthPadded]
  · rw [ofWord_of_not_isInteger integer, ofWord_of_not_isInteger (kept.not.mpr integer),
      real_padded]

end NumberWord

namespace Atom

variable {cs : List Char}

/-- A word that writes no number is a keyword behind a colon and else a symbol. -/
theorem ofWord_of_not_writesNumber (other : ¬WritesNumber cs) :
    ofWord cs = if cs.head? = some ':' then .keyword (String.ofList cs)
      else .symbol (String.ofList cs) := by
  have integer : integerOfWord? cs = none := by
    rw [Option.eq_none_iff_forall_ne_some]
    intro n read
    obtain ⟨w, _, same⟩ := NumberWord.exists_of_integerOfWord? read
    exact other ⟨w, same⟩
  have decimal : AlgReal.ofDecimal? cs = none := by
    rw [Option.eq_none_iff_forall_ne_some]
    intro r read
    obtain ⟨w, same⟩ := NumberWord.exists_of_ofDecimal? read
    exact other ⟨w, same⟩
  simp [ofWord, integer, decimal]

/-- What a word stands for, told from how it is written. -/
inductive Written (cs : List Char) : Atom → Prop where
  | integer {n : Int} (written : WritesInteger cs n) : Written cs (.int n none)
  | real {r : AlgReal} (noInteger : ∀ n, ¬WritesInteger cs n) (written : WritesReal cs r) :
      Written cs (.real r)
  | keyword (other : ¬WritesNumber cs) (colon : cs.head? = some ':') :
      Written cs (.keyword (String.ofList cs))
  | symbol (other : ¬WritesNumber cs) (plain : cs.head? ≠ some ':') :
      Written cs (.symbol (String.ofList cs))

theorem written_ofWord (cs : List Char) : Written cs (ofWord cs) := by
  by_cases number : WritesNumber cs
  · obtain ⟨w, rfl⟩ := number
    by_cases integer : w.IsInteger
    · obtain ⟨n, read, worth⟩ := NumberWord.ofWord_of_isInteger integer
      rw [read]
      exact .integer ⟨w, rfl, integer, worth⟩
    · rw [NumberWord.ofWord_of_not_isInteger integer]
      exact .real (not_exists.mp (NumberWord.writesInteger_iff.not.mpr integer)) ⟨w, rfl, rfl⟩
  · rw [ofWord_of_not_writesNumber number]
    split
    · next colon => exact .keyword number colon
    · next plain => exact .symbol number plain

/-- A word is read as what it is written as. -/
theorem ofWord_eq_iff {a : Atom} : ofWord cs = a ↔ Written cs a := by
  constructor
  · rintro rfl
    exact written_ofWord cs
  · intro written
    cases written with
    | integer written =>
      obtain ⟨w, rfl, integer, worth⟩ := written
      obtain ⟨m, read, same⟩ := NumberWord.ofWord_of_isInteger integer
      rw [read, Int.cast_injective (same.symm.trans worth)]
    | real noInteger written =>
      obtain ⟨w, rfl, rfl⟩ := written
      exact NumberWord.ofWord_of_not_isInteger
        (NumberWord.writesInteger_iff.not.mp (not_exists.mpr noInteger))
    | keyword other colon => rw [ofWord_of_not_writesNumber other, if_pos colon]
    | symbol other plain => rw [ofWord_of_not_writesNumber other, if_neg plain]

theorem ofWord_eq_int_iff {n : Int} {width : Option UInt32} :
    ofWord cs = .int n width ↔ width = none ∧ WritesInteger cs n := by
  rw [ofWord_eq_iff]
  constructor
  · intro written
    cases written with
    | integer written => exact ⟨rfl, written⟩
  · rintro ⟨rfl, written⟩
    exact .integer written

theorem ofWord_eq_real_iff {r : AlgReal} :
    ofWord cs = .real r ↔ (∀ n, ¬WritesInteger cs n) ∧ WritesReal cs r := by
  rw [ofWord_eq_iff]
  constructor
  · intro written
    cases written with
    | real noInteger written => exact ⟨noInteger, written⟩
  · rintro ⟨noInteger, written⟩
    exact .real noInteger written

theorem ofWord_eq_keyword_iff {s : String} :
    ofWord cs = .keyword s ↔ ¬WritesNumber cs ∧ cs.head? = some ':' ∧ s.toList = cs := by
  rw [ofWord_eq_iff]
  constructor
  · intro written
    cases written with
    | keyword other colon => exact ⟨other, colon, String.toList_ofList⟩
  · rintro ⟨other, colon, rfl⟩
    simpa using Written.keyword other colon

theorem ofWord_eq_symbol_iff {s : String} :
    ofWord cs = .symbol s ↔ ¬WritesNumber cs ∧ cs.head? ≠ some ':' ∧ s.toList = cs := by
  rw [ofWord_eq_iff]
  constructor
  · intro written
    cases written with
    | symbol other plain => exact ⟨other, plain, String.toList_ofList⟩
  · rintro ⟨other, plain, rfl⟩
    simpa using Written.symbol other plain

/-- Signs, points and marks in any other place leave a symbol. -/
example : ofWord "--1".toList = .symbol "--1" ∧ ofWord "-.5".toList = .symbol "-.5" ∧
    ofWord "1.2.3".toList = .symbol "1.2.3" ∧ ofWord "1.5??".toList = .symbol "1.5??" :=
  ⟨rfl, rfl, rfl, rfl⟩

/-- A word that stands alone is an expression. -/
theorem parse_ofWord (unquoted : Spelling.Unquoted cs) (hash : cs.head? ≠ some '#') :
    SExpr.parse (String.ofList cs) = .ok (.atom (ofWord cs)) := by
  have phrase : Phrase (String.ofList cs).toList (.atom (ofWord cs)) := by
    rw [String.toList_ofList]
    exact Phrase.word unquoted fun start => Token.ofWord_of_ne_hash hash start
  exact phrase.parse

/-- The reader takes a word for exactly the number it writes: digits behind a minus sign or
none are an integer, any other number is a real, and every word besides is a keyword or a
symbol with the text of the word. Zeros in front of a number and at the end of a fraction
change nothing. -/
theorem ofWord_iff_writes (cs : List Char) :
    (Spelling.Unquoted cs → cs.head? ≠ some '#' →
      SExpr.parse (String.ofList cs) = .ok (.atom (ofWord cs))) ∧
    (∀ n width, ofWord cs = .int n width ↔ width = none ∧ WritesInteger cs n) ∧
    (∀ r, ofWord cs = .real r ↔ (∀ n, ¬WritesInteger cs n) ∧ WritesReal cs r) ∧
    (∀ s, ofWord cs = .keyword s ↔ ¬WritesNumber cs ∧ cs.head? = some ':' ∧ s.toList = cs) ∧
    (∀ s, ofWord cs = .symbol s ↔ ¬WritesNumber cs ∧ cs.head? ≠ some ':' ∧ s.toList = cs) ∧
    ∀ w : NumberWord, ∀ leading trailing,
      ofWord (w.padded leading trailing).chars = ofWord w.chars :=
  ⟨parse_ofWord, fun _ _ => ofWord_eq_int_iff, fun _ => ofWord_eq_real_iff,
    fun _ => ofWord_eq_keyword_iff, fun _ => ofWord_eq_symbol_iff, NumberWord.ofWord_padded⟩

/-- A negative approximation with zeros at both ends. -/
theorem ofWord_iff_writes_padded :
    Spelling.Unquoted "-007.250?".toList ∧ "-007.250?".toList.head? ≠ some '#' ∧
      SExpr.parse "-007.250?" = .ok (.atom (.real (.approximate (-29 / 4)))) := by
  obtain ⟨parsed, _, real, _⟩ := ofWord_iff_writes "-007.250?".toList
  have unquoted : Spelling.Unquoted "-007.250?".toList :=
    ⟨by decide, by decide, by simp [Lexeme.endsWord, Text.isAsciiBlank]⟩
  have plain : "-007.250?".toList.head? ≠ some '#' := by decide
  have written : WritesReal "-007.250?".toList (.approximate (-29 / 4)) := by
    refine ⟨⟨true, [0, 0, 7], by simp, some [2, 5, 0], true⟩, by decide, ?_⟩
    norm_num [NumberWord.real, NumberWord.value, Numeral.worth, Nat.ofDigits]
  have noInteger : ∀ n, ¬WritesInteger "-007.250?".toList n := by
    rintro n ⟨w, same, integer, _⟩
    rw [NumberWord.isInteger_iff, same] at integer
    exact absurd integer (by decide)
  rw [(real _).mpr ⟨noInteger, written⟩, String.ofList_toList] at parsed
  exact ⟨unquoted, plain, parsed unquoted plain⟩

end Atom

end SmtDialogue
