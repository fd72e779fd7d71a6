import SmtDialogue.Proofs.Phrases

/-!
# Words and small terms

The spellings that literals are put together from: symbols, decimal numbers with
and without a point, bit patterns in base two and sixteen, signs and quotients.
Each comes with the tree it reads as.
-/

namespace SmtDialogue

theorem Lexeme.endsWord_cases {c : Char} (h : endsWord c = true) :
    c = ' ' ∨ c = '\t' ∨ c = '\n' ∨ c = '\x0c' ∨ c = '\r' ∨ c = '(' ∨ c = ')' ∨ c = '"' ∨
      c = ';' := by
  simpa [endsWord, Text.isAsciiBlank, or_assoc] using h

namespace Numeral

/-- A digit of any base may stand inside a word. -/
theorem inWord_of_digitValue? {c : Char} (h : (digitValue? c).isSome = true) :
    Lexeme.endsWord c = false ∧ c ≠ '|' := by
  constructor
  · cases ended : Lexeme.endsWord c with
    | false => rfl
    | true =>
      rcases Lexeme.endsWord_cases ended with
        rfl | rfl | rfl | rfl | rfl | rfl | rfl | rfl | rfl <;> exact absurd h (by decide)
  · rintro rfl
    exact absurd h (by decide)

theorem utf8Size_of_digitValue? {c : Char} {d : Nat} (h : digitValue? c = some d) :
    c.utf8Size = 1 := by
  have small : c ≤ 'z' := by
    simp only [digitValue?] at h
    split at h
    · next range => exact Char.le_trans range.2 (by decide)
    · split at h
      · next range => exact range.2
      · split at h
        · next range => exact Char.le_trans range.2 (by decide)
        · cases h
  have bound : c.val ≤ 127 := UInt32.le_trans small (by decide)
  simp [Char.utf8Size, bound]

theorem digitValue?_of_digit? {base : Nat} {c : Char} {d : Nat} (h : digit? base c = some d) :
    digitValue? c = some d := by
  simp only [digit?, Option.filter_eq_some_iff] at h
  exact h.1

theorem inWord_of_digit? {base : Nat} {c : Char} {d : Nat} (h : digit? base c = some d) :
    Lexeme.endsWord c = false ∧ c ≠ '|' :=
  inWord_of_digitValue? (by rw [digitValue?_of_digit? h]; rfl)

theorem inWord_of_isDigit {c : Char} (h : isDigit c = true) :
    Lexeme.endsWord c = false ∧ c ≠ '|' := by
  simp only [isDigit, Bool.and_eq_true, decide_eq_true_eq] at h
  exact inWord_of_digitValue? (by simp [digitValue?, h])

theorem utf8ByteSize_ofList_digits {base : Nat} {cs : List Char} {ds : List Nat}
    (read : cs.mapM (digit? base) = some ds) : (String.ofList cs).utf8ByteSize = cs.length := by
  have single : ∀ c ∈ cs, c.utf8Size = 1 := by
    intro c hc
    obtain ⟨d, hd⟩ := exists_digit_of_mem read hc
    exact utf8Size_of_digitValue? (digitValue?_of_digit? hd)
  clear read
  induction cs with
  | nil => rfl
  | cons c cs ih =>
    have split : String.ofList (c :: cs) = String.singleton c ++ String.ofList cs := by
      simp
    have tail := ih fun d hd => single d (List.mem_cons_of_mem c hd)
    have head := single c List.mem_cons_self
    rw [split, String.utf8ByteSize_append, tail, String.utf8ByteSize_singleton, head,
      List.length_cons]
    omega

end Numeral

/-- A natural number is written with a width or without one. -/
theorem SExpr.natBelow?_eq_some {bound k : Nat} {e : SExpr} :
    natBelow? bound e = some k ↔ k < bound ∧ ∃ width, e = .atom (.int k width) := by
  constructor
  · intro found
    rw [natBelow?] at found
    split at found
    · next i value =>
      split at found
      · next inRange =>
        obtain ⟨natural, small⟩ := inRange
        obtain ⟨n, rfl⟩ := Int.eq_ofNat_of_zero_le natural
        obtain rfl : n = k := by simpa using found
        refine ⟨by omega, ?_⟩
        cases e with
        | app items => cases value
        | atom a =>
          cases a with
          | int j width =>
            obtain rfl : j = n := by simpa [int?] using value
            exact ⟨width, rfl⟩
          | _ => cases value
      · cases found
    · cases found
  · rintro ⟨small, width, rfl⟩
    have inRange : (0 : Int) ≤ k ∧ (k : Int) < bound := by omega
    simp [natBelow?, int?, inRange.2]

/-- The first character behind an optional minus sign. -/
def leading? (cs : List Char) : Option Char :=
  match cs with
  | '-' :: rest => rest.head?
  | cs => cs.head?

theorem isDigits_eq_false {cs : List Char} (h : ∀ c ∈ cs.head?, Numeral.isDigit c = false) :
    Numeral.isDigits cs = false := by
  cases cs with
  | nil => rfl
  | cons c rest => simp [Numeral.isDigits, h c rfl]

theorem AlgReal.magnitude?_eq_none {cs : List Char}
    (h : ∀ c ∈ cs.head?, Numeral.isDigit c = false) : magnitude? cs = none := by
  have none_before : Numeral.isDigits (cs.takeWhile (· != '.')) = false := by
    apply isDigits_eq_false
    cases cs with
    | nil => simp
    | cons c rest =>
      by_cases point : c = '.'
      · simp [point]
      · simpa [point] using h
  simp [magnitude?, none_before]

theorem AlgReal.signed?_eq_none {cs : List Char}
    (h : ∀ c ∈ leading? cs, Numeral.isDigit c = false) : signed? cs = none := by
  simp only [signed?]
  split
  · next rest => simp [@magnitude?_eq_none rest (by simpa [leading?] using h)]
  · next no_sign =>
    apply magnitude?_eq_none
    simpa only [leading?] using h

/-- A word is a symbol when it neither starts with a colon nor, behind an optional
minus sign, with a digit. -/
theorem Atom.ofWord_eq_symbol {cs : List Char} (colon : cs.head? ≠ some ':')
    (h : ∀ c ∈ leading? cs, Numeral.isDigit c = false) :
    Atom.ofWord cs = .symbol (String.ofList cs) := by
  have no_integer : integerOfWord? cs = none := by
    simp only [integerOfWord?]
    split
    · next rest => simp [@isDigits_eq_false rest (by simpa [leading?] using h)]
    · next no_sign => simp [@isDigits_eq_false cs (by simpa only [leading?] using h)]
  have shorter : ∀ c ∈ leading? cs.dropLast, Numeral.isDigit c = false := by
    cases cs with
    | nil => exact h
    | cons c rest =>
      cases rest with
      | nil => simp [leading?]
      | cons d rest =>
        by_cases sign : c = '-'
        · subst sign
          cases rest with
          | nil => simp [leading?]
          | cons e rest => simpa [leading?] using h
        · simpa [leading?, sign] using h
  have no_decimal : AlgReal.ofDecimal? cs = none := by
    simp [AlgReal.ofDecimal?, AlgReal.signed?_eq_none h, AlgReal.signed?_eq_none shorter]
  simp [Atom.ofWord, colon, no_integer, no_decimal]

theorem Token.ofWord_of_ne_hash {cs : List Char} (hash : cs.head? ≠ some '#') (start : Nat) :
    Token.ofWord start cs = .atom (Atom.ofWord cs) := by
  simp only [Token.ofWord]
  split
  · simp at hash
  · simp at hash
  · simp at hash
  · rfl

namespace Spelling

/-- A word that reads as the symbol of its own text. -/
def bare (name : String) : Spelling := .word name.toList (.symbol name)

/-- What makes a name a bare word. -/
def IsBare (cs : List Char) : Prop :=
  IsWord cs ∧ cs.head? ≠ some '#' ∧ cs.head? ≠ some ':' ∧
    ∀ c ∈ leading? cs, Numeral.isDigit c = false

/-- The test of a bare word, character by character. -/
def isBare (cs : List Char) : Bool :=
  !cs.isEmpty && cs.all (fun c => !Lexeme.endsWord c && c != '|') &&
    cs.head? != some '#' && cs.head? != some ':' && (leading? cs).all fun c => !Numeral.isDigit c

theorem isBare_iff {cs : List Char} : isBare cs = true ↔ IsBare cs := by
  simp [isBare, IsBare, IsWord, and_assoc, Option.all_eq_true]

instance (cs : List Char) : Decidable (IsBare cs) :=
  decidable_of_iff (isBare cs = true) isBare_iff

theorem proper_bare {name : String} (h : IsBare name.toList) : (bare name).Proper := by
  obtain ⟨word, hash, colon, lead⟩ := h
  refine ⟨word, fun start => ?_⟩
  rw [Token.ofWord_of_ne_hash hash, Atom.ofWord_eq_symbol colon lead, String.ofList_toList]

/-- Digits may stand behind the letters of a symbol. -/
theorem isBare_numbered {letters : List Char} (bare : IsBare letters)
    (some : (leading? letters).isSome = true) (n : Nat) :
    IsBare (letters ++ Nat.toDigits 10 n) := by
  obtain ⟨⟨nonempty, inside⟩, hash, colon, lead⟩ := bare
  have head : (letters ++ Nat.toDigits 10 n).head? = letters.head? := by
    simp [List.head?_append_of_ne_nil letters nonempty]
  have first : leading? (letters ++ Nat.toDigits 10 n) = leading? letters := by
    obtain ⟨c, rest, rfl⟩ := List.exists_cons_of_ne_nil nonempty
    by_cases sign : c = '-'
    · subst sign
      obtain ⟨d, others, rfl⟩ : ∃ d others, rest = d :: others := by
        cases rest with
        | nil => simp [leading?] at some
        | cons d others => exact ⟨d, others, rfl⟩
      rfl
    · simp [leading?, sign]
  refine ⟨⟨by simp [nonempty], ?_⟩, head ▸ hash, head ▸ colon, first ▸ lead⟩
  exact List.forall_mem_append.mpr ⟨inside, fun c digit =>
    Numeral.inWord_of_isDigit (Numeral.isDigit_of_mem_toDigits digit)⟩

/-- A natural number in decimal digits. -/
def natural (n : Nat) : Spelling := .word (Nat.toDigits 10 n) (.int n none)

theorem head?_toDigits (n : Nat) :
    ∃ c rest, Nat.toDigits 10 n = c :: rest ∧ Numeral.isDigit c = true := by
  cases digits : Nat.toDigits 10 n with
  | nil => exact absurd digits Nat.toDigits_ne_nil
  | cons c rest =>
    exact ⟨c, rest, rfl, Numeral.isDigit_of_mem_toDigits (digits ▸ List.mem_cons_self)⟩

theorem integerOfWord?_toDigits (n : Nat) :
    integerOfWord? (Nat.toDigits 10 n) = some (n : Int) := by
  obtain ⟨c, rest, digits, hc⟩ := head?_toDigits n
  have sign : c ≠ '-' := Numeral.ne_of_isDigit hc (by decide)
  have all := Numeral.isDigits_toDigits n
  have worth := Numeral.decimal_toDigits n
  rw [digits] at all worth ⊢
  simp [integerOfWord?, sign, all, worth]

theorem proper_natural (n : Nat) : (natural n).Proper := by
  have digits := fun c hc => Numeral.inWord_of_isDigit (Numeral.isDigit_of_mem_toDigits (n := n)
    (c := c) hc)
  refine ⟨⟨Nat.toDigits_ne_nil, digits⟩, ?_⟩
  intro start
  obtain ⟨c, rest, split, hc⟩ := head?_toDigits n
  have hash : c ≠ '#' := Numeral.ne_of_isDigit hc (by decide)
  have colon : c ≠ ':' := Numeral.ne_of_isDigit hc (by decide)
  have integer := integerOfWord?_toDigits n
  rw [Token.ofWord_of_ne_hash (by simp [split, hash])]
  rw [split] at integer ⊢
  simp [Atom.ofWord, colon, integer]

/-- A natural number with a zero behind the point. -/
def decimal (n : Nat) : Spelling :=
  .word (Nat.toDigits 10 n ++ ['.', '0']) (.real (.ofInt n))

theorem magnitude?_decimal (n : Nat) :
    AlgReal.magnitude? (Nat.toDigits 10 n ++ ['.', '0']) = some ((n : Int) : Rat) := by
  have before : ∀ c ∈ Nat.toDigits 10 n, (c != '.') = true := by
    intro c hc
    simpa using Numeral.ne_of_isDigit (a := '.') (Numeral.isDigit_of_mem_toDigits hc) (by decide)
  have whole : (Nat.toDigits 10 n ++ ['.', '0']).takeWhile (· != '.') = Nat.toDigits 10 n := by
    rw [List.takeWhile_append_of_pos before]
    simp
  have behind : (Nat.toDigits 10 n ++ ['.', '0']).dropWhile (· != '.') = ['.', '0'] := by
    rw [List.dropWhile_append_of_pos before]
    simp
  have worth : Numeral.decimal (Nat.toDigits 10 n ++ ['0']) = n * 10 := by
    rw [Numeral.decimal_eq_ofDigitChars, Nat.ofDigitChars_append, Nat.ofDigitChars_ten_toDigits]
    simp [Nat.ofDigitChars_cons, Nat.mul_comm]
  have quotient : mkRat ((n * 10 : Nat) : Int) (Nat.pow 10 1) = ((n : Int) : Rat) := by
    have cancelled := Rat.mkRat_mul_right (n := (n : Int)) (d := 1) (a := 10) (by decide)
    rw [← Rat.mkRat_one]
    simpa using cancelled
  simp only [AlgReal.magnitude?, whole, behind, Numeral.isDigits_toDigits, List.drop_one,
    List.tail_cons, List.length_singleton, worth, quotient]
  rfl

theorem proper_decimal (n : Nat) : (decimal n).Proper := by
  obtain ⟨c, rest, split, hc⟩ := head?_toDigits n
  refine ⟨⟨by simp, ?_⟩, ?_⟩
  · intro d hd
    rcases List.mem_append.mp hd with hd | hd
    · exact Numeral.inWord_of_isDigit (Numeral.isDigit_of_mem_toDigits hd)
    · simp only [List.mem_cons, List.not_mem_nil, or_false] at hd
      rcases hd with rfl | rfl <;> decide
  · intro start
    have hash : c ≠ '#' := Numeral.ne_of_isDigit hc (by decide)
    have colon : c ≠ ':' := Numeral.ne_of_isDigit hc (by decide)
    have sign : c ≠ '-' := Numeral.ne_of_isDigit hc (by decide)
    have point : Numeral.isDigits (Nat.toDigits 10 n ++ ['.', '0']) = false := by
      simp [Numeral.isDigits, Numeral.isDigit]
    have magnitude := magnitude?_decimal n
    rw [Token.ofWord_of_ne_hash (by simp [split, hash])]
    rw [split, List.cons_append] at point magnitude ⊢
    have last : (c :: (rest ++ ['.', '0'])).getLast? = some '0' := by
      rw [← List.cons_append, List.getLast?_append]
      rfl
    simp [Atom.ofWord, colon, integerOfWord?, sign, point, AlgReal.ofDecimal?, last,
      AlgReal.signed?, magnitude, AlgReal.ofInt]

/-- A bit pattern in base two. -/
def binary (width n : Nat) : Spelling :=
  .word ('#' :: 'b' :: Numeral.padded 2 width n) (.int n (some (UInt32.ofNat width)))

/-- A bit pattern in base sixteen, four bits for each digit. -/
def hexadecimal (digits n : Nat) : Spelling :=
  .word ('#' :: 'x' :: Numeral.padded 16 digits n) (.int n (some (UInt32.ofNat (digits * 4))))

theorem isWord_radix {base : Nat} (hb : 1 < base) (small : base ≤ 16) {mark : Char}
    (letter : Lexeme.endsWord mark = false ∧ mark ≠ '|') (width n : Nat) :
    IsWord ('#' :: mark :: Numeral.padded base width n) := by
  obtain ⟨ds, read, _⟩ := Numeral.mapM_digit?_padded hb small width n
  refine ⟨by simp, ?_⟩
  intro c hc
  rcases List.mem_cons.mp hc with rfl | hc
  · decide
  · rcases List.mem_cons.mp hc with rfl | hc
    · exact letter
    · obtain ⟨d, hd⟩ := Numeral.exists_digit_of_mem read hc
      exact Numeral.inWord_of_digit? hd

theorem radixToken_padded {base : Nat} (hb : 1 < base) (small : base ≤ 16) {width n : Nat}
    (positive : 0 < width) (h : n < Nat.pow base width) {bitsPerDigit : Nat}
    (fits : (UInt32.ofNat width).toNat * bitsPerDigit < UInt32.size) (start : Nat)
    (word : List Char) :
    radixToken base bitsPerDigit start word (Numeral.padded base width n) =
      .atom (.int n (some (UInt32.ofNat (width * bitsPerDigit)))) := by
  obtain ⟨ds, read, _⟩ := Numeral.mapM_digit?_padded hb small width n
  have size : (String.ofList (Numeral.padded base width n)).utf8ByteSize = width := by
    rw [Numeral.utf8ByteSize_ofList_digits read, Numeral.length_padded hb positive h]
  have narrow : widthOverflows bitsPerDigit (Numeral.padded base width n) = false := by
    simpa [widthOverflows, size] using fits
  simp only [radixToken, Numeral.readInt?_padded hb small, size, narrow, Bool.false_eq_true,
    if_false]

theorem proper_binary {width n : Nat} (positive : 0 < width) (h : n < Nat.pow 2 width) :
    (binary width n).Proper := by
  refine ⟨isWord_radix (by decide) (by decide) (by decide) width n, fun start => ?_⟩
  have narrow : (UInt32.ofNat width).toNat * 1 < UInt32.size :=
    (Nat.mul_one _).trans_lt (UInt32.toNat_lt_size _)
  have token := radixToken_padded (show 1 < 2 by decide) (by decide) positive h narrow start
    ('#' :: 'b' :: Numeral.padded 2 width n)
  simpa [Token.ofWord] using token

theorem proper_hexadecimal {digits n : Nat} (positive : 0 < digits) (h : n < Nat.pow 16 digits)
    (narrow : digits * 4 < UInt32.size) : (hexadecimal digits n).Proper := by
  refine ⟨isWord_radix (by decide) (by decide) (by decide) digits n, fun start => ?_⟩
  have counted : (UInt32.ofNat digits).toNat = digits :=
    UInt32.toNat_ofNat_of_lt (by omega)
  exact radixToken_padded (by decide) (by decide) positive h (by rw [counted]; exact narrow) start _

/-- A term, negated where it is said to be. -/
def signed (negative : Bool) (s : Spelling) : Spelling :=
  if negative then .list [bare "-", s] else s

theorem proper_signed (negative : Bool) {s : Spelling} (proper : s.Proper) :
    (signed negative s).Proper := by
  cases negative with
  | false => exact proper
  | true => exact ⟨rfl, proper_bare (by decide), proper, trivial⟩

/-- An integer as a term. -/
def integer (i : Int) : Spelling :=
  signed (decide (i < 0)) (natural i.natAbs)

theorem proper_integer (i : Int) : (integer i).Proper :=
  proper_signed _ (proper_natural _)

theorem tree_integer (i : Int) : (integer i).tree = .atom (.int i none) := by
  by_cases negative : i < 0
  · have magnitude : -(i.natAbs : Int) = i := by omega
    simp [integer, signed, negative, natural, bare, tree, treeList, SExpr.fold, SExpr.literal?,
      SExpr.negation?, magnitude, -Nat.cast_natAbs]
  · have magnitude : (i.natAbs : Int) = i := by omega
    simp [integer, signed, negative, natural, tree, magnitude, -Nat.cast_natAbs]

theorem chars_integer (i : Int) : (integer i).chars = (Numeral.integerTerm i).toList := by
  by_cases negative : i < 0
  · simp [integer, signed, negative, natural, bare, chars, charsList, Numeral.integerTerm]
  · simp [integer, signed, negative, natural, chars, Numeral.integerTerm]

/-- The quotient of two natural numbers. -/
def quotient (a b : Nat) : Spelling := .list [bare "/", decimal a, decimal b]

/-- A rational number as a term. -/
def rational (q : Rat) : Spelling :=
  signed (decide (q.num < 0))
    (if q.den = 1 then decimal q.num.natAbs else quotient q.num.natAbs q.den)

theorem proper_rational (q : Rat) : (rational q).Proper := by
  refine proper_signed _ ?_
  split
  · exact proper_decimal _
  · exact ⟨rfl, proper_bare (by decide), proper_decimal _, proper_decimal _, trivial⟩

theorem tree_quotient (a : Nat) {b : Nat} (h : b ≠ 0) :
    (quotient a b).tree = .atom (.real (.exact (mkRat a b))) := by
  have divided : mkRat a b = ((a : Int) : Rat) / ((b : Int) : Rat) := Rat.mkRat_eq_div a b
  simp [quotient, bare, decimal, tree, treeList, SExpr.fold, SExpr.literal?, SExpr.quotient?,
    SExpr.rational?, AlgReal.ofInt, h, divided]

theorem tree_rational (q : Rat) : (rational q).tree = .atom (.real (.exact q)) := by
  have magnitude : (if q.den = 1 then decimal q.num.natAbs else quotient q.num.natAbs q.den).tree =
      .atom (.real (.exact (mkRat q.num.natAbs q.den))) := by
    split
    · next whole => simp [decimal, tree, AlgReal.ofInt, whole, Rat.mkRat_one]
    · exact tree_quotient _ q.den_nz
  by_cases negative : q.num < 0
  · have sign : -(q.num.natAbs : Int) = q.num := by omega
    simp [rational, signed, negative, bare, tree, treeList, magnitude, SExpr.fold, SExpr.literal?,
      SExpr.negation?, AlgReal.neg?, Rat.neg_mkRat, sign, Rat.mkRat_self, -Nat.cast_natAbs]
  · have sign : (q.num.natAbs : Int) = q.num := by omega
    simp [rational, signed, negative, magnitude, sign, Rat.mkRat_self, -Nat.cast_natAbs]

theorem chars_rational (q : Rat) : (rational q).chars = (AlgReal.rationalTerm q).toList := by
  by_cases negative : q.num < 0 <;> by_cases whole : q.den = 1 <;>
    simp [rational, signed, quotient, decimal, bare, negative, whole, chars, charsList,
      AlgReal.rationalTerm]

end Spelling

end SmtDialogue
