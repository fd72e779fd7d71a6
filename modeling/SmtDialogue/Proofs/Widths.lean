import SmtDialogue.Proofs.States

/-!
# Computing widths

While it reads, the reader computes widths in 32 bits in two places. A literal in base two
or sixteen gets the number of its digits, times the bits of one. When a floating-point
word is closed, the width of its fraction is counted up by one, for the sign that the
significand has in front. The first kind of number is small when the text is. The second
one is as large as a width that is written in the text, and the largest width of 32 bits
has no successor among them, so reading ends there.
-/

namespace SmtDialogue

open String (utf8Len)
open SExpr (Frames Origin)

namespace SExpr

/-- The widths that the reader computes: for a literal it comes to whose digits are read,
and for the significand of a floating-point word that it closes. -/
inductive Computes (many : Bool) (text : String) : Nat → Prop where
  | binary {before digits after : List Char} {frames : Frames} {rest : List Lexeme}
      (split : text.toList = before ++ ('#' :: 'b' :: digits) ++ after)
      (reached : Reached many text frames
        (⟨utf8Len before, Token.ofWord (utf8Len before) ('#' :: 'b' :: digits)⟩ :: rest))
      (read : (Numeral.readInt? 2 digits).isSome) : Computes many text (utf8Len digits * 1)
  | hexadecimal {before digits after : List Char} {frames : Frames} {rest : List Lexeme}
      (split : text.toList = before ++ ('#' :: 'x' :: digits) ++ after)
      (reached : Reached many text frames
        (⟨utf8Len before, Token.ofWord (utf8Len before) ('#' :: 'x' :: digits)⟩ :: rest))
      (read : (Numeral.readInt? 16 digits).isSome) : Computes many text (utf8Len digits * 4)
  | significand {items : List SExpr} {width : UInt32} (closes : Closes many text items)
      (word : IsFieldwise width items) : Computes many text (width.toNat + 1)

end SExpr

namespace SizedLiteral

variable {text : String}

/-- In a short text every literal has the width it is written with. The digits of one have
less than 2³⁰ bits; only a width that is written apart can be larger. -/
theorem bits_of_standsIn (short : text.utf8ByteSize < 2 ^ 28) {l : SizedLiteral}
    (stands : l.StandsIn text) :
    l.width.toNat = l.bits ∧ (l.bits < 2 ^ 30 ∨ ∃ digits size, l = .indexed digits size) := by
  rw [toNat_width]
  cases stands with
  | binary split _ =>
    have below := utf8Len_digits_lt split
    simp only [bits, UInt32.size]
    omega
  | hexadecimal split _ =>
    have below := utf8Len_digits_lt split
    simp only [bits, UInt32.size]
    omega
  | indexed _ sized _ =>
    obtain ⟨small, _⟩ := SExpr.natBelow?_eq_some.mp sized
    exact ⟨Nat.mod_eq_of_lt small, .inr ⟨_, _, rfl⟩⟩

/-- The largest width is not the number of the bits of any digits of a short text. -/
theorem eq_indexed_of_width (short : text.utf8ByteSize < 2 ^ 28) {l : SizedLiteral}
    (stands : l.StandsIn text) (largest : l.width = 4294967295) :
    ∃ digits, l = .indexed digits 4294967295 := by
  obtain ⟨exact, small⟩ := bits_of_standsIn short stands
  rw [largest] at exact
  have bits : l.bits = 4294967295 := exact.symm
  rcases small with small | ⟨digits, size, rfl⟩
  · omega
  · exact ⟨digits, congrArg (indexed digits) bits⟩

end SizedLiteral

namespace SExpr

variable {many : Bool} {text : String} {items : List SExpr} {width : UInt32}

/-- What stands in an application that the reader closes comes from the lexemes. -/
theorem Closes.origin (closes : Closes many text items) {a : Atom}
    (member : a ∈ atomsList items) : Origin a (Lexeme.ofText text) := by
  obtain ⟨frames, l, rest, reached, _⟩ := closes
  obtain ⟨before, ls, split, opened⟩ := reached.opened
  cases opened with
  | @inside ls inner frames opener items outer opening reads =>
    rw [List.reverse_reverse] at reads
    have origin := (reads.origin member).within (before ++ (ls ++ [opener])) (l :: rest)
    rw [split]
    simpa using origin

theorem IsFieldwise.mem_atomsList (word : IsFieldwise width items) :
    ∃ fraction, Atom.int fraction (some width) ∈ atomsList items := by
  cases word with
  | @fields sign exponent fraction => exact ⟨fraction, by simp [atomsList, atoms]⟩

/-- The width of the fraction of a word is one of a literal of the text. -/
theorem Closes.exists_literal (closes : Closes many text items) (word : IsFieldwise width items) :
    ∃ l : SizedLiteral, l.StandsIn text ∧ l.width = width := by
  obtain ⟨fraction, member⟩ := word.mem_atomsList
  obtain ⟨l, stands, _, same⟩ := SizedLiteral.exists_of_origin (closes.origin member)
  exact ⟨l, stands, same⟩

/-- In a short text a width that is computed is small, or the successor of another one. -/
theorem Computes.cases (short : text.utf8ByteSize < 2 ^ 28) {n : Nat}
    (computes : Computes many text n) :
    n < 2 ^ 30 ∨ ∃ items width, Closes many text items ∧ IsFieldwise width items ∧
      n = width.toNat + 1 := by
  cases computes with
  | binary split _ _ =>
    have below := SizedLiteral.utf8Len_digits_lt split
    omega
  | hexadecimal split _ _ =>
    have below := SizedLiteral.utf8Len_digits_lt split
    omega
  | @significand items width closes word => exact .inr ⟨items, width, closes, word, rfl⟩

/-- In a short text every width fits in 32 bits, unless a word is closed whose fraction has
the largest width there is. Only a literal that names this width can have it, and then the
reader overflows. It overflows nowhere else but at a polynomial with too many coefficients. -/
theorem computes_lt_iff (short : text.utf8ByteSize < 2 ^ 28) :
    ((∀ n, Computes many text n → n < UInt32.size) ↔
        ∀ items, Closes many text items → ¬IsFieldwise 4294967295 items) ∧
      (∀ n, Computes many text n → n ≤ UInt32.size) ∧
      (∀ l : SizedLiteral, l.StandsIn text → l.width.toNat = l.bits) ∧
      (∀ items, Closes many text items → IsFieldwise 4294967295 items →
        (∃ start, OverflowsAt many text start) ∧
          ∃ digits, (SizedLiteral.indexed digits 4294967295).StandsIn text) ∧
      ∀ start, OverflowsAt many text start → ∃ items, Closes many text items ∧
        (IsFieldwise 4294967295 items ∨ ∃ p index,
          items = [.atom (.symbol "root-obj"), p, index] ∧ polynomialOverflows p = true) := by
  have size : UInt32.size = 4294967296 := rfl
  refine ⟨⟨fun fits items closes word => ?_, fun none n computes => ?_⟩, fun n computes => ?_,
    fun l stands => (SizedLiteral.bits_of_standsIn short stands).1, fun items closes word => ?_,
    fun start overflows => overflows.exists_closes (by omega)⟩
  · exact Nat.lt_irrefl _ (fits _ (.significand closes word))
  · rcases computes.cases short with small | ⟨items, width, closes, word, rfl⟩
    · omega
    · have other : width.toNat ≠ 4294967295 := by
        intro largest
        obtain rfl : width = 4294967295 := UInt32.toNat_inj.mp largest
        exact none items closes word
      have below := width.toNat_lt
      omega
  · rcases computes.cases short with small | ⟨_, width, _, _, rfl⟩
    · omega
    · exact width.toNat_lt
  · obtain ⟨l, stands, largest⟩ := closes.exists_literal word
    obtain ⟨digits, rfl⟩ := SizedLiteral.eq_indexed_of_width short stands largest
    exact ⟨closes.overflowsAt (foldOverflows_iff.mpr (.inl word)), digits, stands⟩

/-- A word whose fraction has the largest width. -/
def widest : String := "(fp #b0 #x00 (_ bv0 4294967295))"

theorem closes_widest : Closes false widest
    [.atom (.symbol "fp"), .atom (.int 0 (some 1)), .atom (.int 0 (some 8)),
      .atom (.int 0 (some 4294967295))] := by
  have lexemes : Lexeme.ofText widest = [⟨0, .opening⟩, ⟨1, .atom (.symbol "fp")⟩,
      ⟨4, .atom (.int 0 (some 1))⟩, ⟨8, .atom (.int 0 (some 8))⟩, ⟨13, .opening⟩,
      ⟨14, .atom (.symbol "_")⟩, ⟨16, .atom (.symbol "bv0")⟩,
      ⟨20, .atom (.int 4294967295 none)⟩, ⟨30, .closing⟩, ⟨31, .closing⟩] := by
    decide +kernel
  have begun := @Reached.start false widest
  rw [lexemes] at begun
  have inside := ((((((((begun.inside rfl).inside rfl).inside rfl).inside rfl).inside rfl).inside
    rfl).inside rfl).inside rfl).inside rfl
  exact ⟨[], _, _, inside, rfl⟩

theorem isFieldwise_widest : IsFieldwise 4294967295
    [.atom (.symbol "fp"), .atom (.int 0 (some 1)), .atom (.int 0 (some 8)),
      .atom (.int 0 (some 4294967295))] :=
  .fields (by decide) (by decide) (by decide)

/-- One literal of this text names the largest width, some width does not fit, and the reader
ends where the word does. -/
theorem computes_lt_iff_widest :
    widest.utf8ByteSize < 2 ^ 28 ∧ (¬∀ n, Computes false widest n → n < UInt32.size) ∧
      (∃ digits, (SizedLiteral.indexed digits 4294967295).StandsIn widest) ∧
      parse widest = .error ⟨⟨31, .overflow⟩, widest⟩ := by
  have short : widest.utf8ByteSize < 2 ^ 28 := by decide
  obtain ⟨fits, _, _, named, _⟩ := @computes_lt_iff false widest short
  exact ⟨short, fun all => fits.mp all _ closes_widest isFieldwise_widest,
    (named _ closes_widest isFieldwise_widest).2, by decide +kernel⟩

/-- The reader computes a width that does not fit in 32 bits. -/
theorem widest_overflows :
    ¬∀ text : String, text.utf8ByteSize < 2 ^ 28 →
      ∀ n, Computes false text n → n < UInt32.size := by
  intro fits
  have computed : Computes false widest 4294967296 := .significand closes_widest isFieldwise_widest
  exact Nat.lt_irrefl _ (fits widest (by decide) _ computed)

end SExpr

end SmtDialogue
