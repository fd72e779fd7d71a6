import SmtDialogue.Proofs.Overflows
import SmtDialogue.Proofs.SizedLiterals

/-!
# States of the reader

Between two lexemes the reader knows which applications are open, with their items so far. Where
it ends without a tree and without a malformed text, it has come to a literal whose width
overflows, or closes an application that cannot be folded without an overflow. Literals of this
kind are longer than any answer, and such applications name a width or a polynomial that does not
fit into the machine.
-/

namespace SmtDialogue

open String (utf8Len)

namespace SExpr

/-- The reader comes to these lexemes of the text with these applications open. One that
reads many expressions goes on behind the first. -/
inductive Reached (many : Bool) (text : String) : Frames → List Lexeme → Prop where
  | start : Reached many text [] (Lexeme.ofText text)
  | inside {frames inner : Frames} {l : Lexeme} {rest : List Lexeme}
      (earlier : Reached many text frames (l :: rest))
      (taken : take frames l = .ok (.inside inner)) : Reached many text inner rest
  | outside {frames : Frames} {l : Lexeme} {e : SExpr} {rest : List Lexeme} (more : many = true)
      (earlier : Reached many text frames (l :: rest))
      (taken : take frames l = .ok (.outside e)) : Reached many text [] rest

/-- The reader closes an application with these items. -/
def Closes (many : Bool) (text : String) (items : List SExpr) : Prop :=
  ∃ frames l rest, Reached many text (items.reverse :: frames) (l :: rest) ∧ l.token = .closing

/-- The reader comes to a lexeme that overflows, which a literal does by its width and the end of
an application where the items are folded. -/
inductive OverflowsAt (many : Bool) (text : String) (start : Nat) : Prop where
  | literal {frames : Frames} {l : Lexeme} {rest : List Lexeme}
      (reached : Reached many text frames (l :: rest))
      (overflow : l.token = .fault ⟨start, .overflow⟩) : OverflowsAt many text start
  | application {items : List SExpr} {frames : Frames} {rest : List Lexeme}
      (reached : Reached many text (items.reverse :: frames) (⟨start, .closing⟩ :: rest))
      (overflow : foldOverflows items = true) : OverflowsAt many text start

/-- An application of `fp` to three numbers that fit in 64 bits, of which the first has one
bit and the last has this width. -/
inductive IsFieldwise (width : UInt32) : List SExpr → Prop where
  | fields {sign exponent fraction : Int} {exponentBits : UInt32}
      (hs : 0 ≤ sign ∧ sign < UInt64.size) (he : 0 ≤ exponent ∧ exponent < UInt64.size)
      (hm : 0 ≤ fraction ∧ fraction < UInt64.size) :
      IsFieldwise width [.atom (.symbol "fp"), .atom (.int sign (some 1)),
        .atom (.int exponent (some exponentBits)), .atom (.int fraction (some width))]

variable {many : Bool} {text : String} {items : List SExpr} {start : Nat}

/-- From a state that is reached the reader goes on to what it returns. -/
theorem Reached.readOneFrom {frames : Frames} {rest : List Lexeme}
    (reached : Reached false text frames rest) (size : Nat) :
    SExpr.readOneFrom size [] (Lexeme.ofText text) = SExpr.readOneFrom size frames rest := by
  generalize single : false = many at reached
  induction reached with
  | start => rfl
  | inside _ taken ih => rw [ih, SExpr.readOneFrom, taken]
  | outside more _ _ _ => cases single.trans more

theorem Reached.readAllFrom {frames : Frames} {rest : List Lexeme}
    (reached : Reached true text frames rest) (size : Nat) :
    ∃ es, SExpr.readAllFrom size [] (Lexeme.ofText text) =
      (SExpr.readAllFrom size frames rest).map (es ++ ·) := by
  induction reached with
  | start => exact ⟨[], by cases SExpr.readAllFrom size [] (Lexeme.ofText text) <;> rfl⟩
  | inside _ taken ih =>
    obtain ⟨es, read⟩ := ih
    exact ⟨es, by rw [read, SExpr.readAllFrom, taken]⟩
  | @outside frames l e rest _ _ taken ih =>
    obtain ⟨es, read⟩ := ih
    refine ⟨es ++ [e], ?_⟩
    rw [read, SExpr.readAllFrom, taken]
    cases SExpr.readAllFrom size [] rest <;> simp [Except.map]

/-- The lexemes that were taken since the last complete expression opened what is open. -/
theorem Reached.opened {frames : Frames} {rest : List Lexeme}
    (reached : Reached many text frames rest) :
    ∃ before ls, Lexeme.ofText text = before ++ ls ++ rest ∧ Opened ls frames := by
  induction reached with
  | start => exact ⟨[], [], rfl, .none⟩
  | @inside frames inner l rest _ taken ih =>
    obtain ⟨before, ls, split, opened⟩ := ih
    exact ⟨before, ls ++ [l], by simpa using split, (opened.take taken).1 inner rfl⟩
  | @outside frames l e rest _ _ taken ih =>
    obtain ⟨before, ls, split, _⟩ := ih
    exact ⟨before ++ ls ++ [l], [], by simpa using split, .none⟩

theorem take_eq_overflow {frames : Frames} {l : Lexeme} :
    take frames l = .error ⟨start, .overflow⟩ ↔
      l.token = .fault ⟨start, .overflow⟩ ∨
        ∃ items outer, frames = items :: outer ∧ l = ⟨start, .closing⟩ ∧
          foldOverflows items.reverse = true := by
  obtain ⟨place, token⟩ := l
  cases token with
  | opening => simp [take]
  | atom a => simp [take]
  | fault f => simp [take]
  | closing =>
    cases frames with
    | nil => simp [take]
    | cons items outer =>
      cases overflow : foldOverflows items.reverse <;> simp [take, overflow]

theorem OverflowsAt.take (overflows : OverflowsAt many text start) :
    ∃ frames l rest, Reached many text frames (l :: rest) ∧
      SExpr.take frames l = .error ⟨start, .overflow⟩ := by
  cases overflows with
  | literal reached overflow => exact ⟨_, _, _, reached, take_eq_overflow.mpr (.inl overflow)⟩
  | @application items _ _ reached overflow =>
    refine ⟨_, _, _, reached, take_eq_overflow.mpr (.inr ⟨_, _, rfl, rfl, ?_⟩)⟩
    rwa [List.reverse_reverse]

theorem overflowsAt_of_take {frames : Frames} {l : Lexeme} {rest : List Lexeme}
    (reached : Reached many text frames (l :: rest))
    (overflow : take frames l = .error ⟨start, .overflow⟩) : OverflowsAt many text start := by
  rcases take_eq_overflow.mp overflow with literal | ⟨items, outer, rfl, rfl, folds⟩
  · exact .literal reached literal
  · rw [← List.reverse_reverse items] at reached
    exact .application reached folds

theorem readOneFrom_eq_overflow (size : Nat) :
    readOneFrom size [] (Lexeme.ofText text) = .error ⟨start, .overflow⟩ ↔
      OverflowsAt false text start := by
  constructor
  · have onward : ∀ (ls : List Lexeme) (frames : Frames), Reached false text frames ls →
        readOneFrom size frames ls = .error ⟨start, .overflow⟩ → OverflowsAt false text start := by
      intro ls
      induction ls with
      | nil =>
        intro frames _ failed
        rw [readOneFrom] at failed
        split at failed <;> cases failed
      | cons l rest ih =>
        intro frames reached failed
        rw [readOneFrom] at failed
        split at failed
        · next f fault =>
          cases failed
          exact overflowsAt_of_take reached fault
        · next inner taken => exact ih inner (reached.inside taken) failed
        · cases failed
    exact onward _ [] .start
  · intro overflows
    obtain ⟨frames, l, rest, reached, overflow⟩ := overflows.take
    rw [reached.readOneFrom, readOneFrom, overflow]

theorem readAllFrom_eq_overflow (size : Nat) :
    readAllFrom size [] (Lexeme.ofText text) = .error ⟨start, .overflow⟩ ↔
      OverflowsAt true text start := by
  constructor
  · have onward : ∀ (ls : List Lexeme) (frames : Frames), Reached true text frames ls →
        readAllFrom size frames ls = .error ⟨start, .overflow⟩ → OverflowsAt true text start := by
      intro ls
      induction ls with
      | nil =>
        intro frames _ failed
        rw [readAllFrom] at failed
        split at failed <;> cases failed
      | cons l rest ih =>
        intro frames reached failed
        rw [readAllFrom] at failed
        split at failed
        · next f fault =>
          cases failed
          exact overflowsAt_of_take reached fault
        · next inner taken => exact ih inner (reached.inside taken) failed
        · next e taken =>
          exact ih [] (reached.outside rfl taken) (Except.map_eq_error.mp failed)
    exact onward _ [] .start
  · intro overflows
    obtain ⟨frames, l, rest, reached, overflow⟩ := overflows.take
    obtain ⟨es, read⟩ := reached.readAllFrom size
    rw [read, readAllFrom, overflow]
    rfl

theorem parse_eq_overflow :
    parse text = .error ⟨⟨start, .overflow⟩, text⟩ ↔ OverflowsAt false text start := by
  rw [← readOneFrom_eq_overflow text.utf8ByteSize, parse]
  split
  · next f failed => simp [failed]
  · next e read => simp [read]
  · next read => simp [read]

theorem parseAll_eq_overflow :
    parseAll text = .error ⟨⟨start, .overflow⟩, text⟩ ↔ OverflowsAt true text start := by
  rw [← readAllFrom_eq_overflow text.utf8ByteSize, parseAll]
  cases readAllFrom text.utf8ByteSize [] (Lexeme.ofText text) <;> simp [Except.mapError]

theorem Closes.overflowsAt (closes : Closes many text items)
    (overflow : foldOverflows items = true) : ∃ start, OverflowsAt many text start := by
  obtain ⟨frames, ⟨start, token⟩, rest, reached, rfl⟩ := closes
  exact ⟨start, .application reached overflow⟩

/-- Folding overflows at a fraction of the largest width and at a polynomial that does. -/
theorem foldOverflows_iff :
    foldOverflows items = true ↔
      IsFieldwise 4294967295 items ∨
        ∃ p index, items = [.atom (.symbol "root-obj"), p, index] ∧
          polynomialOverflows p = true := by
  constructor
  · intro overflow
    unfold foldOverflows at overflow
    split at overflow
    · next operator args =>
      split_ifs at overflow with word root
      · subst word
        unfold fieldsOverflow at overflow
        split at overflow
        · next sign exponent _ fraction width =>
          obtain ⟨fields, large⟩ := (Bool.and_eq_true _ _).mp overflow
          have largest : width = 4294967295 := by
            refine UInt32.toNat_inj.mp (Nat.le_antisymm ?_ ?_)
            · exact Nat.le_of_lt_succ width.toNat_lt
            · exact Nat.le_of_succ_le_succ (of_decide_eq_true large)
          subst largest
          have fits : ∀ i ∈ [sign, exponent, fraction], 0 ≤ i ∧ i < UInt64.size := by
            simpa only [areFields, List.all_eq_true, decide_eq_true_eq] using fields
          exact .inl (.fields (fits _ (by simp)) (fits _ (by simp)) (fits _ (by simp)))
        · cases overflow
      · subst root
        unfold rootOverflows at overflow
        split at overflow
        · exact .inr ⟨_, _, rfl, overflow⟩
        · cases overflow
    · cases overflow
  · rintro (word | ⟨p, index, rfl, overflow⟩)
    · cases word with
      | @fields sign exponent fraction _ hs he hm =>
        have fields : areFields sign exponent fraction = true := by
          simpa [areFields] using ⟨hs, he, hm⟩
        simp [foldOverflows, fieldsOverflow, fields]
    · exact overflow

end SExpr

namespace SizedLiteral

variable {text : String}

/-- The digits of a literal are shorter than the text. -/
theorem utf8Len_digits_lt {before digits after : List Char} {mark : Char}
    (split : text.toList = before ++ ('#' :: mark :: digits) ++ after) :
    utf8Len digits < text.utf8ByteSize := by
  have size := Text.utf8Len_toList text
  rw [split] at size
  simp only [String.utf8Len_append, String.utf8Len_cons] at size
  have positive : 0 < mark.utf8Size := Char.utf8Size_pos mark
  omega

theorem overflow_of_radixToken {base bitsPerDigit place start : Nat} {word digits : List Char}
    (overflow : radixToken base bitsPerDigit place word digits = .fault ⟨start, .overflow⟩) :
    UInt32.size ≤ utf8Len digits % UInt32.size * bitsPerDigit := by
  rw [radixToken] at overflow
  split at overflow
  · split at overflow
    · next large =>
      rw [widthOverflows, String.utf8ByteSize_ofList] at large
      exact of_decide_eq_true large
    · cases overflow
  · cases overflow

/-- Only the width of a very long literal overflows. -/
theorem le_size_of_overflow {l : Lexeme} (among : l ∈ Lexeme.ofText text) {start : Nat}
    (overflow : l.token = .fault ⟨start, .overflow⟩) : 2 ^ 30 ≤ text.utf8ByteSize := by
  obtain ⟨before, word, after, split, rfl⟩ :=
    @Lexeme.isWordOf_of_scan [] .blank trivial text.toList l among (.inr ⟨start, overflow⟩)
  simp only at overflow
  unfold Token.ofWord at overflow
  split at overflow
  · have large := overflow_of_radixToken overflow
    simp only [UInt32.size] at large
    omega
  · have large := overflow_of_radixToken overflow
    simp only [UInt32.size] at large
    have short := utf8Len_digits_lt split
    omega
  · cases overflow
  · cases overflow

end SizedLiteral

namespace SExpr

/-- In a text that is not very long, the reader overflows at an application. -/
theorem OverflowsAt.exists_closes {many : Bool} {text : String} {start : Nat}
    (overflows : OverflowsAt many text start) (short : text.utf8ByteSize < 2 ^ 30) :
    ∃ items, Closes many text items ∧ (IsFieldwise 4294967295 items ∨
      ∃ p index, items = [.atom (.symbol "root-obj"), p, index] ∧
        polynomialOverflows p = true) := by
  cases overflows with
  | @literal frames l rest reached overflow =>
    obtain ⟨before, ls, split, -⟩ := reached.opened
    have among : l ∈ Lexeme.ofText text := by simp [split]
    exact absurd (SizedLiteral.le_size_of_overflow among overflow) (Nat.not_le_of_lt short)
  | application reached overflow =>
    exact ⟨_, ⟨_, _, _, reached, rfl⟩, foldOverflows_iff.mp overflow⟩

end SExpr

end SmtDialogue
