import SmtDialogue.Proofs.Reports
import SmtDialogue.Proofs.Tables
import SmtDialogue.Sample.Table

/-!
# Which symbols name a word

The symbols of a word are its number in decimal with any number of zeros in front. Only
the one without further zeros is written in a query, so two symbols are taken for one
variable exactly when they differ in zeros alone.
-/

namespace SmtDialogue

namespace Numeral

/-- Digits behind a positive number are the digits of what both are worth together. -/
theorem toDigits_append {cs : List Char} (digits : ∀ c ∈ cs, isDigit c = true) {n : Nat}
    (positive : 0 < n) : Nat.toDigits 10 n ++ cs = Nat.toDigits 10 (Nat.ofDigitChars 10 cs n) := by
  induction cs generalizing n with
  | nil => simp
  | cons c cs ih =>
    obtain ⟨small, same⟩ := digitChar_of_isDigit (digits c List.mem_cons_self)
    have next := Nat.toDigits_append_toDigits (b := 10) (by decide) positive small
    rw [Nat.toDigits_of_lt_base small, same] at next
    rw [Nat.ofDigitChars_cons, ← ih (fun d inside => digits d (List.mem_cons_of_mem c inside))
      (by omega), ← next, List.append_assoc]
    rfl

/-- A run of digits is some zeros and the digits of the number that it is worth. -/
theorem exists_zeros {cs : List Char} (digits : isDigits cs = true) :
    ∃ zeros, cs = List.replicate zeros '0' ++ Nat.toDigits 10 (decimal cs) := by
  simp only [isDigits, Bool.and_eq_true, Bool.not_eq_true', List.isEmpty_eq_false_iff,
    List.all_eq_true] at digits
  obtain ⟨some, digits⟩ := digits
  induction cs with
  | nil => exact absurd rfl some
  | cons c cs ih =>
    obtain ⟨small, same⟩ := digitChar_of_isDigit (digits c List.mem_cons_self)
    have others := fun d inside => digits d (List.mem_cons_of_mem c inside)
    rw [decimal_eq_ofDigitChars, Nat.ofDigitChars_cons]
    by_cases zero : c = '0'
    · subst zero
      by_cases last : cs = []
      · exact ⟨0, by subst last; rfl⟩
      · obtain ⟨zeros, rest⟩ := ih last others
        rw [decimal_eq_ofDigitChars] at rest
        refine ⟨zeros + 1, ?_⟩
        rw [List.replicate_succ, List.cons_append]
        exact congrArg _ rest
    · have positive : 0 < c.toNat - '0'.toNat := by
        refine Nat.pos_of_ne_zero fun none => zero ?_
        rw [← same, none]
        rfl
      refine ⟨0, ?_⟩
      have all := toDigits_append others positive
      rw [Nat.toDigits_of_lt_base small, same] at all
      simpa using all

theorem decimal_zeros (zeros n : Nat) :
    decimal (List.replicate zeros '0' ++ Nat.toDigits 10 n) = n := by
  rw [decimal_eq_ofDigitChars, Nat.ofDigitChars_append, Nat.ofDigitChars_replicate_zero,
    Nat.mul_zero, Nat.ofDigitChars_ten_toDigits]

/-- A number is written without a zero in front of other digits. -/
theorem toDigits_ne_zero_cons (n : Nat) (c : Char) (cs : List Char) :
    Nat.toDigits 10 n ≠ '0' :: c :: cs := by
  intro written
  have worth := decimal_toDigits n
  have digits := isDigits_toDigits n
  simp only [written, isDigits, Bool.and_eq_true, List.all_cons] at digits
  have others : isDigits (c :: cs) = true := by simp [isDigits, digits]
  obtain ⟨zeros, rest⟩ := exists_zeros others
  have same : decimal (c :: cs) = n := by
    rw [← worth, written]
    rfl
  have lengths := congrArg List.length rest
  rw [same, written] at lengths
  simp at lengths
  omega

theorem isDigits_zeros (zeros n : Nat) :
    isDigits (List.replicate zeros '0' ++ Nat.toDigits 10 n) = true := by
  have written := isDigits_toDigits n
  simp only [isDigits, Bool.and_eq_true, List.all_eq_true] at written ⊢
  refine ⟨by simp, fun c inside => ?_⟩
  rcases List.mem_append.mp inside with zero | digit
  · rw [List.eq_of_mem_replicate zero]
    rfl
  · exact written.2 c digit

end Numeral

namespace WordId

/-- The symbol of a word with further zeros in front of its number. -/
def paddedText (zeros : Nat) (id : WordId) : String :=
  String.ofList ('s' :: (List.replicate zeros '0' ++ Nat.toDigits 10 id.index.toNat))

theorem toList_paddedText (zeros : Nat) (id : WordId) : (id.paddedText zeros).toList =
    's' :: (List.replicate zeros '0' ++ Nat.toDigits 10 id.index.toNat) := by
  simp [paddedText]

theorem paddedText_zero (id : WordId) : id.paddedText 0 = id.text := by
  rw [← String.toList_inj, toList_paddedText, toList_text]
  rfl

/-- The symbols of a word are its text and the texts with zeros in front of the number. -/
theorem ofSymbol?_eq_some_iff {symbol : String} {id : WordId} :
    ofSymbol? symbol = some id ↔ ∃ zeros, symbol = id.paddedText zeros := by
  constructor
  · intro named
    rw [ofSymbol?] at named
    split at named
    · next digits chars =>
      split at named
      · next number =>
        simp only [Bool.and_eq_true, decide_eq_true_eq] at number
        cases named
        obtain ⟨zeros, same⟩ := Numeral.exists_zeros number.1
        refine ⟨zeros, ?_⟩
        rw [← String.toList_inj, chars, toList_paddedText, UInt64.toNat_ofNat_of_lt' number.2,
          ← same]
      · cases named
    · cases named
  · rintro ⟨zeros, rfl⟩
    have small : id.index.toNat < UInt64.size := id.index.toNat_lt
    simp [ofSymbol?, toList_paddedText, Numeral.isDigits_zeros, Numeral.decimal_zeros, small]

theorem paddedText_inj {m n : Nat} {id other : WordId}
    (same : id.paddedText m = other.paddedText n) : id = other ∧ m = n := by
  have left : ofSymbol? (id.paddedText m) = some id := ofSymbol?_eq_some_iff.mpr ⟨m, rfl⟩
  have right : ofSymbol? (id.paddedText m) = some other := ofSymbol?_eq_some_iff.mpr ⟨n, same⟩
  obtain rfl := Option.some.inj (left.symm.trans right)
  refine ⟨rfl, ?_⟩
  have lengths := congrArg (fun s : String => s.toList.length) same
  simpa [toList_paddedText] using lengths

/-- A symbol with a zero in front of the other digits of its number. -/
def ZeroPadded (symbol : String) : Prop :=
  ∃ c rest, symbol.toList = 's' :: '0' :: c :: rest

theorem paddedText_eq_text_iff {zeros : Nat} {id : WordId} :
    id.paddedText zeros = id.text ↔ ¬ZeroPadded (id.paddedText zeros) := by
  rw [ZeroPadded, toList_paddedText]
  cases zeros with
  | zero =>
    refine iff_of_true (paddedText_zero id) ?_
    rintro ⟨c, rest, same⟩
    exact Numeral.toDigits_ne_zero_cons _ c rest (List.cons_eq_cons.mp same).2
  | succ zeros =>
    refine iff_of_false (fun same => ?_) (not_not_intro ?_)
    · rw [← paddedText_zero] at same
      exact absurd (paddedText_inj same).2 (by omega)
    · -- the number has a digit of its own behind the zeros
      obtain ⟨c, rest, more⟩ := List.exists_cons_of_ne_nil
        (l := List.replicate zeros '0' ++ Nat.toDigits 10 id.index.toNat) (by simp)
      refine ⟨c, rest, ?_⟩
      rw [List.replicate_succ, List.cons_append, more]

end WordId

namespace SymbolTable

variable {table : SymbolTable}

/-- With one variable for each word, a symbol stands for the variable of the word it names. -/
theorem Distinct.resolve_eq_some_iff (distinct : table.Distinct) {symbol : String} {v : Variable} :
    table.resolve symbol = .ok (some v) ↔
      v ∈ table.entries ∧ WordId.ofSymbol? symbol = some v.id := by
  refine ⟨resolve_eq_some, fun ⟨listed, named⟩ => ?_⟩
  obtain ⟨found, resolved⟩ := distinct.resolve symbol
  cases found with
  | none =>
    rw [resolve_eq_none_iff, named] at resolved
    have member : v ∈ table.withId v.id := List.mem_filter.mpr ⟨listed, by simp⟩
    simp [List.isEmpty_iff.mp resolved] at member
  | some w =>
    obtain ⟨other, namedOther⟩ := resolve_eq_some resolved
    have same : w.id = v.id := Option.some.inj (namedOther.symm.trans named)
    rw [resolved, List.inj_on_of_nodup_map distinct other listed same]

/-- A symbol stands for a variable exactly when it is the text of the variable's word, up to
zeros in front of the number. So it is that text itself exactly when it has no such zeros,
and two symbols that stand for variables stand for the same one exactly when they differ in
such zeros alone. -/
theorem resolve_eq_some_iff_padded (distinct : table.Distinct) :
    (∀ symbol v, table.resolve symbol = .ok (some v) ↔
      v ∈ table.entries ∧ ∃ zeros, symbol = v.id.paddedText zeros) ∧
    (∀ symbol v, table.resolve symbol = .ok (some v) →
      (symbol = v.id.text ↔ ¬WordId.ZeroPadded symbol)) ∧
    ∀ a b u v, table.resolve a = .ok (some u) → table.resolve b = .ok (some v) →
      (u = v ↔ ∃ (id : WordId) (m n : Nat), a = id.paddedText m ∧ b = id.paddedText n) := by
  have stands : ∀ symbol v, table.resolve symbol = .ok (some v) ↔
      v ∈ table.entries ∧ ∃ zeros, symbol = v.id.paddedText zeros := by
    intro symbol v
    rw [distinct.resolve_eq_some_iff, WordId.ofSymbol?_eq_some_iff]
  refine ⟨stands, fun symbol v resolved => ?_, fun a b u v left right => ?_⟩
  · obtain ⟨-, zeros, rfl⟩ := (stands symbol v).mp resolved
    exact WordId.paddedText_eq_text_iff
  · obtain ⟨listed, m, rfl⟩ := (stands a u).mp left
    obtain ⟨other, n, rfl⟩ := (stands b v).mp right
    constructor
    · rintro rfl
      exact ⟨u.id, m, n, rfl, rfl⟩
    · rintro ⟨id, m', n', first, second⟩
      have same : u.id = v.id :=
        (WordId.paddedText_inj first).1.trans (WordId.paddedText_inj second).1.symm
      exact List.inj_on_of_nodup_map distinct listed other same

/-- Variables of the first and of the last word. -/
def outermost : SymbolTable :=
  ⟨[⟨⟨0⟩, "first", .integer⟩, ⟨⟨0xFFFFFFFFFFFFFFFF⟩, "last", .integer⟩]⟩

/-- The last word has a symbol of twenty digits, and another one with a zero in front. -/
theorem resolve_eq_some_iff_padded_outermost :
    outermost.Distinct ∧
      outermost.resolve "s018446744073709551615" =
        .ok (some ⟨⟨0xFFFFFFFFFFFFFFFF⟩, "last", .integer⟩) ∧
      (WordId.mk 0xFFFFFFFFFFFFFFFF).text ≠ "s018446744073709551615" ∧
      outermost.resolve "s18446744073709551615" =
        .ok (some ⟨⟨0xFFFFFFFFFFFFFFFF⟩, "last", .integer⟩) := by
  have distinct : outermost.Distinct := by decide
  obtain ⟨stands, plain, -⟩ := resolve_eq_some_iff_padded distinct
  have padded : outermost.resolve "s018446744073709551615" =
      .ok (some ⟨⟨0xFFFFFFFFFFFFFFFF⟩, "last", .integer⟩) := by decide
  refine ⟨distinct, padded, fun same => ?_, (stands _ _).mpr ⟨by decide, 0, by decide⟩⟩
  exact (plain _ _ padded).mp same.symm ⟨'1', "8446744073709551615".toList, by decide⟩

/-- A definition of `s00` is taken for one of the word `s0`, whose value it replaces, so
different symbols stand for one variable. -/
theorem zeroPadded_taken :
    Binding.extract Sample.objectiveTable .strict "" (.app [
        .app [.atom (.symbol "define-fun"), .atom (.symbol "s0"), .app [], .atom (.symbol "Int"),
          .atom (.int 1 none)],
        .app [.atom (.symbol "define-fun"), .atom (.symbol "s00"), .app [], .atom (.symbol "Int"),
          .atom (.int 2 none)]]) =
      .ok [⟨⟨0⟩, "x", .ofInteger 1⟩, ⟨⟨0⟩, "x", .ofInteger 2⟩] ∧
    ¬∀ (table : SymbolTable) (a b : String) (u v : Variable), table.Distinct → a ≠ b →
        table.resolve a = .ok (some u) → table.resolve b = .ok (some v) → u ≠ v := by
  refine ⟨by decide, fun all => ?_⟩
  exact all Sample.objectiveTable "s0" "s00" ⟨⟨0⟩, "x", .integer⟩ ⟨⟨0⟩, "x", .integer⟩
    (by decide) (by decide) (by decide) (by decide) rfl

end SymbolTable

end SmtDialogue
