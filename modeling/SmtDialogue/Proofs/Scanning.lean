import Mathlib
import SmtDialogue.SExpr.Reader

/-!
# Lexemes and what is left behind them

What the machine makes of a text as a whole word, string or quoted symbol and the text
behind it, and what the reader makes of the lexemes inside an application apart from those
around it.
-/

namespace SmtDialogue

open String (utf8Len)

/-- Where the lexeme starts that has begun. -/
def LexMode.start? : LexMode → Option Nat
  | .blank | .comment => none
  | .string start _ _ | .closingQuote start _ | .quotedSymbol start _ | .word start _ => some start

theorem Token.ofWord_ne_closing (start : Nat) (word : List Char) :
    Token.ofWord start word ≠ .closing := by
  have radix : ∀ base bits digits, radixToken base bits start word digits ≠ .closing := by
    intro base bits digits
    rw [radixToken]
    cases Numeral.readInt? base digits with
    | none => simp
    | some i => cases widthOverflows bits digits <;> simp
  unfold Token.ofWord
  split
  · exact radix 2 1 _
  · exact radix 16 4 _
  · simp
  · simp

namespace Lexeme

theorem scan_word (offset start : Nat) (contents cs : List Char) :
    scan offset (.word start contents) cs =
      ofWord start ((cs.takeWhile (!endsWord ·)).reverse ++ contents) ::
        scan (offset + utf8Len (cs.takeWhile (!endsWord ·))) .blank
          (cs.dropWhile (!endsWord ·)) := by
  induction cs generalizing offset contents with
  | nil => rfl
  | cons c cs ih =>
    cases ended : endsWord c with
    | true => simp [scan, step, ended]
    | false =>
      simp only [scan, step, ended, Bool.false_eq_true, if_false, List.nil_append, ih,
        Bool.not_false, List.takeWhile_cons_of_pos, List.dropWhile_cons_of_pos, List.reverse_cons,
        List.append_assoc, List.singleton_append, String.utf8Len_cons]
      rw [Nat.add_assoc, Nat.add_comm c.utf8Size]

theorem begin_of_word {c : Char} (inside : endsWord c = false) (bar : c ≠ '|') (offset : Nat) :
    begin offset c = ([], .word offset [c]) := by
  simp only [endsWord, Bool.or_eq_false_iff, decide_eq_false_iff_not] at inside
  simp [begin, inside, bar]

/-- What a character that begins a word makes of the text. -/
theorem scan_wordStart {c : Char} (inside : endsWord c = false) (bar : c ≠ '|') (offset : Nat)
    (cs : List Char) :
    scan offset .blank (c :: cs) =
      ⟨offset, Token.ofWord offset ((c :: cs).takeWhile (!endsWord ·))⟩ ::
        scan (offset + utf8Len ((c :: cs).takeWhile (!endsWord ·))) .blank
          ((c :: cs).dropWhile (!endsWord ·)) := by
  rw [scan, step, begin_of_word inside bar, List.nil_append, scan_word,
    List.takeWhile_cons_of_pos (by simp [inside]), List.dropWhile_cons_of_pos (by simp [inside]),
    ofWord, List.reverse_append, List.reverse_reverse, String.utf8Len_cons, Nat.add_assoc,
    Nat.add_comm c.utf8Size]
  rfl

theorem scan_string_of_absent {cs : List Char} (absent : '"' ∉ cs) (offset start mark : Nat)
    (contents : List Char) :
    scan offset (.string start mark contents) cs =
      [⟨start, .fault ⟨mark, .unterminatedString⟩⟩] := by
  induction cs generalizing offset contents with
  | nil => rfl
  | cons c cs ih =>
    obtain ⟨here, later⟩ := not_or.mp (List.mem_cons.not.mp absent)
    simpa [scan, step, Ne.symm here] using ih later _ _

theorem scan_string {part : List Char} (absent : '"' ∉ part) (offset start mark : Nat)
    (contents rest : List Char) :
    scan offset (.string start mark contents) (part ++ '"' :: rest) =
      scan (offset + (utf8Len part + 1)) (.closingQuote start (part.reverse ++ contents)) rest := by
  induction part generalizing offset contents with
  | nil => rfl
  | cons c part ih =>
    obtain ⟨here, later⟩ := not_or.mp (List.mem_cons.not.mp absent)
    simp only [List.cons_append, scan, step, if_neg (Ne.symm here), List.nil_append, ih later,
      List.reverse_cons, List.append_assoc, String.utf8Len_cons]
    congr 1
    omega

theorem scan_closingQuote {cs : List Char} (single : cs.head? ≠ some '"') (offset start : Nat)
    (contents : List Char) :
    scan offset (.closingQuote start contents) cs =
      ofString start contents :: scan offset .blank cs := by
  cases cs with
  | nil => rfl
  | cons c cs =>
    have other : c ≠ '"' := by simpa using single
    simp [scan, step, other]

theorem scan_doubledQuote (offset start : Nat) (contents cs : List Char) :
    scan offset (.closingQuote start contents) ('"' :: cs) =
      scan (offset + 1) (.string start (offset + 1) ('"' :: contents)) cs := rfl

theorem scan_quotedSymbol_of_absent {cs : List Char} (absent : '|' ∉ cs) (offset start : Nat)
    (contents : List Char) :
    scan offset (.quotedSymbol start contents) cs =
      [⟨start, .fault ⟨start + 1, .unterminatedSymbol⟩⟩] := by
  induction cs generalizing offset contents with
  | nil => rfl
  | cons c cs ih =>
    obtain ⟨here, later⟩ := not_or.mp (List.mem_cons.not.mp absent)
    simpa [scan, step, Ne.symm here] using ih later _ _

theorem scan_quotedSymbol {name : List Char} (absent : '|' ∉ name) (offset start : Nat)
    (contents rest : List Char) :
    scan offset (.quotedSymbol start contents) (name ++ '|' :: rest) =
      ofQuotedSymbol start (name.reverse ++ contents) ::
        scan (offset + (utf8Len name + 1)) .blank rest := by
  induction name generalizing offset contents with
  | nil => rfl
  | cons c name ih =>
    obtain ⟨here, later⟩ := not_or.mp (List.mem_cons.not.mp absent)
    simp only [List.cons_append, scan, step, if_neg (Ne.symm here), List.nil_append, ih later,
      List.reverse_cons, List.append_assoc, String.utf8Len_cons]
    congr 2
    omega

/-- What has begun becomes the next lexeme, and that is no parenthesis. -/
theorem scan_begun (mode : LexMode) {start : Nat} (begun : mode.start? = some start)
    (offset : Nat) (cs : List Char) :
    ∃ l ls, scan offset mode cs = l :: ls ∧ l.start = start ∧ l.token ≠ .closing := by
  induction cs generalizing mode offset with
  | nil =>
    cases mode <;> cases begun <;>
      simp [scan, finish, ofString, ofWord, Token.ofWord_ne_closing]
  | cons c cs ih =>
    rw [scan]
    cases mode with
    | blank => cases begun
    | comment => cases begun
    | string start mark contents =>
      cases begun
      simp only [step]
      split <;> exact ih _ rfl _
    | closingQuote start contents =>
      cases begun
      simp only [step]
      split
      · exact ih _ rfl _
      · exact ⟨_, _, rfl, rfl, by simp [ofString]⟩
    | quotedSymbol start contents =>
      cases begun
      simp only [step]
      split
      · exact ⟨_, _, rfl, rfl, by simp [ofQuotedSymbol]⟩
      · exact ih _ rfl _
    | word start contents =>
      cases begun
      simp only [step]
      split
      · exact ⟨_, _, rfl, rfl, Token.ofWord_ne_closing _ _⟩
      · exact ih _ rfl _

/-- A character outside blanks and comments starts a lexeme. -/
theorem scan_blank_cons {c : Char} (plain : Text.isAsciiBlank c = false) (code : c ≠ ';')
    (offset : Nat) (cs : List Char) :
    ∃ l ls, scan offset .blank (c :: cs) = l :: ls ∧ l.start = offset ∧
      (l.token = .closing → c = ')') := by
  simp only [scan, step, begin, plain, Bool.false_eq_true, if_false, if_neg code]
  split_ifs with opening closing quote bar
  · exact ⟨_, _, rfl, rfl, by simp⟩
  · exact ⟨_, _, rfl, rfl, fun _ => closing⟩
  · obtain ⟨l, ls, scanned, start, other⟩ := scan_begun (.string offset (offset + 1) []) rfl _ cs
    exact ⟨l, ls, scanned, start, fun same => absurd same other⟩
  · obtain ⟨l, ls, scanned, start, other⟩ := scan_begun (.quotedSymbol offset []) rfl _ cs
    exact ⟨l, ls, scanned, start, fun same => absurd same other⟩
  · obtain ⟨l, ls, scanned, start, other⟩ := scan_begun (.word offset [c]) rfl _ cs
    exact ⟨l, ls, scanned, start, fun same => absurd same other⟩

end Lexeme

namespace SExpr

open Lexeme (scan)

/-- While an application inside another one is open, the outer one waits. -/
theorem readOneFrom_append {size : Nat} {frames : Frames} (inside : frames ≠ [])
    (items : List SExpr) (ls : List Lexeme) :
    readOneFrom size (frames ++ [items]) ls =
      readOneFrom size frames ls >>= fun r => readOneFrom size [r.1 :: items] r.2 := by
  induction ls generalizing frames with
  | nil =>
    obtain ⟨first, others, rfl⟩ := List.exists_cons_of_ne_nil inside
    rfl
  | cons l ls ih =>
    obtain ⟨first, others, rfl⟩ := List.exists_cons_of_ne_nil inside
    obtain ⟨start, token⟩ := l
    cases token with
    | opening => exact ih (List.cons_ne_nil [] (first :: others))
    | atom a => exact ih (List.cons_ne_nil (SExpr.atom a :: first) others)
    | fault f => rfl
    | closing =>
      cases overflows : foldOverflows first.reverse with
      | true => simp [readOneFrom, take, overflows]; rfl
      | false =>
        cases others with
        | nil => simp [readOneFrom, take, overflows, place]; rfl
        | cons next others =>
          simpa [readOneFrom, take, overflows, place] using
            ih (List.cons_ne_nil (fold first.reverse :: next) others)

/-- An item of an application is read as an expression of its own. -/
theorem readOneFrom_item {size : Nat} {l : Lexeme} (other : l.token ≠ .closing)
    (items : List SExpr) (ls : List Lexeme) :
    readOneFrom size [items] (l :: ls) =
      readOneFrom size [] (l :: ls) >>= fun r => readOneFrom size [r.1 :: items] r.2 := by
  obtain ⟨start, token⟩ := l
  cases token with
  | opening => exact readOneFrom_append (List.cons_ne_nil [] []) items ls
  | atom a => rfl
  | fault f => rfl
  | closing => exact absurd rfl other

/-- All expressions are the first one and those behind it. -/
theorem readAllFrom_eq {size : Nat} {frames : Frames} {ls : List Lexeme}
    (begun : frames ≠ [] ∨ ls ≠ []) :
    readAllFrom size frames ls =
      readOneFrom size frames ls >>= fun r => (readAllFrom size [] r.2).map (r.1 :: ·) := by
  induction ls generalizing frames with
  | nil =>
    obtain ⟨first, others, rfl⟩ := List.exists_cons_of_ne_nil (begun.resolve_right (· rfl))
    rfl
  | cons l ls ih =>
    obtain ⟨start, token⟩ := l
    cases token with
    | opening => exact ih (.inl (List.cons_ne_nil [] frames))
    | fault f => rfl
    | atom a =>
      cases frames with
      | nil => rfl
      | cons first others => exact ih (.inl (List.cons_ne_nil (SExpr.atom a :: first) others))
    | closing =>
      match frames with
      | [] => rfl
      | first :: others =>
        cases overflows : foldOverflows first.reverse with
        | true => simp [readAllFrom, readOneFrom, take, overflows]; rfl
        | false =>
          cases others with
          | nil => simp [readAllFrom, readOneFrom, take, overflows, place]; rfl
          | cons next others =>
            simpa [readAllFrom, readOneFrom, take, overflows, place] using
              ih (.inl (List.cons_ne_nil (fold first.reverse :: next) others))

end SExpr

end SmtDialogue
