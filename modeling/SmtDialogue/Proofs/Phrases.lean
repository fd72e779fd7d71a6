import SmtDialogue.Proofs.Spelling

/-!
# Phrases

A phrase is a text that is one expression wherever it stands. Spellings are phrases,
and so is a list of phrases between parentheses, however the lines of the list are
broken and indented.
-/

namespace SmtDialogue

open SExpr (Frames Feeds place)
open Spelling (Ends Scans)

/-- The text is this expression, wherever it stands. -/
def Phrase (cs : List Char) (e : SExpr) : Prop :=
  ∀ ⦃rest : List Char⦄, Ends rest → ∃ ts, Scans cs rest ts ∧
    ∀ (frames : Frames) {ls : List Lexeme}, ls.map Lexeme.token = ts →
      Feeds frames ls (place e frames)

/-- Inside an application the text is these items. -/
def Phrases (cs : List Char) (es : List SExpr) : Prop :=
  ∀ ⦃rest : List Char⦄, Ends rest → ∃ ts, Scans cs rest ts ∧
    ∀ (begun : List SExpr) (outer : Frames) {ls : List Lexeme}, ls.map Lexeme.token = ts →
      Feeds (begun :: outer) ls (.inside ((es.reverse ++ begun) :: outer))

namespace Phrase

variable {cs : List Char} {e : SExpr}

theorem of_proper {s : Spelling} (proper : s.Proper) : Phrase s.chars s.tree :=
  fun _ ends => ⟨s.tokens, Spelling.scans s proper ends, fun frames _ =>
    Spelling.feeds s proper frames⟩

/-- A word that reads as one atom. -/
theorem word {a : Atom} (unquoted : Spelling.Unquoted cs)
    (reads : ∀ start, Token.ofWord start cs = .atom a) : Phrase cs (.atom a) :=
  fun _ ends => ⟨[.atom a], Spelling.scans_word unquoted reads ends,
    fun frames _ => Spelling.feeds_atom frames⟩

theorem item (phrase : Phrase cs e) : Phrases cs [e] := by
  intro rest ends
  obtain ⟨ts, scans, feeds⟩ := phrase ends
  exact ⟨ts, scans, fun begun outer => feeds (begun :: outer)⟩

/-- A text that is one phrase reads as its expression. -/
theorem parse {text : String} (phrase : Phrase text.toList e) : SExpr.parse text = .ok e := by
  obtain ⟨ts, scans, feeds⟩ := phrase Spelling.ends_nil
  obtain ⟨ls, stop, tokens, scanned⟩ := scans 0
  have lexemes : Lexeme.ofText text = ls ++ [] := by
    rw [Lexeme.ofText]
    simpa [Lexeme.scan, Lexeme.finish] using scanned
  have read := SExpr.readOneFrom_of_outside (feeds [] tokens) text.utf8ByteSize []
  simp only [SExpr.parse, lexemes, read]

end Phrase

/-- A text with a spelling reads as the tree of that spelling. -/
theorem Spelling.parse_of_chars {text : String} (s : Spelling) (proper : s.Proper)
    (spelled : text.toList = s.chars) : SExpr.parse text = .ok s.tree := by
  have phrase : Phrase text.toList s.tree := spelled ▸ Phrase.of_proper proper
  exact phrase.parse

/-- Blanks between two items. -/
structure Gap (cs : List Char) : Prop where
  nonempty : cs ≠ []
  blank : ∀ c ∈ cs, Text.isAsciiBlank c = true

theorem scans_blanks {cs : List Char} (blank : ∀ c ∈ cs, Text.isAsciiBlank c = true)
    (rest : List Char) : Scans cs rest [] := by
  intro offset
  induction cs generalizing offset with
  | nil => exact ⟨[], offset, rfl, rfl⟩
  | cons c cs ih =>
    have first : Text.isAsciiBlank c = true := blank c List.mem_cons_self
    obtain ⟨ls, stop, tokens, scanned⟩ :=
      ih (fun d hd => blank d (List.mem_cons_of_mem c hd)) (offset + c.utf8Size)
    exact ⟨ls, stop, tokens, by
      simpa [Lexeme.scan, Lexeme.step, Lexeme.begin, first] using scanned⟩

theorem Gap.ends {gap : List Char} (isGap : Gap gap) (rest : List Char) : Ends (gap ++ rest) := by
  obtain ⟨c, cs, rfl⟩ := List.exists_cons_of_ne_nil isGap.nonempty
  intro d hd
  obtain rfl : c = d := by simpa using hd
  have first : Text.isAsciiBlank c = true := isGap.blank c List.mem_cons_self
  refine ⟨by simp [Lexeme.endsWord, first], ?_⟩
  rintro rfl
  simp [Text.isAsciiBlank] at first

theorem gap_blank : Gap [' '] := ⟨by simp, by simp [Text.isAsciiBlank]⟩

/-- A line break and the indentation of the next line. -/
theorem gap_line : Gap ['\n', ' ', ' '] := ⟨by simp, by simp [Text.isAsciiBlank]⟩

namespace Phrases

variable {cs ds : List Char} {es fs : List SExpr}

theorem nil : Phrases [] [] :=
  fun _ _ => ⟨[], fun offset => ⟨[], offset, rfl, rfl⟩, fun _ _ ls tokens => by
    obtain rfl := List.map_eq_nil_iff.mp tokens
    exact .nil _⟩

/-- Items on both sides of a gap. -/
theorem append (first : Phrases cs es) {gap : List Char} (isGap : Gap gap)
    (second : Phrases ds fs) : Phrases (cs ++ gap ++ ds) (es ++ fs) := by
  intro rest ends
  obtain ⟨us, scans', feeds'⟩ := second ends
  obtain ⟨ts, scans, feeds⟩ := first (isGap.ends (ds ++ rest))
  have whole : Scans (cs ++ (gap ++ ds)) rest (ts ++ us) :=
    Scans.append (by simpa using scans) ((scans_blanks isGap.blank _).append scans')
  refine ⟨ts ++ us, by simpa using whole, ?_⟩
  intro begun outer ls tokens
  obtain ⟨front, back, rfl, hfront, hback⟩ := List.map_eq_append_iff.mp tokens
  have one := feeds begun outer hfront
  have more := feeds' (es.reverse ++ begun) outer hback
  simpa using one.append more

/-- One more item in front. -/
theorem cons {e : SExpr} (first : Phrase cs e) (others : Phrases ds fs) :
    Phrases (cs ++ ' ' :: ds) (e :: fs) := by
  have joined := Phrases.append first.item gap_blank others
  simpa using joined

/-- Items between parentheses are one expression. -/
theorem list (items : Phrases cs es) (fits : SExpr.foldOverflows es = false) :
    Phrase ('(' :: cs ++ [')']) (SExpr.fold es) := by
  intro rest _
  obtain ⟨ts, scans, feeds⟩ := items (Spelling.ends_closing rest)
  have opening := Spelling.scans_opening (cs ++ ([')'] ++ rest))
  have closing := Spelling.scans_closing rest
  refine ⟨[.opening] ++ ts ++ [.closing],
    (Scans.append (by simpa using opening) scans).append closing, ?_⟩
  intro frames ls tokens
  obtain ⟨front, last, rfl, hfront, hlast⟩ := List.map_eq_append_iff.mp tokens
  obtain ⟨begins, middle, rfl, hbegins, hmiddle⟩ := List.map_eq_append_iff.mp hfront
  obtain ⟨first, rfl, hfirst⟩ := List.map_eq_singleton_iff.mp hbegins
  obtain ⟨final, rfl, hfinal⟩ := List.map_eq_singleton_iff.mp hlast
  have opened : SExpr.take frames first = .ok (.inside ([] :: frames)) := by
    simp [SExpr.take, hfirst]
  have closed : SExpr.take ((es.reverse ++ []) :: frames) final =
      .ok (place (SExpr.fold es) frames) := by
    simp [SExpr.take, hfinal, fits]
  exact .inside opened ((feeds [] frames hmiddle).append (.of_take closed))

end Phrases

end SmtDialogue
