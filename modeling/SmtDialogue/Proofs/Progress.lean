import SmtDialogue.Proofs.Positions
import SmtDialogue.Proofs.Scanning
import SmtDialogue.Proofs.States

/-!
# Progress of the reader

The reader that keeps a position and the reader that takes lexemes agree on every text. So
a position never leaves the text and never lies inside a character, every expression ends
behind its start, and the number of turns needed grows with the length of the text only. Where
reading ends with neither a tree nor a report, an application overflows, as does a root whose
exponent leaves no room for the coefficients.
-/

namespace SmtDialogue

open String (utf8EncodeChar utf8Len)
open Text (bytes byte cut? isOneOf)

namespace Cursor

open Lexeme (scan endsWord)
open SExpr (readOneFrom)

/-- Both readers report the same fault, at a place between two characters, or both give
results that fit. -/
inductive Agrees {α β : Type} (text : String) (fits : α → β → Prop) :
    Except Failure α → Except ReadFault β → Prop where
  | fault {f : ReadFault} (valid : (⟨f.offset⟩ : String.Pos.Raw).IsValid text) :
      Agrees text fits (.error (.ofFault text f)) (.error f)
  | done {a : α} {b : β} (fit : fits a b) : Agrees text fits (.ok a) (.ok b)

/-- The same tree, together with a position behind the given one and with the lexemes from
there on. -/
inductive Moved (text : String) (pos : Nat) : SExpr × Nat → SExpr × List Lexeme → Prop where
  | behind {front back : List Char} (split : text.toList = front ++ back)
      (moves : pos < utf8Len front) (e : SExpr) :
      Moved text pos (e, utf8Len front) (e, scan (utf8Len front) .blank back)

section

variable {α β γ δ : Type} {text : String} {fits : α → β → Prop} {fits' : γ → δ → Prop}
variable {front back : List Char}

theorem Agrees.bind {outcome : Except Failure α} {read : Except ReadFault β}
    (agrees : Agrees text fits outcome read) {f : α → Except Failure γ}
    {g : β → Except ReadFault δ} (next : ∀ a b, fits a b → Agrees text fits' (f a) (g b)) :
    Agrees text fits' (outcome >>= f) (read >>= g) := by
  cases agrees with
  | fault valid => exact .fault valid
  | done fit => exact next _ _ fit

theorem Agrees.cons {outcome : Except Failure (List α)} {read : Except ReadFault (List α)}
    (agrees : Agrees text Eq outcome read) (a : α) :
    Agrees text Eq (outcome >>= fun others => pure (a :: others)) (read.map (a :: ·)) := by
  cases agrees with
  | fault valid => exact .fault valid
  | done fit => exact .done (by rw [fit])

theorem agrees_report (split : text.toList = front ++ back) (cause : ReadCause)
    (said : cause ≠ .overflow := by simp) :
    Agrees text fits (report text (utf8Len front) cause) (.error ⟨utf8Len front, cause⟩) := by
  have failure : Failure.malformed ⟨⟨utf8Len front, cause⟩, text⟩ =
      .ofFault text ⟨utf8Len front, cause⟩ := (if_neg said).symm
  rw [report_eq split, failure]
  exact .fault (isValid_of_split split)

theorem agrees_overflow (split : text.toList = front ++ back) :
    Agrees text fits (.error (.overflow (utf8Len front)))
      (.error ⟨utf8Len front, .overflow⟩) :=
  .fault (f := ⟨utf8Len front, .overflow⟩) (isValid_of_split split)

theorem Moved.mono {p q : Nat} (earlier : p ≤ q) {a : SExpr × Nat} {b : SExpr × List Lexeme}
    (moved : Moved text q a b) : Moved text p a b := by
  cases moved with
  | behind split moves e => exact .behind split (Nat.lt_of_le_of_lt earlier moves) e

theorem Agrees.mono {p q : Nat} (earlier : p ≤ q) {outcome : Except Failure (SExpr × Nat)}
    {read : Except ReadFault (SExpr × List Lexeme)}
    (agrees : Agrees text (Moved text q) outcome read) :
    Agrees text (Moved text p) outcome read := by
  cases agrees with
  | fault valid => exact .fault valid
  | done fit => exact .done (fit.mono earlier)

theorem triviaLength_append {xs : List UInt8} (line : ∀ b ∈ xs, b ≠ byte '\n')
    (ys : List UInt8) : triviaLength true (xs ++ ys) = xs.length + triviaLength true ys := by
  induction xs with
  | nil => exact (Nat.zero_add _).symm
  | cons b xs ih =>
    obtain ⟨here, later⟩ := List.forall_mem_cons.mp line
    rw [List.cons_append, triviaLength, decide_eq_true here, ih later, List.length_cons]
    omega

theorem ascii_blanks : ∀ d ∈ blanks, d.toNat < 128 := by
  simp [blanks]

theorem mem_blanks {c : Char} : c ∈ blanks ↔ Text.isAsciiBlank c = true := by
  simp [Text.isAsciiBlank, blanks, or_assoc]

/-- The mode of the machine outside lexemes. -/
def triviaMode (inside : Bool) : LexMode :=
  if inside then .comment else .blank

/-- Blanks and comments are the same bytes as characters, and leave no lexeme. -/
theorem exists_trivia (inside : Bool) (offset : Nat) (cs : List Char) :
    ∃ skipped rest, cs = skipped ++ rest ∧ triviaLength inside (bytes cs) = utf8Len skipped ∧
      scan offset (triviaMode inside) cs = scan (offset + utf8Len skipped) .blank rest ∧
      ∀ c ∈ rest.head?, Text.isAsciiBlank c = false ∧ c ≠ ';' := by
  induction cs generalizing inside offset with
  | nil => exact ⟨[], [], rfl, by cases inside <;> rfl, by cases inside <;> rfl, by simp⟩
  | cons c cs ih =>
    -- What follows a character that is skipped, whatever mode the machine is in then.
    have skip : ∀ after, triviaLength inside (bytes (c :: cs)) =
        c.utf8Size + triviaLength after (bytes cs) →
        Lexeme.step offset (triviaMode inside) c = ([], triviaMode after) →
        ∃ skipped rest, c :: cs = skipped ++ rest ∧
          triviaLength inside (bytes (c :: cs)) = utf8Len skipped ∧
          scan offset (triviaMode inside) (c :: cs) =
            scan (offset + utf8Len skipped) .blank rest ∧
          ∀ c ∈ rest.head?, Text.isAsciiBlank c = false ∧ c ≠ ';' := by
      intro after length move
      obtain ⟨skipped, rest, rfl, counted, scanned, stops⟩ := ih after (offset + c.utf8Size)
      refine ⟨c :: skipped, rest, rfl, ?_, ?_, stops⟩
      · rw [length, counted, String.utf8Len_cons, Nat.add_comm]
      · rw [scan, move, List.nil_append, scanned, String.utf8Len_cons]
        congr 1
        omega
    cases inside with
    | true =>
      by_cases line : c = '\n'
      · subst line
        refine skip false ?_ rfl
        rw [Text.bytes_cons, Text.encode_of_ascii (by decide), Nat.add_comm]
        rfl
      · refine skip true ?_ (by simp [Lexeme.step, triviaMode, line])
        rw [Text.bytes_cons, triviaLength_append, String.length_utf8EncodeChar]
        intro b member same
        exact line ((Text.eq_byte_iff (by decide) member).mp same)
    | false =>
      by_cases blank : c ∈ blanks
      · refine skip false ?_
          (by simp [Lexeme.step, Lexeme.begin, triviaMode, mem_blanks.mp blank])
        have ascii := ascii_blanks c blank
        have one := String.length_utf8EncodeChar c
        rw [Text.encode_of_ascii ascii] at one
        have found : isOneOf blanks (byte c) = true :=
          (Text.isOneOf_iff ascii_blanks (by simp [Text.encode_of_ascii ascii])).mpr blank
        rw [Text.bytes_cons, Text.encode_of_ascii ascii, List.singleton_append, triviaLength,
          if_pos found, ← one, Nat.add_comm]
        rfl
      · by_cases code : c = ';'
        · subst code
          refine skip true ?_ rfl
          rw [Text.bytes_cons, Text.encode_of_ascii (by decide), Nat.add_comm]
          rfl
        · refine ⟨[], c :: cs, rfl, ?_, rfl, by simpa [mem_blanks, code] using blank⟩
          obtain ⟨b, bs, encoded⟩ := List.exists_cons_of_ne_nil (Text.encode_ne_nil c)
          have member : b ∈ utf8EncodeChar c := by simp [encoded]
          rw [Text.bytes_cons, encoded, List.cons_append, triviaLength,
            if_neg ((Text.isOneOf_iff ascii_blanks member).not.mpr blank),
            if_neg ((Text.eq_byte_iff (by decide) member).not.mpr code)]
          rfl

/-- Skipping ends behind the blanks and comments, between two characters. -/
theorem exists_skipTrivia (split : text.toList = front ++ back) :
    ∃ skipped rest, back = skipped ++ rest ∧
      skipTrivia text (utf8Len front) = .ok (utf8Len (front ++ skipped)) ∧
      scan (utf8Len front) .blank back = scan (utf8Len (front ++ skipped)) .blank rest ∧
      ∀ c ∈ rest.head?, Text.isAsciiBlank c = false ∧ c ≠ ';' := by
  obtain ⟨skipped, rest, rfl, counted, scanned, stops⟩ := exists_trivia false (utf8Len front) back
  refine ⟨skipped, rest, rfl, ?_, ?_, stops⟩
  · rw [skipTrivia, bytesFrom_eq split, advance_eq split counted]
  · rw [String.utf8Len_append]
    exact scanned

theorem agrees_stringFrom {turns : Nat} (raw : List Char)
    (split : text.toList = front ++ back) (enough : raw.length + utf8Len back < turns)
    (size start : Nat) :
    Agrees text (Moved text (utf8Len front)) (stringFrom text turns (utf8Len front) raw)
      (readOneFrom size []
        (scan (utf8Len front) (.string start (utf8Len front) raw.reverse) back)) := by
  -- A doubled quote moves one of its bytes to the contents and drops the other.
  induction turns generalizing front back raw with
  | zero => exact absurd enough (Nat.not_lt_zero _)
  | succ turns ih =>
    rw [stringFrom, sliceFrom_eq split rfl, ok_bind]
    by_cases quote : '"' ∈ back
    · obtain ⟨part, rest, rfl, absent⟩ := List.eq_append_cons_of_mem quote
      have split : text.toList = front ++ (part ++ ['"'] ++ rest) := by simp [split]
      have place : utf8Len part + 1 = utf8Len (part ++ ['"']) := (Text.utf8Len_snoc rfl part).symm
      have short := Text.length_le_utf8Len part
      have size' : utf8Len (part ++ '"' :: rest) = utf8Len part + (utf8Len rest + 1) :=
        String.utf8Len_append _ _
      rw [find?_append absent, Lexeme.scan_string absent]
      simp only [sliceTo_eq rfl rfl, advance_eq split place, ok_bind]
      rw [place, ← String.utf8Len_append]
      rw [← List.append_assoc] at split
      by_cases doubled : rest.head? = some '"'
      · obtain ⟨rest, rfl⟩ := List.head?_eq_some_iff.mp doubled
        rw [if_pos ((peek?_eq_byte split (by decide)).mpr doubled), advance_one split rfl, ok_bind]
        have less : utf8Len ('"' :: rest) = utf8Len rest + 1 := rfl
        have split : text.toList = front ++ (part ++ ['"']) ++ ['"'] ++ rest := by simp [split]
        have enough : (raw ++ part ++ ['"']).length + utf8Len rest < turns := by
          simp only [List.length_append, List.length_singleton]
          omega
        have behind : utf8Len (front ++ (part ++ ['"'])) + 1 =
            utf8Len (front ++ (part ++ ['"']) ++ ['"']) := (Text.utf8Len_snoc rfl _).symm
        have contents : '"' :: (part.reverse ++ raw.reverse) =
            (raw ++ part ++ ['"']).reverse := by simp
        rw [Lexeme.scan_doubledQuote, behind, contents]
        refine (ih _ split enough).mono ?_
        rw [← behind, String.utf8Len_append]
        omega
      · rw [if_neg ((peek?_eq_byte split (by decide)).not.mpr doubled),
          unescape_eq (by rw [List.length_append]; omega), Lexeme.scan_closingQuote doubled,
          ok_bind]
        have decoded : ((part.reverse ++ raw.reverse).reverse) = raw ++ part := by simp
        rw [Lexeme.ofString, decoded]
        refine .done (.behind split ?_ _)
        rw [String.utf8Len_append, ← place]
        omega
    · rw [find?_eq_none quote, Lexeme.scan_string_of_absent quote]
      exact agrees_report split _

theorem agrees_quotedSymbol {before : List Char} (split : text.toList = before ++ '|' :: back)
    (size : Nat) :
    Agrees text (Moved text (utf8Len before)) (quotedSymbol text (utf8Len (before ++ ['|'])))
      (readOneFrom size []
        (scan (utf8Len (before ++ ['|'])) (.quotedSymbol (utf8Len before) []) back)) := by
  have split' : text.toList = before ++ ['|'] ++ back := by simp [split]
  have behind : utf8Len (before ++ ['|']) = utf8Len before + 1 := Text.utf8Len_snoc rfl _
  rw [quotedSymbol, sliceFrom_eq split' rfl, ok_bind]
  by_cases bar : '|' ∈ back
  · obtain ⟨name, rest, rfl, absent⟩ := List.eq_append_cons_of_mem bar
    have split : text.toList = before ++ ['|'] ++ (name ++ ['|'] ++ rest) := by simp [split]
    have place : utf8Len name + 1 = utf8Len (name ++ ['|']) := (Text.utf8Len_snoc rfl name).symm
    rw [find?_append absent, Lexeme.scan_quotedSymbol absent]
    simp only [sliceTo_eq rfl rfl, advance_eq split place, ok_bind]
    rw [place, ← String.utf8Len_append, Lexeme.ofQuotedSymbol, List.append_nil,
      List.reverse_reverse]
    rw [← List.append_assoc] at split
    refine .done (.behind split ?_ _)
    rw [String.utf8Len_append, behind]
    omega
  · rw [find?_eq_none bar, Lexeme.scan_quotedSymbol_of_absent bar, ← behind]
    exact agrees_report split' _

theorem ascii_wordEnds : ∀ d ∈ wordEnds, d.toNat < 128 := by
  simp [wordEnds, blanks]

theorem mem_wordEnds {c : Char} : c ∈ wordEnds ↔ endsWord c = true := by
  simp [endsWord, Text.isAsciiBlank, wordEnds, blanks, or_assoc]

theorem word_eq (split : text.toList = front ++ back) :
    word text (utf8Len front) =
      .ok (back.takeWhile (!endsWord ·), utf8Len (front ++ back.takeWhile (!endsWord ·))) := by
  have agree : ∀ c, ∀ b ∈ utf8EncodeChar c, (!isOneOf wordEnds b) = !endsWord c := by
    intro c b member
    rw [Bool.eq_iff_iff.mpr ((Text.isOneOf_iff ascii_wordEnds member).trans mem_wordEnds)]
  have parts : text.toList =
      front ++ (back.takeWhile (!endsWord ·) ++ back.dropWhile (!endsWord ·)) := by
    rw [split, List.takeWhile_append_dropWhile]
  rw [word, bytesFrom_eq split, Text.takeWhile_bytes agree, Text.length_bytes,
    advance_eq parts rfl, ok_bind]
  rw [← List.append_assoc] at parts
  rw [sliceTo_eq parts rfl, ok_bind, sliceFrom_eq rfl rfl, ok_bind]
  rfl

theorem agrees_digits {before word : List Char} (split : text.toList = before ++ (word ++ back))
    (some : word ≠ []) (base bitsPerDigit size : Nat) (ds : List Char) :
    Agrees text (Moved text (utf8Len before))
      (digits text base bitsPerDigit (utf8Len before) (utf8Len (before ++ word)) word ds)
      (readOneFrom size []
        (⟨utf8Len before, radixToken base bitsPerDigit (utf8Len before) word ds⟩ ::
          scan (utf8Len (before ++ word)) .blank back)) := by
  have start := split
  rw [← List.append_assoc] at split
  rw [digits, radixToken]
  cases Numeral.readInt? base ds with
  | none =>
    have place : utf8Len before + (String.ofList word).utf8ByteSize = utf8Len (before ++ word) := by
      rw [String.utf8ByteSize_ofList, String.utf8Len_append]
    simp only [place]
    exact agrees_report split _
  | some value =>
    dsimp only
    split
    · exact agrees_overflow start
    · refine .done (.behind split ?_ _)
      have wide : utf8Len word ≠ 0 := by simpa using some
      rw [String.utf8Len_append]
      omega

theorem agrees_radixLiteral (split : text.toList = front ++ '#' :: back) (size : Nat) :
    Agrees text (Moved text (utf8Len front)) (radixLiteral text (utf8Len front))
      (readOneFrom size [] (scan (utf8Len front) .blank ('#' :: back))) := by
  have parts : text.toList = front ++
      (('#' :: back).takeWhile (!endsWord ·) ++ ('#' :: back).dropWhile (!endsWord ·)) := by
    rw [split, List.takeWhile_append_dropWhile]
  have taken : ('#' :: back).takeWhile (!endsWord ·) = '#' :: back.takeWhile (!endsWord ·) := rfl
  rw [radixLiteral, word_eq split, ok_bind,
    Lexeme.scan_wordStart (by decide) (by decide), ← String.utf8Len_append]
  rw [taken] at parts ⊢
  generalize back.takeWhile (!endsWord ·) = rest at parts
  cases rest with
  | nil => exact agrees_report split _
  | cons d ds =>
    by_cases binary : d = 'b'
    · subst binary
      exact agrees_digits parts (List.cons_ne_nil _ _) 2 1 size ds
    · by_cases hexadecimal : d = 'x'
      · subst hexadecimal
        exact agrees_digits parts (List.cons_ne_nil _ _) 16 4 size ds
      · have token : Token.ofWord (utf8Len front) ('#' :: d :: ds) =
            .fault ⟨utf8Len front, .unknownLiteral (String.ofList ('#' :: d :: ds))⟩ := by
          simp [Token.ofWord, binary, hexadecimal]
        rw [token]
        split
        · next same =>
          cases same
          exact absurd rfl binary
        · next same =>
          cases same
          exact absurd rfl hexadecimal
        · next same =>
          cases same
          exact agrees_report split _

theorem agrees_simpleAtom {c : Char} (split : text.toList = front ++ c :: back)
    (inside : endsWord c = false) (bar : c ≠ '|') (hash : c ≠ '#') (size : Nat) :
    Agrees text (Moved text (utf8Len front)) (simpleAtom text (utf8Len front))
      (readOneFrom size [] (scan (utf8Len front) .blank (c :: back))) := by
  have parts : text.toList = front ++ (c :: back).takeWhile (!endsWord ·) ++
      (c :: back).dropWhile (!endsWord ·) := by
    rw [split, List.append_assoc, List.takeWhile_append_dropWhile]
  have taken : (c :: back).takeWhile (!endsWord ·) = c :: back.takeWhile (!endsWord ·) :=
    List.takeWhile_cons_of_pos (by simp [inside])
  rw [simpleAtom, word_eq split, ok_bind, Lexeme.scan_wordStart inside bar, ← String.utf8Len_append]
  rw [taken] at parts ⊢
  rw [Token.ofWord_of_ne_hash (by simpa using hash)]
  refine .done (.behind parts ?_ _)
  have wide := c.utf8Size_pos
  rw [String.utf8Len_append, String.utf8Len_cons]
  omega

/-- An expression whose first character is neither blank nor the start of a comment, given what
its items are read as when it is an application. -/
theorem agrees_beginning {turns : Nat} {c : Char} (split : text.toList = front ++ c :: back)
    (plain : Text.isAsciiBlank c = false) (code : c ≠ ';') (enough : utf8Len back < turns)
    (size : Nat) (application : c = '(' →
      Agrees text (Moved text (utf8Len front)) (items text turns (utf8Len (front ++ [c])) [])
        (readOneFrom size [[]] (scan (utf8Len (front ++ [c])) .blank back)))
    {b : UInt8} (member : b ∈ utf8EncodeChar c) :
    Agrees text (Moved text (utf8Len front))
      (beginning text turns (items text turns · []) b (utf8Len front))
      (readOneFrom size [] (scan (utf8Len front) .blank (c :: back))) := by
  rw [beginning]
  simp only [Text.eq_byte_iff (show '('.toNat < 128 by decide) member,
    Text.eq_byte_iff (show ')'.toNat < 128 by decide) member,
    Text.eq_byte_iff (show '"'.toNat < 128 by decide) member,
    Text.eq_byte_iff (show '|'.toNat < 128 by decide) member,
    Text.eq_byte_iff (show '#'.toNat < 128 by decide) member]
  split_ifs with opening closing quote bar hash
  · have next := application opening
    subst opening
    rw [advance_one split rfl, ok_bind]
    rw [Text.utf8Len_snoc rfl] at next ⊢
    exact next
  · subst closing
    exact agrees_report split _
  · subst quote
    have split' : text.toList = front ++ ['"'] ++ back := by simp [split]
    have next := agrees_stringFrom [] split' (by simpa using enough) size (utf8Len front)
    rw [advance_one split rfl, ok_bind]
    rw [Text.utf8Len_snoc rfl] at next ⊢
    exact next.mono (Nat.le_succ _)
  · subst bar
    have next := agrees_quotedSymbol split size
    rw [advance_one split rfl, ok_bind]
    rw [Text.utf8Len_snoc rfl] at next ⊢
    exact next
  · subst hash
    exact agrees_radixLiteral split size
  · refine agrees_simpleAtom split ?_ bar hash size
    simp [endsWord, plain, opening, closing, quote, code]

mutual

-- The induction is on the turns. An expression and the items behind it are the only calls
-- that can follow each other at one byte, so two turns for each byte that is left suffice.
theorem agrees_expr : ∀ (turns : Nat) {front back : List Char}, text.toList = front ++ back →
    2 * utf8Len back + 1 ≤ turns →
    Agrees text (Moved text (utf8Len front)) (expr text turns (utf8Len front))
      (readOneFrom text.utf8ByteSize [] (scan (utf8Len front) .blank back))
  | 0, _, _, _, enough => absurd enough (Nat.not_succ_le_zero _)
  | turns + 1, front, back, split, enough => by
    obtain ⟨skipped, rest, rfl, skip, scanned, stops⟩ := exists_skipTrivia split
    rw [← List.append_assoc] at split
    rw [String.utf8Len_append] at enough
    rw [expr, skip, ok_bind, scanned]
    cases rest with
    | nil =>
      rw [peek?_nil split, size_of_split split]
      exact agrees_report split _
    | cons c rest =>
      obtain ⟨plain, code⟩ := stops c rfl
      obtain ⟨b, member, peeked⟩ := peek?_cons split
      have wide := c.utf8Size_pos
      rw [String.utf8Len_cons] at enough
      have behind : text.toList = front ++ skipped ++ [c] ++ rest := by simp [split]
      have inner := agrees_items turns [] behind (by omega)
      have application := inner.mono (p := utf8Len (front ++ skipped))
        (by rw [String.utf8Len_append _ [c]]; omega)
      rw [peeked]
      refine (agrees_beginning split plain code (by omega) _ (fun _ => application) member).mono ?_
      rw [String.utf8Len_append]
      omega

theorem agrees_items : ∀ (turns : Nat) (earlier : List SExpr) {front back : List Char},
    text.toList = front ++ back → 2 * utf8Len back + 2 ≤ turns →
    Agrees text (Moved text (utf8Len front)) (items text turns (utf8Len front) earlier)
      (readOneFrom text.utf8ByteSize [earlier] (scan (utf8Len front) .blank back))
  | 0, _, _, _, _, enough => absurd enough (Nat.not_succ_le_zero _)
  | turns + 1, earlier, front, back, split, enough => by
    obtain ⟨skipped, rest, rfl, skip, scanned, stops⟩ := exists_skipTrivia split
    rw [← List.append_assoc] at split
    rw [String.utf8Len_append] at enough
    have start : utf8Len front ≤ utf8Len (front ++ skipped) := by
      rw [String.utf8Len_append]
      omega
    rw [items, skip, ok_bind, scanned]
    cases rest with
    | nil =>
      rw [peek?_nil split, size_of_split split]
      exact agrees_report split _
    | cons c rest =>
      obtain ⟨plain, code⟩ := stops c rfl
      obtain ⟨b, member, peeked⟩ := peek?_cons split
      rw [peeked]
      simp only [Text.eq_byte_iff (show ')'.toNat < 128 by decide) member]
      by_cases closing : c = ')'
      · subst closing
        have behind : text.toList = front ++ skipped ++ [')'] ++ rest := by simp [split]
        have length := Text.utf8Len_snoc (c := ')') rfl (front ++ skipped)
        have moved : Moved text (utf8Len front) _ _ :=
          .behind behind (by omega) (SExpr.fold earlier.reverse)
        rw [length] at moved
        have closes : scan (utf8Len (front ++ skipped)) .blank (')' :: rest) =
            ⟨utf8Len (front ++ skipped), .closing⟩ ::
              scan (utf8Len (front ++ skipped) + 1) .blank rest := rfl
        rw [if_pos rfl, advance_one split rfl, ok_bind, length, closes, SExpr.readOneFrom,
          SExpr.take]
        cases SExpr.foldOverflows earlier.reverse with
        | true => exact agrees_overflow split
        | false => exact .done moved
      · obtain ⟨l, ls, begun, _, other⟩ := Lexeme.scan_blank_cons plain code
          (utf8Len (front ++ skipped)) rest
        have item := agrees_expr turns split (by omega)
        rw [if_neg closing, begun, SExpr.readOneFrom_item fun same => closing (other same),
          ← begun]
        refine item.bind ?_
        rintro _ _ (@⟨front', back', split', moves, e⟩)
        have whole := size_of_split split
        have whole' := size_of_split split'
        exact (agrees_items turns (e :: earlier) split' (by omega)).mono (by omega)

end

theorem agrees_allFrom (turns : Nat) (split : text.toList = front ++ back)
    (enough : 2 * utf8Len back + 2 ≤ turns) :
    Agrees text Eq (allFrom text turns (utf8Len front))
      (SExpr.readAllFrom text.utf8ByteSize [] (scan (utf8Len front) .blank back)) := by
  induction turns generalizing front back with
  | zero => exact absurd enough (Nat.not_succ_le_zero _)
  | succ turns ih =>
    obtain ⟨skipped, rest, rfl, skip, scanned, stops⟩ := exists_skipTrivia split
    rw [← List.append_assoc] at split
    rw [String.utf8Len_append] at enough
    have size := size_of_split split
    rw [allFrom, skip, ok_bind, scanned]
    cases rest with
    | nil =>
      rw [if_pos (by simp [size])]
      exact .done rfl
    | cons c rest =>
      obtain ⟨plain, code⟩ := stops c rfl
      obtain ⟨l, ls, begun, _, _⟩ := Lexeme.scan_blank_cons plain code
        (utf8Len (front ++ skipped)) rest
      have wide := c.utf8Size_pos
      have one := agrees_expr turns split (by omega)
      rw [String.utf8Len_cons] at size
      have some : scan (utf8Len (front ++ skipped)) .blank (c :: rest) ≠ [] := by
        rw [begun]
        exact List.cons_ne_nil l ls
      rw [if_neg (by omega), SExpr.readAllFrom_eq (.inr some)]
      refine one.bind ?_
      rintro _ _ (@⟨front', back', split', moves, e⟩)
      have size' := size_of_split split'
      rw [String.utf8Len_cons] at enough
      exact (ih split' (by omega)).cons e

end

/-- Exactly one expression, without the text of the fault. -/
theorem parse_eq_bind (text : String) :
    SExpr.parse text =
      (readOneFrom text.utf8ByteSize [] (Lexeme.ofText text) >>= fun r =>
        match r.2 with
        | [] => Except.ok r.1
        | next :: _ => .error ⟨next.start, .trailingInput⟩).mapError (⟨·, text⟩) := by
  rw [SExpr.parse]
  rcases readOneFrom text.utf8ByteSize [] (Lexeme.ofText text) with f | ⟨e, rest⟩
  · rfl
  · cases rest <;> rfl

theorem agrees_parse {turns : Nat} {text : String} (enough : 2 * text.utf8ByteSize + 1 ≤ turns) :
    Agrees text Eq (parse turns text)
      (readOneFrom text.utf8ByteSize [] (Lexeme.ofText text) >>= fun r =>
        match r.2 with
        | [] => Except.ok r.1
        | next :: _ => .error ⟨next.start, .trailingInput⟩) := by
  have whole : text.toList = [] ++ text.toList := rfl
  refine (agrees_expr turns whole (by rwa [Text.utf8Len_toList])).bind ?_
  rintro _ _ (@⟨front, back, split, moves, e⟩)
  obtain ⟨skipped, rest, rfl, skip, scanned, stops⟩ := exists_skipTrivia split
  rw [← List.append_assoc] at split
  have size := size_of_split split
  simp only [skip, ok_bind, scanned]
  cases rest with
  | nil =>
    rw [if_neg (by simp [size])]
    exact .done rfl
  | cons c rest =>
    obtain ⟨plain, code⟩ := stops c rfl
    obtain ⟨l, ls, begun, start, _⟩ := Lexeme.scan_blank_cons plain code
      (utf8Len (front ++ skipped)) rest
    have wide := c.utf8Size_pos
    rw [String.utf8Len_cons] at size
    rw [if_pos (by omega), begun]
    simp only [start]
    exact agrees_report split _

section

variable {α : Type} {text : String} {outcome : Except Failure α} {read : Except ReadFault α}

theorem Agrees.eq_mapError (agrees : Agrees text Eq outcome read) :
    outcome = (read.mapError (⟨·, text⟩)).mapError .ofReadError := by
  cases agrees with
  | fault valid => rfl
  | done fit => rw [fit]; rfl

theorem Agrees.valid (agrees : Agrees text Eq outcome read) {e : ReadError}
    (fails : read.mapError (⟨·, text⟩) = .error e) :
    e.text = text ∧ (⟨e.fault.offset⟩ : String.Pos.Raw).IsValid text := by
  cases agrees with
  | fault valid =>
    cases fails
    exact ⟨rfl, valid⟩
  | done fit => cases fails

end

/-- Reading never leaves a text. With turns enough for its length, a reader that keeps a
position does what the machine does, so it never cuts or reports inside a character, never
passes the end and never meets a word without characters. Faults are reported between two
characters of the text, and every expression ends behind its start. Both readers overflow exactly
where they come to a lexeme that does, which in a text that is not very long is the end of a
word or of a root that does not fit into the machine. -/
theorem reader_safe (text : String) :
    (∀ turns, 2 * text.utf8ByteSize + 2 ≤ turns →
      parse turns text = (SExpr.parse text).mapError .ofReadError ∧
        parseAll turns text = (SExpr.parseAll text).mapError .ofReadError) ∧
    (∀ e, SExpr.parse text = .error e ∨ SExpr.parseAll text = .error e →
      e.text = text ∧ (⟨e.fault.offset⟩ : String.Pos.Raw).IsValid text) ∧
    (∀ turns pos, (⟨pos⟩ : String.Pos.Raw).IsValid text →
      2 * (text.utf8ByteSize - pos) + 1 ≤ turns →
      (∃ e next, expr text turns pos = .ok (e, next) ∧ pos < next ∧
          (⟨next⟩ : String.Pos.Raw).IsValid text) ∨
        ∃ f, expr text turns pos = .error (.ofFault text f) ∧
          (⟨f.offset⟩ : String.Pos.Raw).IsValid text) ∧
    (∀ start, SExpr.parse text = .error ⟨⟨start, .overflow⟩, text⟩ ↔
      SExpr.OverflowsAt false text start) ∧
    (∀ start, SExpr.parseAll text = .error ⟨⟨start, .overflow⟩, text⟩ ↔
      SExpr.OverflowsAt true text start) ∧
    ∀ many start, text.utf8ByteSize < 2 ^ 30 → SExpr.OverflowsAt many text start →
      ∃ items, SExpr.Closes many text items ∧ (SExpr.IsFieldwise 4294967295 items ∨
        ∃ p index, items = [.atom (.symbol "root-obj"), p, index] ∧
          p.polynomialOverflows = true) := by
  have whole : text.toList = [] ++ text.toList := rfl
  have all : ∀ turns, 2 * text.utf8ByteSize + 2 ≤ turns → Agrees text Eq (parseAll turns text)
      (SExpr.readAllFrom text.utf8ByteSize [] (Lexeme.ofText text)) := by
    intro turns enough
    exact agrees_allFrom turns whole (by rwa [Text.utf8Len_toList])
  refine ⟨fun turns enough => ⟨?_, (all turns enough).eq_mapError⟩, ?_, ?_,
    fun _ => SExpr.parse_eq_overflow, fun _ => SExpr.parseAll_eq_overflow,
    fun _ _ short overflows => overflows.exists_closes short⟩
  · rw [parse_eq_bind]
    exact (agrees_parse (Nat.le_of_succ_le enough)).eq_mapError
  · rintro e (one | every)
    · rw [parse_eq_bind] at one
      exact (agrees_parse (Nat.le_refl _)).valid one
    · exact (all _ (Nat.le_refl _)).valid every
  · intro turns pos valid enough
    obtain ⟨front, back, split, rfl⟩ := Text.isValid_iff.mp valid
    have size := size_of_split split
    have agrees := agrees_expr turns split (by omega)
    generalize expr text turns (utf8Len front) = outcome at agrees ⊢
    generalize readOneFrom _ _ _ = read at agrees
    cases agrees with
    | fault valid => exact .inr ⟨_, rfl, valid⟩
    | done fit =>
      obtain @⟨front', back', split', moves, e⟩ := fit
      exact .inl ⟨e, _, rfl, moves, isValid_of_split split'⟩

theorem reader_safe_accented :
    parse 8 "(é" = .error (.malformed ⟨⟨3, .unbalanced⟩, "(é"⟩) ∧
      (⟨3⟩ : String.Pos.Raw).IsValid "(é" ∧
      (∃ e next, expr "(é" 5 1 = .ok (e, next) ∧ 1 < next ∧
        (⟨next⟩ : String.Pos.Raw).IsValid "(é") ∧
      ∀ many start, ¬SExpr.OverflowsAt many "(é" start := by
  have fails : SExpr.parse "(é" = .error ⟨⟨3, .unbalanced⟩, "(é"⟩ := by rfl
  have failsAll : SExpr.parseAll "(é" = .error ⟨⟨3, .unbalanced⟩, "(é"⟩ := by rfl
  obtain ⟨agree, faults, moves, one, every, _⟩ := reader_safe "(é"
  refine ⟨?_, (faults _ (.inl fails)).2, ?_, fun many start overflows => ?_⟩
  · rw [(agree 8 (by decide)).1, fails]
    rfl
  · have start : (⟨1⟩ : String.Pos.Raw).IsValid "(é" := Text.isValid_iff_cut?.mpr (by decide)
    refine (moves 5 1 start (by decide)).resolve_right ?_
    rintro ⟨f, same, _⟩
    have read : expr "(é" 5 1 = .ok (.atom (.symbol "é"), 3) := by rfl
    rw [read] at same
    cases same
  · cases many with
    | false => cases fails.symm.trans ((one start).mpr overflows)
    | true => cases failsAll.symm.trans ((every start).mpr overflows)

/-- The largest exponent of 64 bits leaves no room for the coefficients of the power, so the
reader ends at this root with neither a tree nor a report. -/
theorem reader_overflows :
    let text := "(root-obj (^ x 18446744073709551615) 1)"
    parse 80 text = .error (.overflow 38) ∧
      ¬∀ (text : String) (turns : Nat), 2 * text.utf8ByteSize + 2 ≤ turns →
        (∃ e, parse turns text = .ok e) ∨ ∃ e, parse turns text = .error (.malformed e) := by
  intro text
  have overflow : parse 80 text = .error (.overflow 38) := by decide +kernel
  refine ⟨overflow, fun safe => ?_⟩
  rcases safe text 80 (by decide) with ⟨e, read⟩ | ⟨e, fault⟩
  · cases overflow.symm.trans read
  · cases overflow.symm.trans fault

end Cursor

end SmtDialogue
