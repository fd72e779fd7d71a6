import SmtDialogue.Proofs.Phrases

/-!
# What a string literal stands for

Between the quotes of a literal a character is written as itself, as a doubled quote, or
by its code point, in braces or in four digits. Reading undoes all of these, however they
are mixed. Undoing the doubled quotes first neither makes nor breaks an escape: there is
no quote inside one, and doubling a quote keeps the first character behind a backslash.
-/

namespace SmtDialogue

/-- A text between the quotes of a literal, and the string it writes. -/
inductive Spells : List Char → List Char → Prop where
  | nil : Spells [] []
  /-- A character as itself; behind a backslash no `u` may follow. -/
  | plain {c : Char} {cs s : List Char} (quote : c ≠ '"')
      (backslash : c = '\\' → cs.head? ≠ some 'u') (rest : Spells cs s) :
      Spells (c :: cs) (c :: s)
  | doubled {cs s : List Char} (rest : Spells cs s) : Spells ('"' :: '"' :: cs) ('"' :: s)
  | braced {digits cs s : List Char} {c : Char} (code : IsHexCode digits c)
      (rest : Spells cs s) : Spells ('\\' :: 'u' :: '\x7b' :: (digits ++ '\x7d' :: cs)) (c :: s)
  | short {digits cs s : List Char} {c : Char} (code : IsHexCode digits c)
      (four : digits.length = 4) (rest : Spells cs s) :
      Spells ('\\' :: 'u' :: (digits ++ cs)) (c :: s)

/-- A literal that writes a string. -/
def IsLiteralOf (text s : String) : Prop :=
  ∃ cs, text.toList = '"' :: cs ++ ['"'] ∧ Spells cs s.toList

/-- A character as the emitter writes it. -/
theorem Spells.stringChar (c : Char) {cs s : List Char} (rest : Spells cs s) :
    Spells (Literal.stringChar c ++ cs) (c :: s) := by
  by_cases quote : c = '"'
  · subst quote
    exact .doubled rest
  · by_cases printed : c ≠ '\\' ∧ ' ' ≤ c ∧ c ≤ '~'
    · have written : Literal.stringChar c = [c] := by
        simp only [Literal.stringChar, if_neg quote, if_pos printed]
      rw [written]
      exact .plain quote (fun backslash => absurd backslash printed.1) rest
    · have written : Literal.stringChar c ++ cs =
          '\\' :: 'u' :: '\x7b' :: (Text.hexCode c ++ '\x7d' :: cs) := by
        simp [Literal.stringChar, quote, printed]
      rw [written]
      exact .braced (.hexCode c) rest

/-- The emitter writes every string as a literal of it. -/
theorem isLiteralOf_string (s : String) : IsLiteralOf (Literal.string s) s := by
  have spells : ∀ cs : List Char, Spells (cs.flatMap Literal.stringChar) cs := by
    intro cs
    induction cs with
    | nil => exact .nil
    | cons c cs ih => exact ih.stringChar c
  exact ⟨s.toList.flatMap Literal.stringChar, by simp [Literal.string], spells s.toList⟩

/-- Behind the doubled quotes of a spelling stands a text whose escapes name the string. -/
theorem Spells.exists_decode {cs s : List Char} (spells : Spells cs s) :
    ∃ raw, Literal.doubled raw = cs ∧ Escape.decode raw = s := by
  induction spells with
  | nil => exact ⟨[], rfl, by rw [Escape.decode]⟩
  | @plain c _ _ quote backslash _ ih =>
    obtain ⟨raw, rfl, rfl⟩ := ih
    -- the backslash is judged by what follows in the text, decoding by what follows in `raw`
    rw [Literal.head?_doubled] at backslash
    refine ⟨c :: raw, ?_, Escape.decode_plain backslash⟩
    rw [Literal.doubled_cons, if_neg quote]
    rfl
  | doubled _ ih =>
    obtain ⟨raw, rfl, rfl⟩ := ih
    exact ⟨'"' :: raw, rfl, Escape.decode_cons (by decide) raw⟩
  | @braced digits _ _ _ code _ ih =>
    obtain ⟨raw, rfl, rfl⟩ := ih
    have inside : ∀ a ∈ digits, a ≠ '"' := fun a member => code.ne_of_mem member (by decide)
    have front : ∀ a ∈ '\\' :: 'u' :: '\x7b' :: (digits ++ ['\x7d']), a ≠ '"' := by
      simpa [or_imp, forall_and] using inside
    have written := Literal.doubled_append front raw
    simp only [List.cons_append, List.append_assoc, List.nil_append] at written
    exact ⟨_, written, Escape.decode_braced code raw⟩
  | @short digits _ _ _ code four _ ih =>
    obtain ⟨raw, rfl, rfl⟩ := ih
    have inside : ∀ a ∈ digits, a ≠ '"' := fun a member => code.ne_of_mem member (by decide)
    have front : ∀ a ∈ '\\' :: 'u' :: digits, a ≠ '"' := by
      simpa using inside
    exact ⟨'\\' :: 'u' :: (digits ++ raw), Literal.doubled_append front raw,
      Escape.decode_short code four raw⟩

namespace SExpr

/-- However a string is written as a literal, it is read back. -/
theorem parse_of_isLiteralOf {text s : String} (written : IsLiteralOf text s) :
    parse text = .ok (.atom (.string s)) := by
  obtain ⟨cs, quoted, spells⟩ := written
  obtain ⟨raw, rfl, decoded⟩ := spells.exists_decode
  have read := Spelling.parse_of_chars (.string raw) trivial quoted
  rw [read, Spelling.tree, decoded, String.ofList_toList]

/-- All four ways of writing a character in one literal: an escaped backslash does not
begin an escape with the `u` behind it, and a backslash before the last quote is one. -/
theorem parse_mixed_literal :
    IsLiteralOf "\"\\u\x7b5c\x7du\x7b41\x7d\"\"\\u00E9\\\"" "\\u\x7b41\x7d\"é\\" ∧
      parse "\"\\u\x7b5c\x7du\x7b41\x7d\"\"\\u00E9\\\"" =
        .ok (.atom (.string "\\u\x7b41\x7d\"é\\")) := by
  have backslash : IsHexCode ['5', 'c'] '\\' :=
    ⟨by simp, [5, 12], by simp [IsHexDigit], by decide⟩
  have accented : IsHexCode ['0', '0', 'E', '9'] 'é' :=
    ⟨by simp, [0, 0, 14, 9], by simp [IsHexDigit]; decide, by decide⟩
  have behind : Spells ['"', '"', '\\', 'u', '0', '0', 'E', '9', '\\'] ['"', 'é', '\\'] :=
    .doubled (.short accented rfl (.plain (by decide) (by decide) .nil))
  have word : Spells
      (['u', '\x7b', '4', '1', '\x7d'] ++ ['"', '"', '\\', 'u', '0', '0', 'E', '9', '\\'])
      (['u', '\x7b', '4', '1', '\x7d'] ++ ['"', 'é', '\\']) :=
    .plain (by decide) (by decide) <| .plain (by decide) (by decide) <|
      .plain (by decide) (by decide) <| .plain (by decide) (by decide) <|
        .plain (by decide) (by decide) behind
  have written : IsLiteralOf "\"\\u\x7b5c\x7du\x7b41\x7d\"\"\\u00E9\\\""
      "\\u\x7b41\x7d\"é\\" := ⟨_, rfl, .braced backslash word⟩
  exact ⟨written, parse_of_isLiteralOf written⟩

end SExpr

end SmtDialogue
