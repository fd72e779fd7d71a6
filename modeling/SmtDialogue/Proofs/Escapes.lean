import SmtDialogue.Proofs.Digits
import SmtDialogue.SExpr.Basic
import SmtDialogue.Value.Literal

/-!
# Strings between quotes

A string literal is decoded in two passes: doubled quotes become single ones, then
escapes become characters. What is written for a string passes through both and
comes out as that string, whatever its characters are.
-/

namespace SmtDialogue.Escape

/-- A backslash without a `u` behind it is an ordinary character. -/
theorem decode_plain {c : Char} {rest : List Char} (plain : c = '\\' → rest.head? ≠ some 'u') :
    decode (c :: rest) = c :: decode rest := by
  rw [decode]
  rintro tail rfl rfl
  exact plain rfl rfl

theorem decode_cons {c : Char} (h : c ≠ '\\') (rest : List Char) :
    decode (c :: rest) = c :: decode rest :=
  decode_plain fun same => absurd same h

variable {digits : List Char} {c : Char}

/-- A code point in braces is replaced by its character, and decoding goes on behind. -/
theorem decode_braced (code : IsHexCode digits c) (rest : List Char) :
    decode ('\\' :: 'u' :: '\x7b' :: (digits ++ '\x7d' :: rest)) = c :: decode rest := by
  have inside : ∀ a ∈ digits, (a != '\x7d') = true := by
    intro a member
    simpa using code.ne_of_mem (a := '\x7d') member (by decide)
  have taken : (digits ++ '\x7d' :: rest).takeWhile (· != '\x7d') = digits := by
    rw [List.takeWhile_append_of_pos inside]
    simp
  have named : named? ('\x7b' :: (digits ++ '\x7d' :: rest)) = some (c, digits.length + 2) := by
    simp [named?, taken, code.character?]
  rw [decode, named]
  simp

/-- So is one of four digits. -/
theorem decode_short (code : IsHexCode digits c) (four : digits.length = 4) (rest : List Char) :
    decode ('\\' :: 'u' :: (digits ++ rest)) = c :: decode rest := by
  have taken : (digits ++ rest).take 4 = digits := List.take_left' four
  have named : named? (digits ++ rest) = some (c, 4) := by
    obtain ⟨a, others, rfl⟩ := List.exists_cons_of_ne_nil code.1
    have brace : a ≠ '\x7b' := code.ne_of_mem List.mem_cons_self (by decide)
    simp only [List.cons_append] at taken
    simp [named?, brace, taken, four, code.character?]
  rw [decode, named]
  simp only [List.drop_left' four]

end SmtDialogue.Escape

namespace SmtDialogue.Literal

/-- A character as it stands between the quotes once they are no longer doubled. -/
def bareChar (c : Char) : List Char :=
  if c = '"' then [c] else stringChar c

theorem decode_bareChar (c : Char) (rest : List Char) :
    Escape.decode (bareChar c ++ rest) = c :: Escape.decode rest := by
  by_cases quote : c = '"'
  · subst quote
    exact Escape.decode_cons (by decide) rest
  · by_cases plain : c ≠ '\\' ∧ ' ' ≤ c ∧ c ≤ '~'
    · have written : stringChar c = [c] := by
        simp only [stringChar, if_neg quote, if_pos plain]
      simpa [bareChar, quote, written] using Escape.decode_cons plain.1 rest
    · have written : stringChar c = ['\\', 'u', '\x7b'] ++ Text.hexCode c ++ ['\x7d'] := by
        simp only [stringChar, if_neg quote, if_neg plain]
      simpa [bareChar, quote, written] using Escape.decode_braced (.hexCode c) rest

theorem decode_bareChars (cs : List Char) : Escape.decode (cs.flatMap bareChar) = cs := by
  induction cs with
  | nil => simp [Escape.decode]
  | cons c rest ih => rw [List.flatMap_cons, decode_bareChar, ih]

/-- The text with every quote written twice. -/
def doubled (cs : List Char) : List Char :=
  cs.flatMap fun c => if c = '"' then ['"', '"'] else [c]

theorem doubled_cons (c : Char) (cs : List Char) :
    doubled (c :: cs) = (if c = '"' then ['"', '"'] else [c]) ++ doubled cs :=
  List.flatMap_cons

theorem doubled_append {cs : List Char} (h : ∀ c ∈ cs, c ≠ '"') (ds : List Char) :
    doubled (cs ++ ds) = cs ++ doubled ds := by
  induction cs with
  | nil => rfl
  | cons c rest ih =>
    have hc : c ≠ '"' := h c List.mem_cons_self
    have hrest := ih fun d hd => h d (List.mem_cons_of_mem c hd)
    rw [List.cons_append, doubled_cons, if_neg hc, hrest]
    rfl

theorem doubled_eq_self {cs : List Char} (h : ∀ c ∈ cs, c ≠ '"') : doubled cs = cs := by
  simpa [doubled] using doubled_append h []

/-- Doubling keeps the first character. -/
theorem head?_doubled (cs : List Char) : (doubled cs).head? = cs.head? := by
  cases cs with
  | nil => rfl
  | cons c rest =>
    by_cases quote : c = '"'
    · simp [doubled_cons, quote]
    · simp [doubled_cons, quote]

/-- No written character but the quote itself has a quote in it. -/
theorem quote_notMem_stringChar {c : Char} (quote : c ≠ '"') : ∀ d ∈ stringChar c, d ≠ '"' := by
  intro d hd
  simp only [stringChar, if_neg quote] at hd
  split at hd
  · rw [List.mem_singleton.mp hd]
    exact quote
  · simp only [List.mem_append, List.mem_cons, List.not_mem_nil, or_false] at hd
    rcases hd with ((rfl | rfl | rfl) | hd) | rfl
    · decide
    · decide
    · decide
    · exact (IsHexCode.hexCode c).ne_of_mem hd (by decide)
    · decide

/-- Doubling the quotes of a bare character gives the written one. -/
theorem doubled_bareChar (c : Char) : doubled (bareChar c) = stringChar c := by
  by_cases quote : c = '"'
  · subst quote
    rfl
  · rw [bareChar, if_neg quote]
    exact doubled_eq_self (quote_notMem_stringChar quote)

theorem toList_string (s : String) :
    (string s).toList = '"' :: doubled (s.toList.flatMap bareChar) ++ ['"'] := by
  have each : doubled (s.toList.flatMap bareChar) = s.toList.flatMap stringChar := by
    rw [doubled, List.flatMap_assoc]
    exact congrArg s.toList.flatMap (funext doubled_bareChar)
  simp [string, each]

end SmtDialogue.Literal
