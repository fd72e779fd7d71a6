import SmtDialogue.Proofs.Bytes
import SmtDialogue.Proofs.Closed

/-!
# Texts one below the other

What a text is read as does not depend on what stands below it. Its lexemes are complete at
the line break, and those of the text below are what they are alone, only with later
offsets. So the expressions of both texts are read one after the other, and a fault in the
text below is the fault that this text has alone.
-/

namespace SmtDialogue

/-- The fault behind some bytes more. -/
def ReadFault.shifted (bytes : Nat) (f : ReadFault) : ReadFault :=
  ⟨f.offset + bytes, f.cause⟩

def Token.shifted (bytes : Nat) : Token → Token
  | .fault f => .fault (f.shifted bytes)
  | t => t

def Lexeme.shifted (bytes : Nat) (l : Lexeme) : Lexeme :=
  ⟨l.start + bytes, l.token.shifted bytes⟩

def LexMode.shifted (bytes : Nat) : LexMode → LexMode
  | .blank => .blank
  | .comment => .comment
  | .string start mark contents => .string (start + bytes) (mark + bytes) contents
  | .closingQuote start contents => .closingQuote (start + bytes) contents
  | .quotedSymbol start contents => .quotedSymbol (start + bytes) contents
  | .word start contents => .word (start + bytes) contents

namespace Lexeme

variable (bytes : Nat)

theorem ofWord_shifted (start : Nat) (contents : List Char) :
    ofWord (start + bytes) contents = (ofWord start contents).shifted bytes := by
  have radix : ∀ base bits word digits, radixToken base bits (start + bytes) word digits =
      (radixToken base bits start word digits).shifted bytes := by
    intro base bits word digits
    rw [radixToken, radixToken]
    cases Numeral.readInt? base digits with
    | none => simp [Token.shifted, ReadFault.shifted, Nat.add_right_comm]
    | some value =>
      simp only
      split <;> rfl
  have token : ∀ word, Token.ofWord (start + bytes) word =
      (Token.ofWord start word).shifted bytes := by
    intro word
    unfold Token.ofWord
    split
    · exact radix 2 1 _ _
    · exact radix 16 4 _ _
    · rfl
    · rfl
  rw [ofWord, ofWord, token]
  rfl

theorem begin_shifted (offset : Nat) (c : Char) :
    begin (offset + bytes) c =
      ((begin offset c).1.map (shifted bytes), (begin offset c).2.shifted bytes) := by
  unfold begin
  split_ifs
  case pos => rfl
  case pos => rfl
  case pos => rfl
  case pos => rfl
  case pos => simp [LexMode.shifted, Nat.add_right_comm]
  case pos => rfl
  case neg => rfl

/-- A move later in a text is the move, only with later offsets. -/
theorem step_shifted (offset : Nat) (mode : LexMode) (c : Char) :
    step (offset + bytes) (mode.shifted bytes) c =
      ((step offset mode c).1.map (shifted bytes), (step offset mode c).2.shifted bytes) := by
  have begun := begin_shifted bytes offset c
  cases mode with
  | blank => exact begun
  | comment =>
    simp only [step, LexMode.shifted]
    split <;> rfl
  | string start mark contents =>
    simp only [step, LexMode.shifted]
    split <;> rfl
  | closingQuote start contents =>
    simp only [step, LexMode.shifted]
    split
    · simp [Nat.add_right_comm]
    · rw [begun]
      rfl
  | quotedSymbol start contents =>
    simp only [step, LexMode.shifted]
    split <;> rfl
  | word start contents =>
    simp only [step, LexMode.shifted]
    split
    · rw [begun, ofWord_shifted]
      rfl
    · rfl

theorem finish_shifted (mode : LexMode) :
    finish (mode.shifted bytes) = (finish mode).map (shifted bytes) := by
  cases mode with
  | blank | comment => rfl
  | string start mark contents => rfl
  | closingQuote start contents => rfl
  | quotedSymbol start contents =>
    simp [finish, LexMode.shifted, shifted, Token.shifted, ReadFault.shifted, Nat.add_right_comm]
  | word start contents => exact congrArg (fun l => [l]) (ofWord_shifted bytes start contents)

theorem scan_shifted (offset : Nat) (mode : LexMode) (cs : List Char) :
    scan (offset + bytes) (mode.shifted bytes) cs =
      (scan offset mode cs).map (shifted bytes) := by
  induction cs generalizing offset mode with
  | nil => exact finish_shifted bytes mode
  | cons c cs ih =>
    rw [scan, scan, step_shifted, Nat.add_right_comm, ih, List.map_append]

/-- A line break completes what has begun, unless that is a string or a quoted symbol. -/
theorem step_break {mode : LexMode} (sound : none ∉ tokens (finish mode)) (offset : Nat) :
    step offset mode '\n' = (finish mode, .blank) := by
  have break_begins : begin offset '\n' = ([], .blank) := by
    simp [begin, Text.isAsciiBlank]
  cases mode with
  | blank => exact break_begins
  | comment => rfl
  | string start mark contents => simp [finish, Token.sound?] at sound
  | closingQuote start contents =>
    have other : '\n' ≠ '"' := by decide
    simp only [step, if_neg other, break_begins, finish]
  | quotedSymbol start contents => simp [finish, Token.sound?] at sound
  | word start contents =>
    have ends : endsWord '\n' = true := by decide
    simp only [step, if_pos ends, break_begins, finish]

/-- The lexemes of a text without faults are the same above another text, and the ones of
that text begin anew behind the line break. -/
theorem scan_above {offset : Nat} {mode : LexMode} {cs : List Char}
    (sound : none ∉ tokens (scan offset mode cs)) (ds : List Char) :
    scan offset mode (cs ++ '\n' :: ds) =
      scan offset mode cs ++ scan (offset + (String.utf8Len cs + 1)) .blank ds := by
  induction cs generalizing offset mode with
  | nil =>
    have broken : step offset mode '\n' = (finish mode, .blank) := step_break sound offset
    simp only [List.nil_append, scan, broken]
    rfl
  | cons c cs ih =>
    rw [scan, tokens_append, List.mem_append, not_or] at sound
    rw [List.cons_append, scan, scan, ih sound.2, List.append_assoc, String.utf8Len_cons]
    congr 3
    omega

end Lexeme

namespace SExpr

open Lexeme (tokens)

theorem take_shifted (bytes : Nat) (frames : Frames) (l : Lexeme) :
    take frames (l.shifted bytes) = (take frames l).mapError (ReadFault.shifted bytes) := by
  obtain ⟨start, token⟩ := l
  cases token with
  | opening => rfl
  | closing =>
    cases frames with
    | nil => rfl
    | cons items outer =>
      simp only [take, Lexeme.shifted, Token.shifted]
      split <;> rfl
  | atom a => rfl
  | fault f => rfl

/-- Lexemes with later offsets are read as they are, only with later faults. -/
theorem readAllFrom_shifted (bytes size : Nat) (frames : Frames) (ls : List Lexeme) :
    readAllFrom (size + bytes) frames (ls.map (Lexeme.shifted bytes)) =
      (readAllFrom size frames ls).mapError (ReadFault.shifted bytes) := by
  induction ls generalizing frames with
  | nil => cases frames <;> rfl
  | cons l ls ih =>
    rw [List.map_cons, readAllFrom, readAllFrom, take_shifted]
    cases take frames l with
    | error f => rfl
    | ok placed =>
      cases placed with
      | inside inner => exact ih inner
      | outside e =>
        simp only [Except.mapError, ih]
        cases readAllFrom size [] ls <;> rfl

/-- Behind lexemes that are read to the end, others are read on. -/
theorem readAllFrom_append {size total : Nat} {frames : Frames} {ls : List Lexeme}
    {es : List SExpr} (read : readAllFrom size frames ls = .ok es) (ms : List Lexeme) :
    readAllFrom total frames (ls ++ ms) = (readAllFrom total [] ms).map (es ++ ·) := by
  induction ls generalizing frames es with
  | nil =>
    cases frames with
    | nil =>
      cases read
      rw [List.nil_append]
      cases readAllFrom total [] ms <;> rfl
    | cons items outer => cases read
  | cons l ls ih =>
    rw [readAllFrom] at read
    rw [List.cons_append, readAllFrom]
    cases taken : take frames l with
    | error f => simp [taken] at read
    | ok placed =>
      rw [taken] at read
      cases placed with
      | inside inner => exact ih read
      | outside e =>
        obtain ⟨others, later, rfl⟩ := Except.map_eq_ok.mp read
        simp only [ih later]
        cases readAllFrom total [] ms <;> rfl

/-- The expressions of a text are read above any other text, and that one is read on. -/
theorem parseAll_above {a : String} {xs : List SExpr} (read : parseAll a = .ok xs) (b : String) :
    parseAll (a ++ "\n" ++ b) =
      match parseAll b with
      | .ok ys => .ok (xs ++ ys)
      | .error e => .error ⟨e.fault.shifted (a.utf8ByteSize + 1), a ++ "\n" ++ b⟩ := by
  have above := Except.mapError_eq_ok.mp read
  have sound := none_notMem_of_reach ((readAllFrom_eq_ok _ _ _ _).mp above)
  have chars : (a ++ "\n" ++ b).toList = a.toList ++ '\n' :: b.toList := by simp
  have bytes : (a ++ "\n" ++ b).utf8ByteSize = b.utf8ByteSize + (a.utf8ByteSize + 1) := by
    simp only [String.utf8ByteSize_append]
    have newline : "\n".utf8ByteSize = 1 := rfl
    omega
  have lexemes : Lexeme.ofText (a ++ "\n" ++ b) =
      Lexeme.ofText a ++ (Lexeme.ofText b).map (Lexeme.shifted (a.utf8ByteSize + 1)) := by
    rw [Lexeme.ofText, chars, Lexeme.scan_above sound, Text.utf8Len_toList, Lexeme.ofText,
      Lexeme.ofText, ← Lexeme.scan_shifted]
    rfl
  rw [parseAll, lexemes, readAllFrom_append above, bytes, readAllFrom_shifted, parseAll]
  cases readAllFrom b.utf8ByteSize [] (Lexeme.ofText b) <;> rfl

/-- Reading is compositional. Above another text, a text that is read keeps its expressions;
the text below succeeds as it does alone, with its own expressions behind them, and fails as
it does alone, with its own fault at its place in the whole. One expression is read from a
text exactly when it is all that the text holds. -/
theorem parseAll_append_iff (a : String) :
    (∀ xs, parseAll a = .ok xs → ∀ b,
      (∀ ys, parseAll (a ++ "\n" ++ b) = .ok ys ↔ ∃ zs, parseAll b = .ok zs ∧ ys = xs ++ zs) ∧
      ∀ e, parseAll (a ++ "\n" ++ b) = .error e ↔ ∃ f, parseAll b = .error f ∧
        e = ⟨⟨f.fault.offset + (a.utf8ByteSize + 1), f.fault.cause⟩, a ++ "\n" ++ b⟩) ∧
    ∀ e, parse a = .ok e ↔ parseAll a = .ok [e] := by
  refine ⟨fun xs read b => ?_, fun e => ⟨parseAll_of_parse, parse_of_parseAll⟩⟩
  rw [parseAll_above read b]
  cases parseAll b with
  | ok zs =>
    refine ⟨fun ys => ?_, fun e => by simp⟩
    simp [eq_comm]
  | error f =>
    refine ⟨fun ys => by simp, fun e => ?_⟩
    simp [ReadFault.shifted, eq_comm]

/-- What stands above: a string, a bar and a word, and a comment with an open parenthesis. -/
def noted : String := "(f \"x\") |y| z; ("

/-- The text below begins with a doubled quote, which belongs to no string above it. Its fault
is the seventh byte behind the line break; without that parenthesis both texts are read. -/
theorem parseAll_append_iff_noted :
    parseAll (noted ++ "\n" ++ "\"\"\"\" -1") = .ok [
      .app [.atom (.symbol "f"), .atom (.string "x")],
        .atom (.symbol "y"), .atom (.symbol "z"), .atom (.string "\""), .atom (.int (-1) none)] ∧
      parseAll (noted ++ "\n" ++ "\"\"\"\" -1)") =
        .error ⟨⟨24, .unexpectedClosing⟩, noted ++ "\n" ++ "\"\"\"\" -1)"⟩ ∧
      parse "\"\"\"\"" = .ok (.atom (.string "\"")) := by
  have above : parseAll noted = .ok [.app [.atom (.symbol "f"), .atom (.string "x")],
      .atom (.symbol "y"), .atom (.symbol "z")] := by decide +kernel
  obtain ⟨below, -⟩ := parseAll_append_iff noted
  refine ⟨((below _ above "\"\"\"\" -1").1 _).mpr ?_, ((below _ above "\"\"\"\" -1)").2 _).mpr ?_,
    ((parseAll_append_iff "\"\"\"\"").2 _).mpr (by decide +kernel)⟩
  · exact ⟨[.atom (.string "\""), .atom (.int (-1) none)], by decide +kernel, rfl⟩
  · exact ⟨⟨⟨7, .unexpectedClosing⟩, "\"\"\"\" -1)"⟩, by decide +kernel, by decide +kernel⟩

end SExpr

end SmtDialogue
