import SmtDialogue.Proofs.Results
import SmtDialogue.SExpr.Reader

/-!
# Reading without offsets

Where a text starts matters for its faults only. So a text is cut into the same tokens
behind any other text that leaves nothing begun, and what both together are read as is
what each of them is read as.
-/

namespace SmtDialogue

/-- A token, unless it is a fault. -/
def Token.sound? : Token → Option Token
  | .fault _ => none
  | t => some t

/-- The mode without its offsets. -/
def LexMode.still : LexMode → LexMode
  | .blank => .blank
  | .comment => .comment
  | .string _ _ contents => .string 0 0 contents
  | .closingQuote _ contents => .closingQuote 0 contents
  | .quotedSymbol _ contents => .quotedSymbol 0 contents
  | .word _ contents => .word 0 contents

/-- The mode after some characters, its offsets aside. -/
def LexMode.after (mode : LexMode) (cs : List Char) : LexMode :=
  cs.foldl (fun m c => (Lexeme.step 0 m c).2) mode

@[simp] theorem LexMode.after_nil (mode : LexMode) : mode.after [] = mode := rfl

@[simp] theorem LexMode.after_cons (mode : LexMode) (c : Char) (cs : List Char) :
    mode.after (c :: cs) = (Lexeme.step 0 mode c).2.after cs := rfl

theorem LexMode.after_append (mode : LexMode) (cs ds : List Char) :
    mode.after (cs ++ ds) = (mode.after cs).after ds :=
  List.foldl_append

namespace Lexeme

/-- The tokens of lexemes; a fault is none. -/
def tokens (ls : List Lexeme) : List (Option Token) :=
  ls.map fun l => l.token.sound?

/-- The tokens of a text that continues in the given mode. -/
def cut (mode : LexMode) (cs : List Char) : List (Option Token) :=
  tokens (scan 0 mode cs)

/-- The tokens that are complete within some characters. -/
def passed (mode : LexMode) : List Char → List (Option Token)
  | [] => []
  | c :: cs => tokens (step 0 mode c).1 ++ passed (step 0 mode c).2 cs

@[simp] theorem tokens_nil : tokens [] = [] := rfl

@[simp] theorem tokens_cons (l : Lexeme) (ls : List Lexeme) :
    tokens (l :: ls) = l.token.sound? :: tokens ls := rfl

@[simp] theorem tokens_append (ls ms : List Lexeme) : tokens (ls ++ ms) = tokens ls ++ tokens ms :=
  List.map_append

theorem sound?_ofWord (start stop : Nat) (word : List Char) :
    (Token.ofWord start word).sound? = (Token.ofWord stop word).sound? := by
  have radix : ∀ base bits digits, (radixToken base bits start word digits).sound? =
      (radixToken base bits stop word digits).sound? := by
    intro base bits digits
    rw [radixToken, radixToken]
    cases Numeral.readInt? base digits with
    | none => rfl
    | some i => cases widthOverflows bits digits <;> simp [Token.sound?]
  unfold Token.ofWord
  split
  · exact radix 2 1 _
  · exact radix 16 4 _
  · rfl
  · rfl

theorem still_begin (offset : Nat) (c : Char) :
    tokens (begin offset c).1 = tokens (begin 0 c).1 ∧
      (begin offset c).2.still = (begin 0 c).2.still := by
  unfold begin
  split_ifs <;> exact ⟨rfl, rfl⟩

/-- A move does not depend on offsets. -/
theorem still_step {m n : LexMode} (same : m.still = n.still) (offset : Nat) (c : Char) :
    tokens (step offset m c).1 = tokens (step 0 n c).1 ∧
      (step offset m c).2.still = (step 0 n c).2.still := by
  obtain ⟨begun, mode⟩ := still_begin offset c
  cases m <;> cases n <;> cases same
  case blank.blank => exact ⟨begun, mode⟩
  case comment.comment => exact ⟨rfl, rfl⟩
  case string.string =>
    refine ⟨rfl, ?_⟩
    simp only [step]
    split <;> rfl
  case closingQuote.closingQuote =>
    simp only [step]
    split
    · exact ⟨rfl, rfl⟩
    · exact ⟨congrArg (_ :: ·) begun, mode⟩
  case quotedSymbol.quotedSymbol =>
    simp only [step]
    split <;> exact ⟨rfl, rfl⟩
  case word.word =>
    simp only [step]
    split
    · exact ⟨congrArg₂ List.cons (sound?_ofWord _ _ _) begun, mode⟩
    · exact ⟨rfl, rfl⟩

theorem tokens_finish {m n : LexMode} (same : m.still = n.still) :
    tokens (finish m) = tokens (finish n) := by
  cases m <;> cases n <;> cases same
  case word.word => exact congrArg₂ List.cons (sound?_ofWord _ _ _) rfl
  all_goals rfl

/-- A text is cut in the same way at any offset. -/
theorem tokens_scan {m n : LexMode} (same : m.still = n.still) (offset : Nat) (cs : List Char) :
    tokens (scan offset m cs) = cut n cs := by
  -- Both scans move on from offsets of their own, so the two must be free.
  suffices at_any : ∀ stop, tokens (scan offset m cs) = tokens (scan stop n cs) from at_any 0
  induction cs generalizing m n offset with
  | nil => exact fun _ => tokens_finish same
  | cons c cs ih =>
    intro stop
    obtain ⟨first, next⟩ := still_step same offset c
    obtain ⟨first', next'⟩ := still_step (m := n) rfl stop c
    rw [scan, scan, tokens_append, tokens_append, first, first',
      ih (next.trans next'.symm) (offset + c.utf8Size) (stop + c.utf8Size)]

theorem cut_nil (mode : LexMode) : cut mode [] = tokens (finish mode) := rfl

theorem cut_cons (mode : LexMode) (c : Char) (cs : List Char) :
    cut mode (c :: cs) = tokens (step 0 mode c).1 ++ cut (step 0 mode c).2 cs := by
  rw [cut, scan, tokens_append, tokens_scan rfl]

theorem cut_append (mode : LexMode) (cs ds : List Char) :
    cut mode (cs ++ ds) = passed mode cs ++ cut (mode.after cs) ds := by
  induction cs generalizing mode with
  | nil => rfl
  | cons c cs ih =>
    rw [List.cons_append, cut_cons, ih, passed, List.append_assoc, LexMode.after_cons]

theorem cut_eq (mode : LexMode) (cs : List Char) :
    cut mode cs = passed mode cs ++ tokens (finish (mode.after cs)) := by
  rw [← List.append_nil cs, cut_append, cut_nil, List.append_nil]

theorem passed_append (mode : LexMode) (cs ds : List Char) :
    passed mode (cs ++ ds) = passed mode cs ++ passed (mode.after cs) ds := by
  induction cs generalizing mode with
  | nil => rfl
  | cons c cs ih =>
    rw [List.cons_append, passed, ih, passed, List.append_assoc, LexMode.after_cons]

end Lexeme

namespace SExpr

open Lexeme (tokens cut)

/-- The expressions that tokens complete, and the applications they leave open. -/
def reach (frames : Frames) : List (Option Token) → Option (List SExpr × Frames)
  | [] => some ([], frames)
  | none :: _ => none
  | some t :: rest =>
    match take frames ⟨0, t⟩ with
    | .error _ => none
    | .ok (.inside frames) => reach frames rest
    | .ok (.outside e) => (reach [] rest).map fun r => (e :: r.1, r.2)

theorem reach_append (frames : Frames) (ts us : List (Option Token)) :
    reach frames (ts ++ us) =
      (reach frames ts).bind fun r => (reach r.2 us).map fun s => (r.1 ++ s.1, s.2) := by
  induction ts generalizing frames with
  | nil => simp [reach]
  | cons t ts ih =>
    cases t with
    | none => rfl
    | some t =>
      rw [List.cons_append, reach, reach]
      cases take frames ⟨0, t⟩ with
      | error f => rfl
      | ok p =>
        cases p with
        | inside inner => exact ih inner
        | outside e =>
          simp only [ih []]
          cases reach [] ts with
          | none => rfl
          | some r => simp [Function.comp_def]

/-- What a lexeme makes of the open applications, faults aside. -/
theorem reach_cons (frames : Frames) (l : Lexeme) (ts : List (Option Token)) :
    reach frames (l.token.sound? :: ts) =
      match take frames l with
      | .error _ => none
      | .ok (.inside frames) => reach frames ts
      | .ok (.outside e) => (reach [] ts).map fun r => (e :: r.1, r.2) := by
  obtain ⟨start, token⟩ := l
  cases token with
  | opening => rfl
  | closing =>
    cases frames with
    | nil => rfl
    | cons items outer =>
      cases overflows : foldOverflows items.reverse <;>
        simp [reach, take, overflows, Token.sound?]
  | atom a => rfl
  | fault f => rfl

theorem readAllFrom_eq_ok (size : Nat) (frames : Frames) (ls : List Lexeme) (es : List SExpr) :
    readAllFrom size frames ls = .ok es ↔ reach frames (tokens ls) = some (es, []) := by
  induction ls generalizing frames es with
  | nil => cases frames <;> simp [readAllFrom, reach]
  | cons l ls ih =>
    rw [readAllFrom, Lexeme.tokens_cons, reach_cons]
    cases take frames l with
    | error f => simp
    | ok p =>
      cases p with
      | inside inner => exact ih inner es
      | outside e =>
        rw [Except.map_eq_ok, Option.map_eq_some_iff]
        constructor
        · rintro ⟨fs, read, rfl⟩
          exact ⟨(fs, []), (ih [] fs).mp read, rfl⟩
        · rintro ⟨⟨fs, inner⟩, read, same⟩
          cases same
          exact ⟨fs, (ih [] fs).mpr read, rfl⟩

theorem parseAll_eq_ok {text : String} {es : List SExpr} :
    parseAll text = .ok es ↔ reach [] (cut .blank text.toList) = some (es, []) := by
  rw [parseAll, Except.mapError_eq_ok, readAllFrom_eq_ok, Lexeme.ofText, cut]

end SExpr

end SmtDialogue
