import SmtDialogue.SExpr.Escape

/-!
# Reading a document

A reader takes what it needs from the front of what is left, be it characters or
tokens. A fault is the absence of a result: why a document cannot be read is not
part of an answer.
-/

namespace SmtDialogue

/-- Readers of what is left of a document. -/
abbrev Reads (σ α : Type) := StateT (List σ) Option α

namespace Reads

variable {σ α : Type}

/-- What is next, which stays. -/
def peek : Reads σ (Option σ) :=
  return (← get).head?

def skip : Reads σ Unit :=
  modify (·.drop 1)

def expect [DecidableEq σ] (a : σ) : Reads σ Unit := do
  if (← peek) = some a then skip else failure

/-- Whether `a` was next; if so, it is taken. -/
def takeIf [DecidableEq σ] (a : σ) : Reads σ Bool := do
  if (← peek) = some a then
    skip
    return true
  else return false

def takeWhile (p : σ → Bool) : Reads σ (List σ) :=
  modifyGet fun s => (s.takeWhile p, s.dropWhile p)

def skipWhile (p : σ → Bool) : Reads σ Unit :=
  modify (·.dropWhile p)

/-- A reader whose result may be missing faults when it is. -/
def require : Option α → Reads σ α
  | some a => return a
  | none => failure

/-- The result of a reader, or nothing taken where it faults. -/
def attempt (reader : Reads σ α) : Reads σ (Option α) := fun s =>
  match reader.run s with
  | some (a, rest) => some (some a, rest)
  | none => some (none, s)

/-- The result on a whole input. -/
def all (reader : Reads σ α) (input : List σ) : Option α :=
  match reader.run input with
  | some (a, []) => some a
  | _ => none

end Reads

/-- Which escapes a format has: letters that stand for one character, and letters
after which a fixed number of hexadecimal digits gives a code point. -/
structure EscapeLetters where
  single : Char → Option Char
  digits : Char → Option Nat

namespace EscapeLetters

/-- The character that exactly `n` hexadecimal digits name. -/
def codePoint? (n : Nat) (cs : List Char) : Option Char :=
  let digits := cs.take n
  if digits.length = n then
    (digits.mapM (Numeral.digit? 16)).bind fun ds => Escape.scalar? (Numeral.value 16 ds)
  else none

/-- The character that the text behind a backslash begins with, and what follows. -/
def read? (letters : EscapeLetters) : List Char → Option (Char × List Char)
  | [] => none
  | c :: rest =>
    match letters.single c, letters.digits c with
    | some x, _ => some (x, rest)
    | none, some n => (codePoint? n rest).map fun x => (x, rest.drop n)
    | none, none => none

theorem length_lt_of_read? {letters : EscapeLetters} {cs rest : List Char} {x : Char}
    (h : letters.read? cs = some (x, rest)) : rest.length < cs.length := by
  cases cs with
  | nil => simp [read?] at h
  | cons c cs =>
    simp only [read?] at h
    split at h
    · simp only [Option.some.injEq, Prod.mk.injEq] at h
      simp [← h.2]
    · simp only [Option.map_eq_some_iff, Prod.mk.injEq] at h
      obtain ⟨_, _, _, rfl⟩ := h
      simp only [List.length_drop, List.length_cons]
      omega
    · simp at h

end EscapeLetters

/-- Dropping leaves no more than there was. -/
theorem length_dropWhile_le {α : Type} (p : α → Bool) (xs : List α) :
    (xs.dropWhile p).length ≤ xs.length :=
  (List.dropWhile_sublist p).length_le

end SmtDialogue
