import SmtDialogue.SExpr.Fold
import SmtDialogue.SExpr.Lexeme

/-!
# Reading S-expressions

The reader keeps the items of every open application, innermost first, and folds
an application when it is closed. Reading ends where the folding overflows. Nesting
costs memory in that list only. Both readers are structural in the lexemes: one reads
every expression of a text, the other exactly one.
-/

namespace SmtDialogue

/-- A malformed text, with the place and the cause. -/
structure ReadError where
  fault : ReadFault
  text : String
deriving DecidableEq

def ReadError.message (e : ReadError) : String :=
  "Malformed solver text at offset " ++ toString e.fault.offset ++ ": " ++
    e.fault.cause.message ++ "\n  text: " ++ e.text

namespace SExpr

/-- The items of the open applications, innermost first, each list in reverse. -/
abbrev Frames := List (List SExpr)

/-- Where a complete expression goes: into the innermost open application, or out. -/
inductive Placed where
  | inside (frames : Frames)
  | outside (e : SExpr)

def place (e : SExpr) : Frames → Placed
  | [] => .outside e
  | items :: outer => .inside ((e :: items) :: outer)

/-- What a lexeme makes of the open applications. -/
def take (frames : Frames) (lexeme : Lexeme) : Except ReadFault Placed :=
  match lexeme.token with
  | .opening => .ok (.inside ([] :: frames))
  | .closing =>
    match frames with
    | [] => .error ⟨lexeme.start, .unexpectedClosing⟩
    | items :: outer =>
      if foldOverflows items.reverse then .error ⟨lexeme.start, .overflow⟩
      else .ok (place (fold items.reverse) outer)
  | .atom a => .ok (place (.atom a) frames)
  | .fault f => .error f

theorem take_closing_eq_ok {items : List SExpr} {outer : Frames} {start : Nat} {p : Placed} :
    take (items :: outer) ⟨start, .closing⟩ = .ok p ↔
      foldOverflows items.reverse = false ∧ place (fold items.reverse) outer = p := by
  cases overflows : foldOverflows items.reverse <;> simp [take, overflows]

/-- Reads all expressions. `size` is the offset of the end of the text. -/
def readAllFrom (size : Nat) (frames : Frames) : List Lexeme → Except ReadFault (List SExpr)
  | [] => if frames.isEmpty then .ok [] else .error ⟨size, .unbalanced⟩
  | lexeme :: rest =>
    match take frames lexeme with
    | .error f => .error f
    | .ok (.inside frames) => readAllFrom size frames rest
    | .ok (.outside e) => (readAllFrom size [] rest).map (e :: ·)

/-- Reads up to the end of the first expression, and returns what is left. -/
def readOneFrom (size : Nat) (frames : Frames) :
    List Lexeme → Except ReadFault (SExpr × List Lexeme)
  | [] => .error ⟨size, if frames.isEmpty then .unexpectedEnd else .unbalanced⟩
  | lexeme :: rest =>
    match take frames lexeme with
    | .error f => .error f
    | .ok (.inside frames) => readOneFrom size frames rest
    | .ok (.outside e) => .ok (e, rest)

/-- Reads every expression of a text. -/
def parseAll (text : String) : Except ReadError (List SExpr) :=
  (readAllFrom text.utf8ByteSize [] (Lexeme.ofText text)).mapError (⟨·, text⟩)

/-- Reads a text that holds exactly one expression. -/
def parse (text : String) : Except ReadError SExpr :=
  match readOneFrom text.utf8ByteSize [] (Lexeme.ofText text) with
  | .error f => .error ⟨f, text⟩
  | .ok (e, []) => .ok e
  | .ok (_, next :: _) => .error ⟨⟨next.start, .trailingInput⟩, text⟩

end SExpr

end SmtDialogue
