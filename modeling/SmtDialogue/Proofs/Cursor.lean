import SmtDialogue.Proofs.Bytes
import SmtDialogue.SExpr.Reader

/-!
# Reading at a position

A reader that keeps a position in the bytes of a text, moves it on by counting bytes, and
cuts pieces out of the text at positions. Whatever could go wrong with positions is a
failure of its own here: a cut or a report inside a character, a position behind the end, a
word without characters. So is an overflow of a width or of the coefficients of a polynomial.
Nothing bounds the loops and the nesting but a number of turns.
-/

namespace SmtDialogue.Cursor

open Text (byte cut? isOneOf)

/-- How reading ends without a tree. Only the first way is a fault of the text. -/
inductive Failure where
  | malformed (e : ReadError)
  | overflow (offset : Nat)
  | emptyWord (offset : Nat)
  | badCut (offset : Nat)
  | overrun (offset : Nat)
  | outOfTurns
deriving DecidableEq

/-- The failure that stands for a fault of the reader that takes lexemes. -/
def Failure.ofFault (text : String) (f : ReadFault) : Failure :=
  if f.cause = .overflow then .overflow f.offset else .malformed ⟨f, text⟩

def Failure.ofReadError (e : ReadError) : Failure :=
  .ofFault e.text e.fault

def advance (text : String) (pos n : Nat) : Except Failure Nat :=
  if pos + n ≤ text.utf8ByteSize then .ok (pos + n) else .error (.overrun (pos + n))

/-- Reports a fault of the text; the position has to lie between two characters. -/
def report {α : Type} (text : String) (pos : Nat) (cause : ReadCause) : Except Failure α :=
  if (cut? pos text.toList).isSome then .error (.malformed ⟨⟨pos, cause⟩, text⟩)
  else .error (.badCut pos)

def sliceTo (n : Nat) (cs : List Char) : Except Failure (List Char) :=
  match cut? n cs with
  | some (front, _) => .ok front
  | none => .error (.badCut n)

def sliceFrom (n : Nat) (cs : List Char) : Except Failure (List Char) :=
  match cut? n cs with
  | some (_, back) => .ok back
  | none => .error (.badCut n)

def bytesFrom (text : String) (pos : Nat) : List UInt8 :=
  text.toByteArray.data.toList.drop pos

def peek? (text : String) (pos : Nat) : Option UInt8 :=
  (bytesFrom text pos).head?

/-- Where a character first occurs, in bytes. -/
def find? (c : Char) (cs : List Char) : Option Nat :=
  if c ∈ cs then some (String.utf8Len (cs.takeWhile (· != c))) else none

def blanks : List Char := [' ', '\t', '\n', '\x0c', '\r']

/-- How many bytes at the start are blanks and comments. The mark tells whether a comment
has begun. -/
def triviaLength : Bool → List UInt8 → Nat
  | _, [] => 0
  | true, b :: bs => triviaLength (b ≠ byte '\n') bs + 1
  | false, b :: bs =>
    if isOneOf blanks b then triviaLength false bs + 1
    else if b = byte ';' then triviaLength true bs + 1
    else 0

def skipTrivia (text : String) (pos : Nat) : Except Failure Nat :=
  advance text pos (triviaLength false (bytesFrom text pos))

/-- Where the first `\u` stands, in bytes. -/
def findEscape? : List Char → Option Nat
  | '\\' :: 'u' :: _ => some 0
  | c :: rest => (findEscape? rest).map (· + c.utf8Size)
  | [] => none

/-- The character named after `\u`, and how many bytes name it. -/
def named (tail : List Char) : Except Failure (Option (Char × Nat)) :=
  match tail with
  | '\x7b' :: braced =>
    match find? '\x7d' braced with
    | some close => (sliceTo close braced).map fun digits =>
      (Escape.character? digits).map fun c => (c, close + 2)
    | none => .ok none
  | tail => .ok <| (cut? 4 tail).bind fun parts =>
      (Escape.character? parts.1).map fun c => (c, 4)

def unescape : Nat → List Char → Except Failure (List Char)
  | 0, _ => .error .outOfTurns
  | turns + 1, rest =>
    match findEscape? rest with
    | none => .ok rest
    | some n => do
      let plain ← sliceTo n rest
      let tail ← sliceFrom (n + 2) rest
      match ← named tail with
      | some (c, used) =>
        let rest ← sliceFrom used tail
        return plain ++ c :: (← unescape turns rest)
      | none => return plain ++ '\\' :: 'u' :: (← unescape turns tail)

/-- Reads on in a string whose earlier parts are given. -/
def stringFrom (text : String) : Nat → Nat → List Char → Except Failure (SExpr × Nat)
  | 0, _, _ => .error .outOfTurns
  | turns + 1, pos, raw => do
    let rest ← sliceFrom pos text.toList
    match find? '"' rest with
    | none => report text pos .unterminatedString
    | some n =>
      let part ← sliceTo n rest
      let pos ← advance text pos (n + 1)
      if peek? text pos = some (byte '"') then
        let pos ← advance text pos 1
        stringFrom text turns pos (raw ++ part ++ ['"'])
      else
        let contents ← unescape turns (raw ++ part)
        return (.atom (.string (String.ofList contents)), pos)

def quotedSymbol (text : String) (pos : Nat) : Except Failure (SExpr × Nat) := do
  let rest ← sliceFrom pos text.toList
  match find? '|' rest with
  | none => report text pos .unterminatedSymbol
  | some n =>
    let name ← sliceTo n rest
    let pos ← advance text pos (n + 1)
    return (.atom (.symbol (String.ofList name)), pos)

def wordEnds : List Char := blanks ++ ['(', ')', '"', ';']

/-- The word at a position, and the position behind it. -/
def word (text : String) (pos : Nat) : Except Failure (List Char × Nat) := do
  let stop ← advance text pos ((bytesFrom text pos).takeWhile (!isOneOf wordEnds ·)).length
  let front ← sliceTo stop text.toList
  return (← sliceFrom pos front, stop)

/-- The number that a word stands for which starts and stops at these positions. -/
def digits (text : String) (base bitsPerDigit start stop : Nat) (word digits : List Char) :
    Except Failure (SExpr × Nat) :=
  match Numeral.readInt? base digits with
  | some value =>
    let width := UInt32.ofNat ((String.ofList digits).utf8ByteSize * bitsPerDigit)
    if widthOverflows bitsPerDigit digits then .error (.overflow start)
    else .ok (.atom (.int value (some width)), stop)
  | none => report text stop (.badDigits (String.ofList word))

def radixLiteral (text : String) (pos : Nat) : Except Failure (SExpr × Nat) := do
  match ← word text pos with
  | ('#' :: 'b' :: ds, stop) => digits text 2 1 pos stop ('#' :: 'b' :: ds) ds
  | ('#' :: 'x' :: ds, stop) => digits text 16 4 pos stop ('#' :: 'x' :: ds) ds
  | (word, _) => report text pos (.unknownLiteral (String.ofList word))

def simpleAtom (text : String) (pos : Nat) : Except Failure (SExpr × Nat) := do
  match ← word text pos with
  | ([], _) => .error (.emptyWord pos)
  | (word, stop) => return (.atom (Atom.ofWord word), stop)

/-- The expression that begins with a byte, given a reader for the items of an application. -/
def beginning (text : String) (turns : Nat) (application : Nat → Except Failure (SExpr × Nat))
    (b : UInt8) (pos : Nat) : Except Failure (SExpr × Nat) := do
  if b = byte '(' then application (← advance text pos 1)
  else if b = byte ')' then report text pos .unexpectedClosing
  else if b = byte '"' then stringFrom text turns (← advance text pos 1) []
  else if b = byte '|' then quotedSymbol text (← advance text pos 1)
  else if b = byte '#' then radixLiteral text pos
  else simpleAtom text pos

mutual

/-- One expression, and the position behind it. -/
def expr (text : String) : Nat → Nat → Except Failure (SExpr × Nat)
  | 0, _ => .error .outOfTurns
  | turns + 1, pos => do
    let pos ← skipTrivia text pos
    match peek? text pos with
    | none => report text pos .unexpectedEnd
    | some b => beginning text turns (items text turns · []) b pos

/-- The rest of an application whose earlier items are given, last one first. -/
def items (text : String) : Nat → Nat → List SExpr → Except Failure (SExpr × Nat)
  | 0, _, _ => .error .outOfTurns
  | turns + 1, pos, earlier => do
    let pos ← skipTrivia text pos
    match peek? text pos with
    | none => report text pos .unbalanced
    | some b =>
      if b = byte ')' then
        if SExpr.foldOverflows earlier.reverse then .error (.overflow pos)
        else return (SExpr.fold earlier.reverse, ← advance text pos 1)
      else
        let (e, pos) ← expr text turns pos
        items text turns pos (e :: earlier)

end

/-- Exactly one expression. -/
def parse (turns : Nat) (text : String) : Except Failure SExpr := do
  let (e, pos) ← expr text turns 0
  let pos ← skipTrivia text pos
  if pos < text.utf8ByteSize then report text pos .trailingInput
  else return e

/-- All expressions from a position on. -/
def allFrom (text : String) : Nat → Nat → Except Failure (List SExpr)
  | 0, _ => .error .outOfTurns
  | turns + 1, pos => do
    let pos ← skipTrivia text pos
    if text.utf8ByteSize ≤ pos then return []
    else
      let (e, pos) ← expr text turns pos
      return e :: (← allFrom text turns pos)

/-- Every expression of a text. -/
def parseAll (turns : Nat) (text : String) : Except Failure (List SExpr) :=
  allFrom text turns 0

end SmtDialogue.Cursor
