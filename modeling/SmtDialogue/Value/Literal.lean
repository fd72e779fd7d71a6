import SmtDialogue.Value.Basic
import SmtDialogue.Text.Quoted

/-!
# Literals

How a value is written in a query. Fixed-width integers are bit patterns, in
hexadecimal where the width allows it; floating-point words are written field by
field; strings keep printable ASCII and escape the rest; and a label is put
between bars unless it reads as a symbol on its own.
-/

namespace SmtDialogue.Literal

/-- The two's complement pattern of an integer. -/
def bits (i : Int) (width : Nat) : String :=
  let pattern := (i % (1 <<< width : Nat)).toNat
  if width % 4 = 0 then
    String.ofList (['#', 'x'] ++ Numeral.padded 16 (width / 4) pattern)
  else
    String.ofList (['#', 'b'] ++ Numeral.padded 2 width pattern)

/-- Sign, exponent and fraction of a floating-point word. -/
def word (f : Ieee.Format) (pattern : Nat) : String :=
  let field (width n : Nat) : List Char := ['#', 'b'] ++ Numeral.padded 2 width n
  let sign := if f.isNegative pattern then 1 else 0
  String.ofList (['(', 'f', 'p', ' '] ++ field 1 sign ++ [' '] ++
    field f.exponentBits (f.exponent pattern) ++ [' '] ++
    field f.fractionBits (f.fraction pattern) ++ [')'])

/-- A character inside a string literal. The backslash is escaped as well, so
that no escape is read where none was written. -/
def stringChar (c : Char) : List Char :=
  if c = '"' then ['"', '"']
  else if c ≠ '\\' ∧ ' ' ≤ c ∧ c ≤ '~' then [c]
  else ['\\', 'u', '\x7b'] ++ Text.hexCode c ++ ['\x7d']

def string (s : String) : String :=
  String.ofList (['"'] ++ s.toList.flatMap stringChar ++ ['"'])

def isAlphanumeric (c : Char) : Bool :=
  ('a' ≤ c && c ≤ 'z') || ('A' ≤ c && c ≤ 'Z') || Numeral.isDigit c

/-- The characters of a symbol that needs no bars. -/
def isSymbolChar (c : Char) : Bool :=
  isAlphanumeric c || "~!@$%^&*_-+=<>.?/".toList.contains c

/-- A name that reads as one symbol without bars, and not as a number. -/
def isSimpleSymbol (name : String) : Bool :=
  let cs := name.toList
  !cs.isEmpty && cs.all isSymbolChar &&
    !((cs.dropWhile (· == '-')).head?.any Numeral.isDigit)

def symbol (name : String) : String :=
  if isSimpleSymbol name then name else "|" ++ name ++ "|"

end SmtDialogue.Literal

namespace SmtDialogue

/-- The literal of a value at its kind. -/
def Value.literal (v : Value) : String :=
  match v.payload with
  | .bool b => if b then "true" else "false"
  | .integer i =>
    match v.kind.width? with
    | some width => Literal.bits i width.toNat
    | none => Numeral.integerTerm i
  | .real r => r.term
  | .float bits => Literal.word Ieee.single bits.toNat
  | .double bits => Literal.word Ieee.double bits.toNat
  | .string s => Literal.string s
  | .char c => Literal.string (String.singleton c)
  | .element _ label => Literal.symbol label

end SmtDialogue
