import SmtDialogue.SExpr.Basic
import SmtDialogue.SExpr.Escape
import SmtDialogue.Text.Blank

/-!
# Lexemes

The text of an answer is cut into lexemes by a machine that looks at one
character at a time. Its mode says what the characters so far have begun: nothing
of note, a comment, a string, a quoted symbol or a word. A string ends at a quote
that no other quote follows, so the machine decides one character later.

A lexeme knows the offset of its first byte. Text that is no lexeme becomes one
that carries the fault, so the reader meets faults in their order.
-/

namespace SmtDialogue

/-- What is wrong with a text. -/
inductive ReadCause where
  | unexpectedEnd
  | unbalanced
  | unexpectedClosing
  | unterminatedString
  | unterminatedSymbol
  | unknownLiteral (token : String)
  | badDigits (token : String)
  | trailingInput
  /-- A length that is computed on the way to a value leaves its machine word. -/
  | overflow
deriving DecidableEq

def ReadCause.message : ReadCause → String
  | .unexpectedEnd => "unexpected end of input"
  | .unbalanced => "unbalanced parenthesis"
  | .unexpectedClosing => "unexpected closing parenthesis"
  | .unterminatedString => "unterminated string literal"
  | .unterminatedSymbol => "unterminated quoted symbol"
  | .unknownLiteral token => "unknown literal " ++ token
  | .badDigits token => "bad digits in " ++ token
  | .trailingInput => "trailing input after expression"
  | .overflow => "arithmetic overflow"

/-- A fault and the offset in bytes that it is reported at. -/
structure ReadFault where
  offset : Nat
  cause : ReadCause
deriving DecidableEq

inductive Token where
  | opening
  | closing
  | atom (a : Atom)
  | fault (f : ReadFault)
deriving DecidableEq

structure Lexeme where
  /-- Offset of the first byte. -/
  start : Nat
  token : Token
deriving DecidableEq

/-- An integer is an optional minus sign and decimal digits. -/
def integerOfWord? : List Char → Option Int
  | '-' :: digits =>
    if Numeral.isDigits digits then some (-(Numeral.decimal digits : Int)) else none
  | digits => if Numeral.isDigits digits then some (Numeral.decimal digits) else none

/-- Classifies a word: keywords start with a colon, then integers and decimals are
numbers, and everything else is a symbol. -/
def Atom.ofWord (word : List Char) : Atom :=
  if word.head? = some ':' then .keyword (String.ofList word)
  else
    match integerOfWord? word with
    | some i => .int i none
    | none =>
      match AlgReal.ofDecimal? word with
      | some r => .real r
      | none => .symbol (String.ofList word)

/-- Whether a number of bits overflows when the digits are counted modulo `2 ^ 32`. -/
def widthOverflows (bitsPerDigit : Nat) (digits : List Char) : Bool :=
  UInt32.size ≤ (UInt32.ofNat (String.ofList digits).utf8ByteSize).toNat * bitsPerDigit

/-- A bit-vector literal has as many bits as its digits can hold. -/
def radixToken (base bitsPerDigit start : Nat) (word digits : List Char) : Token :=
  let text := String.ofList word
  let width := UInt32.ofNat ((String.ofList digits).utf8ByteSize * bitsPerDigit)
  match Numeral.readInt? base digits with
  | some value =>
    if widthOverflows bitsPerDigit digits then .fault ⟨start, .overflow⟩
    else .atom (.int value (some width))
  | none => .fault ⟨start + text.utf8ByteSize, .badDigits text⟩

/-- The token of a word; a number sign begins a literal in base two or sixteen. -/
def Token.ofWord (start : Nat) (word : List Char) : Token :=
  match word with
  | '#' :: 'b' :: digits => radixToken 2 1 start word digits
  | '#' :: 'x' :: digits => radixToken 16 4 start word digits
  | '#' :: _ => .fault ⟨start, .unknownLiteral (String.ofList word)⟩
  | word => .atom (Atom.ofWord word)

/-- What the characters so far have begun; contents are held in reverse. -/
inductive LexMode where
  | blank
  | comment
  /-- Inside a string; the mark is the offset where its last plain part starts. -/
  | string (start mark : Nat) (contents : List Char)
  /-- After a quote that ends the string unless another one follows. -/
  | closingQuote (start : Nat) (contents : List Char)
  | quotedSymbol (start : Nat) (contents : List Char)
  | word (start : Nat) (contents : List Char)
deriving DecidableEq

namespace Lexeme

/-- A word ends before a blank, a parenthesis, a quote or a comment. -/
def endsWord (c : Char) : Bool :=
  Text.isAsciiBlank c || c = '(' || c = ')' || c = '"' || c = ';'

def ofString (start : Nat) (contents : List Char) : Lexeme :=
  ⟨start, .atom (.string (String.ofList (Escape.decode contents.reverse)))⟩

def ofQuotedSymbol (start : Nat) (contents : List Char) : Lexeme :=
  ⟨start, .atom (.symbol (String.ofList contents.reverse))⟩

def ofWord (start : Nat) (contents : List Char) : Lexeme :=
  ⟨start, Token.ofWord start contents.reverse⟩

/-- What a character outside all lexemes begins. -/
def begin (offset : Nat) (c : Char) : List Lexeme × LexMode :=
  if Text.isAsciiBlank c then ([], .blank)
  else if c = ';' then ([], .comment)
  else if c = '(' then ([⟨offset, .opening⟩], .blank)
  else if c = ')' then ([⟨offset, .closing⟩], .blank)
  else if c = '"' then ([], .string offset (offset + 1) [])
  else if c = '|' then ([], .quotedSymbol offset [])
  else ([], .word offset [c])

/-- One move: the lexemes that are complete before or with the character, and the
mode after it. -/
def step (offset : Nat) (mode : LexMode) (c : Char) : List Lexeme × LexMode :=
  match mode with
  | .blank => begin offset c
  | .comment => ([], if c = '\n' then .blank else .comment)
  | .string start mark contents =>
    ([], if c = '"' then .closingQuote start contents else .string start mark (c :: contents))
  | .closingQuote start contents =>
    if c = '"' then ([], .string start (offset + 1) ('"' :: contents))
    else (ofString start contents :: (begin offset c).1, (begin offset c).2)
  | .quotedSymbol start contents =>
    if c = '|' then ([ofQuotedSymbol start contents], .blank)
    else ([], .quotedSymbol start (c :: contents))
  | .word start contents =>
    if endsWord c then (ofWord start contents :: (begin offset c).1, (begin offset c).2)
    else ([], .word start (c :: contents))

/-- The lexeme that the end of the text completes. -/
def finish : LexMode → List Lexeme
  | .blank | .comment => []
  | .string start mark _ => [⟨start, .fault ⟨mark, .unterminatedString⟩⟩]
  | .closingQuote start contents => [ofString start contents]
  | .quotedSymbol start _ => [⟨start, .fault ⟨start + 1, .unterminatedSymbol⟩⟩]
  | .word start contents => [ofWord start contents]

/-- The lexemes of a text that continues in the given mode at an offset. -/
def scan (offset : Nat) (mode : LexMode) : List Char → List Lexeme
  | [] => finish mode
  | c :: cs => (step offset mode c).1 ++ scan (offset + c.utf8Size) (step offset mode c).2 cs

def ofText (text : String) : List Lexeme :=
  scan 0 .blank text.toList

end Lexeme

end SmtDialogue
