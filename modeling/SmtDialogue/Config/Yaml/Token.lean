import SmtDialogue.Config.Yaml.BlockScalar
import SmtDialogue.Config.Yaml.Tag

/-!
# Tokens

The tokens of a document, with a token where indentation opens or closes a block.
What begins a key is known only when its colon is met: a place where a key may have
begun is a candidate until the line ends, or until the text goes on for more than
1024 characters. Every pair of brackets has a candidate of its own. A key that
starts in the column of its block has to be one.

Anchors are numbered: an anchor has the number of names that were known before it.
-/

namespace SmtDialogue.Yaml

/-- How a scalar is written, as far as its meaning depends on it. -/
inductive Style where
  | plain
  | quoted
  | literal
deriving DecidableEq

inductive Token where
  | directive
  /-- The marks at the beginning and at the end of a document. -/
  | start
  | stop
  /-- A block of items or of pairs begins, or a block ends. -/
  | items
  | pairs
  | close
  | openList
  | closeList
  | openTable
  | closeTable
  | comma
  | dash
  | key
  | colon
  | anchor (number : Nat)
  | aliasOf (number : Nat)
  | tag (text : String)
  | scalar (style : Style) (text : String)
deriving DecidableEq

/-- A place where a key may have begun. -/
structure Candidate where
  /-- How many tokens precede it. -/
  place : Nat
  mark : Mark
  /-- Whether nothing but a key can be here. -/
  required : Bool

structure Scan where
  rest : List Mark
  /-- The tokens so far, the last of them first. -/
  tokens : List Token
  /-- The columns of the open blocks, the innermost first. -/
  columns : List Nat
  /-- Whether a key or an item may begin here. -/
  keyAllowed : Bool
  candidate : Option Candidate
  /-- The candidates outside of the open brackets, the innermost first. -/
  outer : List (Option Candidate)
  /-- The names of anchors with their numbers, the latest first. -/
  names : List (String × Nat)
  directives : Directives

abbrev Scans := StateT Scan Option

namespace Scan

def ofText (text : String) : Scan where
  rest := Mark.ofChars text.toList
  tokens := []
  columns := []
  keyAllowed := true
  candidate := none
  outer := []
  names := []
  directives := .none

def inFlow (s : Scan) : Bool :=
  !s.outer.isEmpty

/-- The number of an anchor whose name is not taken into account yet. -/
def nextNumber (s : Scan) : Nat :=
  (s.names.map Prod.fst).eraseDups.length

/-- What a reader of characters finds here. -/
def lift {α : Type} (reader : Reads Mark α) : Scans α := do
  let s ← get
  match reader.run s.rest with
  | none => failure
  | some (a, rest) =>
    set { s with rest }
    return a

/-- Adds a token behind the first `place` ones. -/
def insert (place : Nat) (t : Token) : Scans Unit :=
  modify fun s =>
    let later := s.tokens.length - place
    { s with tokens := s.tokens.take later ++ t :: s.tokens.drop later }

def emit (t : Token) : Scans Unit :=
  modify fun s => { s with tokens := t :: s.tokens }

def allowKey (allowed : Bool) : Scans Unit :=
  modify fun s => { s with keyAllowed := allowed }

def dropCandidate : Scans Unit := do
  let s ← get
  guard !(s.candidate.any Candidate.required)
  set { s with candidate := none }

/-- Makes the next character a candidate if a key may begin there. -/
def noteCandidate (m : Mark) : Scans Unit := do
  let s ← get
  if s.keyAllowed then
    dropCandidate
    let required := !s.inFlow && s.columns.head? = some m.column
    set { s with candidate := some ⟨s.tokens.length, m, required⟩ }

/-- Drops the candidates that cannot be keys because of what is next. -/
def dropStale (m : Mark) : Scans Unit := do
  let s ← get
  let isStale (k : Candidate) := k.mark.line < m.line || k.mark.index + 1024 < m.index
  guard !((s.candidate :: s.outer).any fun k => k.any fun k => isStale k && k.required)
  let fresh (k : Option Candidate) := k.filter fun k => !isStale k
  set { s with candidate := fresh s.candidate, outer := s.outer.map fresh }

/-- Opens a block in a column right of the innermost block, its token behind the
first `place` ones. -/
def openBlock (t : Token) (column place : Nat) : Scans Unit := do
  let s ← get
  if !s.inFlow && s.columns.head?.all (· < column) then
    insert place t
    modify fun s => { s with columns := column :: s.columns }

/-- Closes the blocks right of a column, or all of them. -/
def closeBlocks (column : Option Nat) : Scans Unit :=
  modify fun s =>
    if s.inFlow then s
    else
      let isRight (c : Nat) := column.all (· < c)
      { s with
        tokens := (s.columns.takeWhile isRight).map (fun _ => .close) ++ s.tokens
        columns := s.columns.dropWhile isRight }

/-- Ends all that is open, for what stands outside of any node. -/
def closeAll : Scans Unit := do
  closeBlocks none
  dropCandidate
  allowKey false

def skip (n : Nat) : Scans Unit :=
  modify fun s => { s with rest := s.rest.drop n }

def documentMark (t : Token) : Scans Unit := do
  closeAll
  skip 3
  emit t

def directiveLine : Scans Unit := do
  closeAll
  skip 1
  let directives ← lift (directive (← get).directives)
  modify fun s => { s with directives }
  emit .directive

def openBracket (m : Mark) (t : Token) : Scans Unit := do
  noteCandidate m
  allowKey true
  skip 1
  emit t
  modify fun s => { s with candidate := none, outer := s.candidate :: s.outer }

def closeBracket (t : Token) : Scans Unit := do
  dropCandidate
  allowKey false
  skip 1
  emit t
  modify fun s =>
    match s.outer with
    | [] => s
    | k :: outer => { s with candidate := k, outer }

def comma : Scans Unit := do
  dropCandidate
  allowKey true
  skip 1
  emit .comma

def dash (m : Mark) : Scans Unit := do
  let s ← get
  guard (!s.inFlow && s.keyAllowed)
  openBlock .items m.column s.tokens.length
  dropCandidate
  skip 1
  emit .dash

/-- A key that a question mark announces. -/
def markedKey (m : Mark) : Scans Unit := do
  let s ← get
  guard (s.inFlow || s.keyAllowed)
  openBlock .pairs m.column s.tokens.length
  dropCandidate
  allowKey !s.inFlow
  skip 1
  emit .key

/-- A colon makes the candidate a key. -/
def colon (m : Mark) : Scans Unit := do
  let s ← get
  match s.candidate with
  | some k =>
    insert k.place .key
    openBlock .pairs k.mark.column k.place
    modify fun s => { s with candidate := none, keyAllowed := false }
  | none =>
    guard (s.inFlow || s.keyAllowed)
    openBlock .pairs m.column s.tokens.length
    allowKey !s.inFlow
  skip 1
  emit .colon

/-- What may begin a key and is taken in whole. -/
def whole (m : Mark) (reader : Scans Token) : Scans Unit := do
  noteCandidate m
  allowKey false
  emit (← reader)

/-- The name of an anchor behind its sign. -/
def name : Reads Mark String := do
  let name ← takeWhile isNameChar
  guard (!name.isEmpty)
  guard (gapNext (← get) ||
    (← peekChar).any fun c => ['?', ':', ',', ']', '\x7d', '%', '@', '\x60'].contains c)
  return String.ofList name

def anchorToken : Scans Token := do
  skip 1
  let name ← lift name
  let number := (← get).nextNumber
  modify fun s => { s with names := (name, number) :: s.names }
  return .anchor number

/-- An alias has the number of the latest anchor with its name. -/
def aliasToken : Scans Token := do
  skip 1
  let name ← lift name
  match (← get).names.lookup name with
  | some number => return .aliasOf number
  | none => failure

def tagToken : Scans Token := do
  skip 1
  let s ← get
  return .tag (← lift (tag s.directives s.inFlow))

def quoted (reader : Reads Mark String) : Scans Token := do
  skip 1
  return .scalar .quoted (← lift reader)

def plainScalar : Scans Token := do
  let s ← get
  let (text, broken) ← lift (plain s.inFlow (s.columns.head?.elim 0 (· + 1)))
  if broken then allowKey true
  return .scalar .plain text

def blockToken (folded : Bool) : Scans Unit := do
  dropCandidate
  allowKey true
  skip 1
  let text ← lift (blockScalar folded (← get).columns.head?)
  emit (.scalar (if folded then .quoted else .literal) text)

/-- The token that begins with the character `m`, which `after` follows. -/
def token (m : Mark) (after : List Mark) : Scans Unit := do
  let inFlow := (← get).inFlow
  let isSign (c : Char) := m.char = c && (inFlow || gapNext after)
  if m.column = 0 && m.char = '%' then directiveLine
  else if isMarker '-' (m :: after) then documentMark .start
  else if isMarker '.' (m :: after) then documentMark .stop
  else if m.char = '-' && gapNext after then dash m
  else if isSign '?' then markedKey m
  else if isSign ':' then colon m
  else
    match m.char with
    | '[' => openBracket m .openList
    | '\x7b' => openBracket m .openTable
    | ']' => closeBracket .closeList
    | '\x7d' => closeBracket .closeTable
    | ',' => comma
    | '&' => whole m anchorToken
    | '*' => whole m aliasToken
    | '!' => whole m tagToken
    | '"' => whole m (quoted doubleQuoted)
    | '\'' => whole m (quoted singleQuoted)
    | '|' => if inFlow then failure else blockToken false
    | '>' => if inFlow then failure else blockToken true
    | _ => if beginsPlain inFlow (m :: after) then whole m plainScalar else failure

/-- A byte order mark counts as a blank at the start of a line. -/
def byteOrderMark : Char := '\ufeff'

/-- Drops blanks, breaks and comments, and says whether a key may begin behind them.
Outside of brackets a key may begin in a new line, and no tab may precede one. -/
def dropGap (inFlow keyAllowed inComment : Bool) : List Mark → Bool × List Mark
  | [] => (keyAllowed, [])
  | m :: rest =>
    if isBreak m.char then dropGap inFlow (keyAllowed || !inFlow) false rest
    else if inComment || m.char = '#' then dropGap inFlow keyAllowed true rest
    else if m.char = ' ' || (m.char = '\t' && (inFlow || !keyAllowed)) ||
        (m.char = byteOrderMark && m.column = 0) then
      dropGap inFlow keyAllowed false rest
    else (keyAllowed, m :: rest)

def gap : Scans Unit :=
  modify fun s =>
    let (keyAllowed, rest) := dropGap s.inFlow s.keyAllowed false s.rest
    { s with keyAllowed, rest }

/-- All tokens up to the end; each takes a character, so that the length of the
document bounds their number. -/
def tokens? : Nat → Scans Unit
  | 0 => failure
  | bound + 1 => do
    gap
    match (← get).rest with
    | [] => closeAll
    | m :: after =>
      dropStale m
      closeBlocks (some m.column)
      token m after
      tokens? bound

end Scan

/-- The tokens of a document. -/
def Token.ofText? (text : String) : Option (List Token) :=
  if text.toList.all isAllowed then
    ((Scan.tokens? (text.length + 1)).run (.ofText text)).map fun r => r.2.tokens.reverse
  else none

end SmtDialogue.Yaml
