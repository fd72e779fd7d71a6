import SmtDialogue.Config.Reads
import SmtDialogue.Text.Blank

/-!
# Characters in their places

What a character of a YAML document means depends on its place. A line ends in a
line feed, in a carriage return with or without a line feed, or in U+0085, all of
which are read as line feeds; or in one of the separators U+2028 and U+2029, which
stay what they are.
-/

namespace SmtDialogue.Yaml

def isBlank (c : Char) : Bool :=
  c = ' ' || c = '\t'

/-- The ends of lines, once they are read. -/
def isBreak (c : Char) : Bool :=
  c = '\n' || c = '\u2028' || c = '\u2029'

def isGapChar (c : Char) : Bool :=
  isBlank c || isBreak c

/-- The characters of names: letters and digits of ASCII, `-` and `_`. -/
def isNameChar (c : Char) : Bool :=
  c.isAlphanum || c = '-' || c = '_'

/-- A document holds printable characters, tabs and ends of lines. -/
def isAllowed (c : Char) : Bool :=
  ['\t', '\n', '\r', '\u0085'].contains c ||
    !(Text.isControl c || c = '\ufffe' || c = '\uffff')

/-- A character in its place. -/
structure Mark where
  /-- How many characters precede it. -/
  index : Nat
  line : Nat
  column : Nat
  char : Char
deriving DecidableEq

namespace Mark

/-- The characters from a given place on. -/
def startingAt (index line column : Nat) : List Char → List Mark
  | [] => []
  | '\r' :: '\n' :: cs => ⟨index, line, column, '\n'⟩ :: startingAt (index + 2) (line + 1) 0 cs
  | c :: cs =>
    let char := if c = '\r' || c = '\u0085' then '\n' else c
    ⟨index, line, column, char⟩ ::
      (if isBreak char then startingAt (index + 1) (line + 1) 0 cs
      else startingAt (index + 1) line (column + 1) cs)

def ofChars (cs : List Char) : List Mark :=
  startingAt 0 0 0 cs

def isGap (m : Mark) : Bool :=
  isGapChar m.char

end Mark

/-- Whether a blank, a line break or the end of the text is next. -/
def gapNext : List Mark → Bool
  | [] => true
  | m :: _ => m.isGap

/-- Whether a line begins with three of a character that a gap follows. Such lines
mark where a document begins or ends. -/
def isMarker (c : Char) : List Mark → Bool
  | m :: n :: o :: rest =>
    m.column = 0 && m.char = c && n.char = c && o.char = c && gapNext rest
  | _ => false

def atMarker (ms : List Mark) : Bool :=
  isMarker '-' ms || isMarker '.' ms

/-- The next character, which stays. -/
def peekChar : Reads Mark (Option Char) :=
  return (← Reads.peek).map Mark.char

/-- Whether the character was next; if so, it is taken. -/
def takeIf (c : Char) : Reads Mark Bool := do
  if (← peekChar) = some c then
    Reads.skip
    return true
  else return false

def takeWhile (p : Char → Bool) : Reads Mark (List Char) :=
  return (← Reads.takeWhile fun m => p m.char).map Mark.char

def blanks : Reads Mark Unit :=
  Reads.skipWhile fun m => isBlank m.char

/-- The rest of a line on which nothing but a comment may stand, up to its break. -/
def lineEnd : Reads Mark Unit := do
  blanks
  if (← peekChar) = some '#' then Reads.skipWhile fun m => !isBreak m.char
  match ← peekChar with
  | none => return
  | some c => if isBreak c then Reads.skip else failure

end SmtDialogue.Yaml
