import SmtDialogue.Config.Yaml.Mark

/-!
# Plain and quoted scalars

A plain scalar ends before a colon or a number sign that gaps set apart, and inside
brackets before a bracket or a comma. It goes on in later lines that are indented
enough. Quoted scalars go on up to their quote, which stands before the end of the
document.

A gap of blanks and breaks folds: blanks stay when no break is among them, a line
feed alone becomes a space, of several breaks a line feed at the front is dropped,
and breaks after another separator stay as they are.
-/

namespace SmtDialogue.Yaml

/-- What is left of a gap. -/
def foldGap (gap : List Char) : List Char :=
  match gap.filter isBreak with
  | [] => gap
  | ['\n'] => [' ']
  | '\n' :: more => more
  | breaks => breaks

/-- Text with every gap folded. -/
def fold (raw : List Char) : List Char :=
  (raw.splitBy fun a b => isGapChar a = isGapChar b).flatMap foldGap

def isFlowIndicator (c : Char) : Bool :=
  [',', '[', ']', '\x7b', '\x7d'].contains c

/-- The characters that begin something else. -/
def isIndicator (c : Char) : Bool :=
  isFlowIndicator c || ['#', '&', '*', '!', '|', '>', '\'', '"', '%', '@', '\x60'].contains c

/-- Whether a plain scalar begins here. A dash, and outside of brackets a question
mark or a colon, begins one when no gap follows. -/
def beginsPlain (inFlow : Bool) : List Mark → Bool
  | [] => false
  | m :: rest =>
    if m.char = '-' then !gapNext rest
    else if m.char = '?' || m.char = ':' then !inFlow && !gapNext rest
    else !(isIndicator m.char || m.isGap)

/-- A plain scalar up to a gap or its end. Inside brackets a colon may not touch a
bracket, a comma or a question mark. -/
def plainWord (inFlow : Bool) : List Mark → Option (List Char × List Mark)
  | [] => some ([], [])
  | m :: rest =>
    if m.isGap || (m.char = ':' && gapNext rest) || (inFlow && isFlowIndicator m.char) then
      some ([], m :: rest)
    else if inFlow && m.char = ':' && rest.head?.any fun n => isFlowIndicator n.char || n.char = '?'
    then none
    else (plainWord inFlow rest).map fun r => (m.char :: r.1, r.2)

/-- Whether a plain scalar goes on behind a gap. Outside of brackets its lines start
at the column `least` or further right. -/
def continues (inFlow : Bool) (least : Nat) (ms : List Mark) : Bool :=
  match ms with
  | [] => false
  | m :: _ => (inFlow || least ≤ m.column) && m.char ≠ '#' && !atMarker ms

/-- A tab may not stand where the indentation of a line belongs. -/
def indentsByTab (least : Nat) (gap : List Mark) : Bool :=
  (gap.dropWhile fun m => !isBreak m.char).any fun m => m.char = '\t' && m.column < least

/-- The raw text of a plain scalar from a gap on, whether the gap that ends it holds a
break, and what follows that gap. At most `bound` words are read. -/
def plainTail (inFlow : Bool) (least : Nat) :
    Nat → List Mark → Option (List Char × Bool × List Mark)
  | 0, _ => none
  | bound + 1, ms => do
    let gap := ms.takeWhile Mark.isGap
    let next := ms.dropWhile Mark.isGap
    guard (!indentsByTab least gap)
    let (word, after) ← if continues inFlow least next then plainWord inFlow next
      else some ([], next)
    if word.isEmpty then return ([], gap.any fun m => isBreak m.char, after)
    else
      let (tail, broken, rest) ← plainTail inFlow least bound after
      return (gap.map Mark.char ++ word ++ tail, broken, rest)

/-- The text of a plain scalar, and whether the gap behind it holds a break. -/
def plain (inFlow : Bool) (least : Nat) : Reads Mark (String × Bool) := do
  let ms ← get
  let (word, after) ← Reads.require (plainWord inFlow ms)
  let (tail, broken, rest) ← Reads.require (plainTail inFlow least (ms.length + 1) after)
  set rest
  return (String.ofList (fold (word ++ tail)), broken)

def letters : EscapeLetters where
  single
    | '0' => some '\x00'
    | 'a' => some '\x07'
    | 'b' => some '\x08'
    | 't' | '\t' => some '\t'
    | 'n' => some '\n'
    | 'v' => some '\x0b'
    | 'f' => some '\x0c'
    | 'r' => some '\r'
    | 'e' => some '\x1b'
    | ' ' => some ' '
    | '"' => some '"'
    | '/' => some '/'
    | '\\' => some '\\'
    | 'N' => some '\u0085'
    | '_' => some '\u00a0'
    | 'L' => some '\u2028'
    | 'P' => some '\u2029'
    | _ => none
  digits
    | 'x' => some 2
    | 'u' => some 4
    | 'U' => some 8
    | _ => none

/-- Replaces escapes by their characters and folds gaps. Of the gap that a backslash
before a break begins, the further breaks stay. -/
def decode? : List Char → Option (List Char)
  | [] => some []
  | c :: rest =>
    if c = '\\' then
      if rest.head?.any isBreak then
        let breaks := (rest.drop 1).takeWhile isGapChar |>.filter isBreak
        (decode? ((rest.drop 1).dropWhile isGapChar)).map (breaks ++ ·)
      else
        match h : letters.read? rest with
        | none => none
        | some (x, rest') =>
          have := EscapeLetters.length_lt_of_read? h
          (decode? rest').map (x :: ·)
    else if isGapChar c then
      (decode? (rest.dropWhile isGapChar)).map (foldGap (c :: rest.takeWhile isGapChar) ++ ·)
    else (decode? rest).map (c :: ·)
termination_by cs => cs.length
decreasing_by
  · have := length_dropWhile_le isGapChar (rest.drop 1)
    simp only [List.length_drop, List.length_cons] at *
    omega
  · simp only [List.length_cons]
    omega
  · have := length_dropWhile_le isGapChar rest
    simp only [List.length_cons]
    omega
  · simp only [List.length_cons]
    omega

/-- What stands before the double quote that no backslash precedes, and what follows it. -/
def beforeDoubleQuote : List Mark → Option (List Char × List Mark)
  | [] => none
  | m :: rest =>
    if atMarker (m :: rest) then none
    else if m.char = '"' then some ([], rest)
    else if m.char = '\\' then
      match rest with
      | [] => none
      | n :: rest => (beforeDoubleQuote rest).map fun r => (m.char :: n.char :: r.1, r.2)
    else (beforeDoubleQuote rest).map fun r => (m.char :: r.1, r.2)

/-- The text up to a double quote. -/
def doubleQuoted : Reads Mark String := do
  let (raw, rest) ← Reads.require (beforeDoubleQuote (← get))
  set rest
  return String.ofList (← Reads.require (decode? raw))

/-- What stands before a single quote, where two of them are one that does not end
the scalar, and what follows it. -/
def beforeSingleQuote : List Mark → Option (List Char × List Mark)
  | [] => none
  | m :: rest =>
    if atMarker (m :: rest) then none
    else if m.char = '\'' then
      match rest with
      | n :: later =>
        if n.char = '\'' then (beforeSingleQuote later).map fun r => ('\'' :: r.1, r.2)
        else some ([], n :: later)
      | [] => some ([], [])
    else (beforeSingleQuote rest).map fun r => (m.char :: r.1, r.2)

/-- The text up to a single quote. -/
def singleQuoted : Reads Mark String := do
  let (raw, rest) ← Reads.require (beforeSingleQuote (← get))
  set rest
  return String.ofList (fold raw)

end SmtDialogue.Yaml
