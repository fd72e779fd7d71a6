import SmtDialogue.Config.Reads

/-!
# Quoted text and keys of TOML

Text stands between double quotes, where a backslash begins an escape, or between
single quotes, where it stands for itself; between three quotes it may extend over
several lines. A key is a list of bare or quoted words joined by points.
-/

namespace SmtDialogue.Toml

def isBlank (c : Char) : Bool :=
  c = ' ' || c = '\t'

def blanks : Reads Char Unit :=
  Reads.skipWhile isBlank

/-- Drops blanks, line breaks and comments. -/
def dropGap (inComment : Bool) : List Char → List Char
  | [] => []
  | c :: rest =>
    if c = '\n' then dropGap false rest
    else if inComment || c = '#' then dropGap true rest
    else if isBlank c then dropGap false rest
    else c :: rest

def gap : Reads Char Unit :=
  modify (dropGap false)

def letters : EscapeLetters where
  single
    | 'b' => some '\x08'
    | 't' => some '\t'
    | 'n' => some '\n'
    | 'f' => some '\x0c'
    | 'r' => some '\r'
    | '"' => some '"'
    | '\\' => some '\\'
    | _ => none
  digits
    | 'u' => some 4
    | 'U' => some 8
    | _ => none

/-- What follows the blanks and breaks that a backslash at the end of a line drops. -/
def nextLine? (cs : List Char) : Option (List Char) :=
  let after := cs.dropWhile isBlank
  if after.head? = some '\n' then some (after.dropWhile fun c => isBlank c || c = '\n') else none

theorem length_le_of_nextLine? {cs rest : List Char} (h : nextLine? cs = some rest) :
    rest.length ≤ cs.length := by
  simp only [nextLine?, Option.ite_none_right_eq_some, Option.some.injEq] at h
  obtain ⟨_, rfl⟩ := h
  exact Nat.le_trans (length_dropWhile_le _ _) (length_dropWhile_le _ _)

/-- Replaces escapes by what they stand for. -/
def decode? : List Char → Option (List Char)
  | [] => some []
  | c :: rest =>
    if c = '\\' then
      match h : nextLine? rest with
      | some rest' =>
        have := length_le_of_nextLine? h
        decode? rest'
      | none =>
        match h : letters.read? rest with
        | none => none
        | some (x, rest') =>
          have := EscapeLetters.length_lt_of_read? h
          (decode? rest').map (x :: ·)
    else (decode? rest).map (c :: ·)
termination_by cs => cs.length
decreasing_by all_goals (simp only [List.length_cons]; omega)

/-- What stands before the first quote, and what follows it. Where there are escapes,
a character behind a backslash is none. -/
def beforeQuote (quote : Char) (escapes : Bool) : List Char → Option (List Char × List Char)
  | [] => none
  | c :: rest =>
    if c = quote then some ([], rest)
    else if escapes && c = '\\' then
      match rest with
      | [] => none
      | d :: rest => (beforeQuote quote escapes rest).map fun r => (c :: d :: r.1, r.2)
    else (beforeQuote quote escapes rest).map fun r => (c :: r.1, r.2)

/-- What stands before three quotes in a row, and what follows them. Of more than
three, up to two belong to the text. -/
def beforeQuotes (quote : Char) (escapes : Bool) : List Char → Option (List Char × List Char)
  | [] => none
  | c :: rest =>
    if c = quote && rest.take 2 = [quote, quote] then
      let more := (((rest.drop 2).take 2).takeWhile (· = quote)).length
      some (List.replicate more quote, rest.drop (2 + more))
    else if escapes && c = '\\' then
      match rest with
      | [] => none
      | d :: rest => (beforeQuotes quote escapes rest).map fun r => (c :: d :: r.1, r.2)
    else (beforeQuotes quote escapes rest).map fun r => (c :: r.1, r.2)

def textOf (escapes : Bool) (raw : List Char) : Reads Char String :=
  if escapes then return String.ofList (← Reads.require (decode? raw))
  else return String.ofList raw

/-- Text on one line. -/
def lineText (quote : Char) (escapes : Bool) : Reads Char String := do
  Reads.expect quote
  let (raw, rest) ← Reads.require (beforeQuote quote escapes (← get))
  guard (!raw.contains '\n')
  set rest
  textOf escapes raw

/-- Text between three quotes; a line break right behind them is dropped. -/
def linesText (quote : Char) (escapes : Bool) : Reads Char String := do
  modify (·.drop 3)
  let _ ← Reads.takeIf '\n'
  let (raw, rest) ← Reads.require (beforeQuotes quote escapes (← get))
  set rest
  textOf escapes raw

def anyText (quote : Char) (escapes : Bool) : Reads Char String := do
  if (← get).take 3 = [quote, quote, quote] then linesText quote escapes
  else lineText quote escapes

def isBare (c : Char) : Bool :=
  c.isAlphanum || c = '_' || c = '-'

def keyPart : Reads Char String := do
  match ← Reads.peek with
  | some '"' => lineText '"' true
  | some '\'' => lineText '\'' false
  | _ =>
    let word ← Reads.takeWhile isBare
    guard (!word.isEmpty)
    return String.ofList word

/-- How many levels of brackets, or parts of a key, are too many. -/
def nestingLimit : Nat := 80

/-- At most `bound` parts with the blanks around them. -/
def keyParts : Nat → Reads Char (List String)
  | 0 => failure
  | bound + 1 => do
    blanks
    let part ← keyPart
    blanks
    if ← Reads.takeIf '.' then return part :: (← keyParts bound) else return [part]

/-- The parts of a key. -/
def key : Reads Char (List String) :=
  keyParts (nestingLimit - 1)

end SmtDialogue.Toml
