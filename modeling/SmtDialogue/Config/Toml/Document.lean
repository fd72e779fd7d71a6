import SmtDialogue.Config.Toml.Value
import SmtDialogue.Text.Blank

/-!
# TOML documents

A document is a list of lines that open a section or assign a value in the section
that is open, the first of them in the table of the document itself.
-/

namespace SmtDialogue.Toml

/-- What the lines so far have defined. -/
structure Sheet where
  /-- The section that is open. -/
  path : List String
  entries : Entries

def Sheet.blank : Sheet := ⟨[], []⟩

def Sheet.open? (s : Sheet) (path : List String) : Option Sheet :=
  (openTable path s.entries).map fun entries => ⟨path, entries⟩

def Sheet.append? (s : Sheet) (path : List String) : Option Sheet :=
  (openElement path s.entries).map fun entries => ⟨path, entries⟩

def Sheet.assign? (s : Sheet) (path : List String) (d : Datum) : Option Sheet :=
  (within (assign d path) s.path s.entries).map fun entries => ⟨s.path, entries⟩

def line (s : Sheet) : Reads Char Sheet := do
  if ← Reads.takeIf '[' then
    let isElement ← Reads.takeIf '['
    let path ← key
    Reads.expect ']'
    if isElement then
      Reads.expect ']'
      Reads.require (s.append? path)
    else Reads.require (s.open? path)
  else
    let path ← key
    Reads.expect '='
    blanks
    let d ← value (nestingLimit - 1)
    Reads.require (s.assign? path d)

/-- Nothing but a comment may stand behind a line. -/
def lineEnd : Reads Char Unit := do
  blanks
  match ← Reads.peek with
  | none | some '\n' | some '#' => return
  | some _ => failure

def lines : Nat → Sheet → Reads Char Sheet
  | 0, _ => failure
  | bound + 1, s => do
    gap
    if (← get).isEmpty then return s
    else
      let s ← line s
      lineEnd
      lines bound s

/-- Lines may end in a carriage return and a line feed. -/
def unifyBreaks : List Char → List Char
  | '\r' :: '\n' :: rest => '\n' :: unifyBreaks rest
  | c :: rest => c :: unifyBreaks rest
  | [] => []

/-- A byte order mark may precede a document. -/
def dropOrderMark : List Char → List Char
  | '\ufeff' :: rest => rest
  | cs => cs

/-- No control character of ASCII stands in a document but tabs and line breaks. -/
def isAllowed (c : Char) : Bool :=
  c = '\t' || c = '\n' || !(Text.isControl c && c.toNat < 0x80)

def read (text : String) : Option Datum :=
  let cs := unifyBreaks (dropOrderMark text.toList)
  if cs.all isAllowed then
    ((lines (cs.length + 1) .blank).all cs).map fun s => datumOf s.entries
  else none

end SmtDialogue.Toml
