import SmtDialogue.Config.Toml.Moment
import SmtDialogue.Config.Toml.Number
import SmtDialogue.Config.Toml.Text
import SmtDialogue.Config.Toml.Tree

/-!
# Values of TOML

Values are text, numbers, truth values, moments, arrays and inline tables. Arrays may
extend over several lines, and a comma may follow their last item. A moment is a
table with one key, which is kept for it.
-/

namespace SmtDialogue.Toml

def momentKey : String := "$__toml_private_datetime"

def isWordChar (c : Char) : Bool :=
  isBare c || c = '+' || c = '.'

def ofWord? (word : List Char) : Option Datum :=
  if word = "true".toList then some (.boolean true)
  else if word = "false".toList then some (.boolean false)
  else number? word

/-- A value that is neither text nor in brackets. -/
def atom : Reads Char Datum := do
  match ← Reads.attempt Moment.read with
  | some text => return .table [(.text momentKey, .text text)]
  | none => Reads.require (ofWord? (← Reads.takeWhile isWordChar))

/-- The items of an array up to its bracket, at most `bound` of them. -/
def items (item : Reads Char Datum) : Nat → Reads Char (List Datum)
  | 0 => failure
  | bound + 1 => do
    gap
    if ← Reads.takeIf ']' then return []
    else
      let d ← item
      gap
      if ← Reads.takeIf ',' then return d :: (← items item bound)
      else
        Reads.expect ']'
        return [d]

/-- The assignments of an inline table up to its brace, at most `bound` of them. -/
def assignments (value : Reads Char Datum) : Nat → Entries → Reads Char Entries
  | 0, _ => failure
  | bound + 1, entries => do
    let path ← key
    Reads.expect '='
    blanks
    let d ← value
    blanks
    let entries ← Reads.require (assign d path entries)
    if ← Reads.takeIf ',' then assignments value bound entries
    else
      Reads.expect '\x7d'
      return entries

/-- A value inside of which brackets may be nested at most `depth` deep. -/
def value (depth : Nat) : Reads Char Datum := do
  match ← Reads.peek, depth with
  | some '"', _ => return .text (← anyText '"' true)
  | some '\'', _ => return .text (← anyText '\'' false)
  | some '[', depth + 1 =>
    Reads.skip
    return .list (← items (value depth) (← get).length)
  | some '\x7b', depth + 1 =>
    Reads.skip
    blanks
    if ← Reads.takeIf '\x7d' then return .table []
    else return datumOf (← assignments (value depth) (← get).length [])
  | _, _ => atom

end SmtDialogue.Toml
