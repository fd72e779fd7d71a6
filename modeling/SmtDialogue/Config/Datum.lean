import SmtDialogue.Config.Decimal

/-!
# Data of a configuration document

Both document formats describe the same trees. They differ in how much is decided:
in one of them a bare word is undecided until it is known what its place asks for,
and data may have tags. A bare word is text where text is asked for, and where
anything may stand it is what it spells: nothing, a truth value, a number, or text
after all.
-/

namespace SmtDialogue

inductive Datum where
  /-- Text that can be nothing else. -/
  | text (s : String)
  /-- An undecided word. -/
  | bare (s : String)
  /-- Text that only a tag makes something else. -/
  | literal (s : String)
  | tagged (tag : String) (d : Datum)
  | nothing
  | boolean (b : Bool)
  | integer (i : Int)
  /-- A number with a fraction or an exponent; no field takes one. -/
  | fractional
  | list (items : List Datum)
  | table (entries : List (Datum × Datum))

namespace Tag

def boolean : String := "tag:yaml.org,2002:bool"
def integer : String := "tag:yaml.org,2002:int"
def fractional : String := "tag:yaml.org,2002:float"
def nothing : String := "tag:yaml.org,2002:null"

/-- A tag that only one application knows. -/
def isLocal (tag : String) : Bool :=
  tag.toList.head? = some '!'

/-- What follows the first character of a tag. -/
def name (tag : String) : String :=
  String.ofList (tag.toList.drop 1)

end Tag

namespace Bare

def nothings : List String := ["~", "null", "Null", "NULL"]

def isNothing (s : String) : Bool :=
  s.isEmpty || nothings.contains s

def boolean? (s : String) : Option Bool :=
  if ["true", "True", "TRUE"].contains s then some true
  else if ["false", "False", "FALSE"].contains s then some false
  else none

/-- The number that digits of a base spell. -/
def digits? (base : Nat) (cs : List Char) : Option Nat :=
  if cs.isEmpty then none
  else (cs.mapM (Numeral.digit? base)).map (Numeral.value base)

/-- Base sixteen, eight and two are marked; a decimal number does not begin with a
zero unless it is zero. -/
def magnitude? : List Char → Option Nat
  | '0' :: 'x' :: cs => digits? 16 cs
  | '0' :: 'o' :: cs => digits? 8 cs
  | '0' :: 'b' :: cs => digits? 2 cs
  | '0' :: _ :: _ => none
  | cs => digits? 10 cs

def natural? (s : String) : Option Nat :=
  match s.toList with
  | '+' :: cs => magnitude? cs
  | cs => magnitude? cs

def integer? (s : String) : Option Int :=
  match s.toList with
  | '-' :: cs => (magnitude? cs).map fun n => -(n : Int)
  | _ => (natural? s).map Int.ofNat

def unsigned (s : String) : List Char :=
  match s.toList with
  | '+' :: cs => cs
  | '-' :: cs => cs
  | cs => cs

/-- Whether a word spells a number that need not be whole. -/
def isNumber (s : String) : Bool :=
  [".inf", ".Inf", ".INF"].contains (String.ofList (unsigned s)) ||
    [".nan", ".NaN", ".NAN"].contains s ||
    (Decimal.ofChars? (unsigned s)).any Decimal.isFinite

/-- Whether a word would be a whole number if it did not begin with a zero. -/
def hasLeadingZero (s : String) : Bool :=
  match unsigned s with
  | '0' :: c :: cs => (c :: cs).all Numeral.isDigit
  | _ => false

/-- Whether a number can be written in this many bits, one of them for the sign if it
is negative. -/
def fits (bits : Nat) (i : Int) : Bool :=
  if i < 0 then i.natAbs ≤ 1 <<< (bits - 1) else i.natAbs < 1 <<< bits

/-- A whole number where any sort of value may stand. Numbers of 64 bits are numbers
there; longer ones of 128 bits are faults, and the others are not whole. -/
def whole? (s : String) : Option (Option Int) :=
  (integer? s).bind fun i =>
    if fits 64 i then some (some i) else if fits 128 i then some none else none

/-- What a word spells; none when it is a fault. -/
def spelled? (s : String) : Option Datum :=
  if isNothing s then some .nothing
  else
    match boolean? s, whole? s with
    | some b, _ => some (.boolean b)
    | none, some i => i.map .integer
    | none, none => if isNumber s && !hasLeadingZero s then some .fractional else some (.text s)

/-- What text is that has a tag. -/
def tagged? (tag s : String) : Option Datum :=
  if tag = Tag.boolean then (boolean? s).map .boolean
  else if tag = Tag.integer then ((whole? s).bind id).map .integer
  else if tag = Tag.fractional then if isNumber s then some .fractional else none
  else if tag = Tag.nothing then if nothings.contains s then some .nothing else none
  else some (.text s)

end Bare

namespace Datum

def untagged : Datum → Datum
  | .tagged _ d => d
  | d => d

def text? (d : Datum) : Option String :=
  match d.untagged with
  | .text s | .bare s | .literal s => some s
  | _ => none

/-- The word in a place where only an undecided one can be what is asked for, with
whatever tag, or other text with the tag that asks for it. -/
def word? (tag : String) : Datum → Option String
  | .bare s | .tagged _ (.bare s) => some s
  | .tagged t (.literal s) => if t = tag then some s else none
  | _ => none

def boolean? : Datum → Option Bool
  | .boolean b => some b
  | d => (d.word? Tag.boolean).bind Bare.boolean?

/-- A number of sixty-four bits without a sign. -/
def natural? (d : Datum) : Option Nat :=
  let read :=
    match d with
    | .integer i => if 0 ≤ i then some i.toNat else none
    | d => (d.word? Tag.integer).bind Bare.natural?
  read.filter (· < UInt64.size)

/-- A value that a word for nothing leaves out. With the tag for nothing a word can be
nothing else. -/
def optional? {α : Type} (read : Datum → Option α) (d : Datum) : Option (Option α) :=
  match d with
  | .bare s => if Bare.isNothing s then some none else (read d).map some
  | .tagged tag (.bare s) =>
    if tag = Tag.nothing then if Bare.nothings.contains s then some none else none
    else (read d).map some
  | d => (read d).map some

/-- Whether a datum is an undecided word for nothing. -/
def isNothing : Datum → Bool
  | .bare s => Bare.isNothing s
  | _ => false

/-- Whether a datum has no characters where it could have some. -/
def isEmpty (d : Datum) : Bool :=
  match d.untagged with
  | .bare s => s.isEmpty
  | _ => false

/-- The place of a key among the names of fields; a place past the last is no field. -/
def place? (names : List String) (key : Datum) : Option Nat :=
  match key.text?, key with
  | some s, _ => some (names.idxOf s)
  | none, .integer i => if 0 ≤ i then some i.toNat else none
  | none, _ => none

/-- The only value for a place, if there is one; two values are a fault. -/
def at? (place : Nat) (entries : List (Nat × Datum)) : Option (Option Datum) :=
  match entries.filter fun e => e.1 = place with
  | [] => some none
  | [e] => some (some e.2)
  | _ => none

/-- The values of named fields, in the order of the names. A table gives them by
name and a list by place; an absent document has none of them. -/
def fields? (names : List String) (d : Datum) : Option (List (Option Datum)) :=
  match d.untagged with
  | .table entries => do
    let placed ← entries.mapM fun e => (place? names e.1).map fun i => (i, e.2)
    (List.range names.length).mapM fun i => at? i placed
  | .list items =>
    if items.length ≤ names.length then
      some (items.map some ++ List.replicate (names.length - items.length) none)
    else none
  | d => if d.isEmpty then some (List.replicate names.length none) else none

mutual

/-- A datum where anything may stand, decided throughout. A tag has to be known or
says nothing; one that only an application knows is a fault. -/
def decided? : Datum → Option Datum
  | .bare s => Bare.spelled? s
  | .literal s => some (.text s)
  | .tagged tag d =>
    if Tag.isLocal tag then none
    else
      match d.text? with
      | some s => Bare.tagged? tag s
      | none => decided? d
  | .list items => (decidedItems? items).map .list
  | .table entries => (decidedEntries? entries).map .table
  | d => some d

def decidedItems? : List Datum → Option (List Datum)
  | [] => some []
  | d :: rest =>
    match decided? d, decidedItems? rest with
    | some d, some rest => some (d :: rest)
    | _, _ => none

def decidedEntries? : List (Datum × Datum) → Option (List (Datum × Datum))
  | [] => some []
  | (key, value) :: rest =>
    match decided? key, decided? value, decidedEntries? rest with
    | some key, some value, some rest => some ((key, value) :: rest)
    | _, _, _ => none

end

end Datum

end SmtDialogue
