import SmtDialogue.Config.Datum

/-!
# Tables of a sectioned document

A table comes into being in one of three ways: by a section of its own, on the way
to a section below it, or by a dotted key. A table may be defined once only. A
section may still be opened for a table that sections below it created, dotted
keys may add to what dotted keys created, and nothing is added to a finished
value. Sections may also be the elements of an array, and then a path through the
array leads into the last of them.
-/

namespace SmtDialogue.Toml

inductive Origin where
  | opened
  | passed
  | dotted
deriving DecidableEq

inductive Node where
  | value (d : Datum)
  | table (origin : Origin) (entries : List (String × Node))
  /-- An array of sections, of which the last comes first. -/
  | array (last : List (String × Node)) (earlier : List (List (String × Node)))

abbrev Entries := List (String × Node)

/-- Replaces the node of a key by what becomes of it. -/
def alter (key : String) (f : Option Node → Option Node) : Entries → Option Entries
  | [] => (f none).map fun n => [(key, n)]
  | (k, n) :: rest =>
    if k = key then (f (some n)).map fun n => (k, n) :: rest
    else (alter key f rest).map ((k, n) :: ·)

/-- Gives a dotted key its value. The table that takes it is one that dotted keys
created, unless the key has one part. -/
def assign (d : Datum) : List String → Entries → Option Entries
  | [] => fun _ => none
  | [key] => alter key fun
    | none => some (.value d)
    | some _ => none
  | key :: last :: path => alter key fun
    | none => (assign d (last :: path) []).map (.table .dotted)
    | some (.table .dotted inner) => (assign d (last :: path) inner).map (.table .dotted)
    | some (.table .passed inner) =>
      if path.isEmpty then none else (assign d (last :: path) inner).map (.table .passed)
    | some (.array inner earlier) =>
      if path.isEmpty then none else (assign d (last :: path) inner).map (.array · earlier)
    | some _ => none

/-- Changes the entries that a path of sections leads to. -/
def within (f : Entries → Option Entries) : List String → Entries → Option Entries
  | [] => f
  | key :: path => alter key fun
    | none => (within f path []).map (.table .passed)
    | some (.table origin inner) => (within f path inner).map (.table origin)
    | some (.array inner earlier) => (within f path inner).map (.array · earlier)
    | some (.value _) => none

/-- Opens a section. -/
def openTable (path : List String) (entries : Entries) : Option Entries :=
  path.getLast?.bind fun key =>
    within (alter key fun
      | none => some (.table .opened [])
      | some (.table .passed inner) => some (.table .opened inner)
      | some _ => none) path.dropLast entries

/-- Opens a section that is the next element of an array. -/
def openElement (path : List String) (entries : Entries) : Option Entries :=
  path.getLast?.bind fun key =>
    within (alter key fun
      | none => some (.array [] [])
      | some (.array last earlier) => some (.array [] (last :: earlier))
      | some _ => none) path.dropLast entries

mutual

def Node.datum : Node → Datum
  | .value d => d
  | .table _ entries => .table (dataOf entries)
  | .array last earlier => .list (elementsOf earlier [.table (dataOf last)])

def dataOf : List (String × Node) → List (Datum × Datum)
  | [] => []
  | (key, node) :: rest => (.text key, node.datum) :: dataOf rest

/-- The elements of an array in front of the later ones. -/
def elementsOf : List (List (String × Node)) → List Datum → List Datum
  | [], later => later
  | entries :: rest, later => elementsOf rest (.table (dataOf entries) :: later)

end

/-- The table with the given entries. -/
def datumOf (entries : Entries) : Datum :=
  .table (dataOf entries)

end SmtDialogue.Toml
