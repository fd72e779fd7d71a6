import SmtDialogue.Kind
import SmtDialogue.Numeral

/-!
# Words and their symbols

A query refers to a word by its number, written `s<N>`; solvers echo that symbol,
which ties an answer to a variable. The symbol table of a query lists the
variables an answer may mention.
-/

namespace SmtDialogue

/-- The number of a symbolic word. -/
structure WordId where
  index : UInt64
deriving DecidableEq, Inhabited

namespace WordId

def text (id : WordId) : String :=
  "s" ++ toString id.index.toNat

/-- The word that a symbol names. Leading zeros are allowed, and the number must be
below `2 ^ 64`. -/
def ofSymbol? (symbol : String) : Option WordId :=
  match symbol.toList with
  | 's' :: digits =>
    if Numeral.isDigits digits && Numeral.decimal digits < UInt64.size then
      some ⟨UInt64.ofNat (Numeral.decimal digits)⟩
    else none
  | _ => none

end WordId

/-- A variable: its word, the name it is shown under, and its kind. -/
structure Variable where
  id : WordId
  name : String
  kind : Kind
deriving DecidableEq, Inhabited

/-- A symbol that several variables claim. -/
structure Ambiguity where
  symbol : String
  names : List String
deriving DecidableEq

def Ambiguity.message (e : Ambiguity) : String :=
  "Solver symbol " ++ e.symbol ++ " is ambiguous, it matches: " ++
    String.intercalate ", " e.names

structure SymbolTable where
  entries : List Variable
deriving DecidableEq, Inhabited

namespace SymbolTable

/-- The variables of a word, in table order. -/
def withId (table : SymbolTable) (id : WordId) : List Variable :=
  table.entries.filter fun v => v.id = id

/-- The variable a symbol stands for. Symbols that name no word, and words without
a variable, stand for none. -/
def resolve (table : SymbolTable) (symbol : String) : Except Ambiguity (Option Variable) :=
  match WordId.ofSymbol? symbol with
  | none => .ok none
  | some id =>
    match table.withId id with
    | [] => .ok none
    | [only] => .ok (some only)
    | several => .error ⟨symbol, several.map (·.name)⟩

end SymbolTable

end SmtDialogue
