import SmtDialogue.Answer.Binding
import SmtDialogue.Answer.Bound

/-!
# Objective values in answers

Optimizing solvers print `(objectives (symbol bound) ...)`. A bound is first read
as a plain value and otherwise by the grammar of bounds, and is then simplified.
The kind of an objective that the table does not know is taken from the first
number in its bound. One item that cannot be read is an error of the whole list.
-/

namespace SmtDialogue

/-- The value of an objective, under the name it is reported by. -/
structure ObjectiveValue where
  name : String
  value : Extended
deriving DecidableEq

namespace ObjectiveValue

def kindOfAtom? : Atom → Option Kind
  | .int _ (some width) => some (.word width)
  | .int _ none => some .integer
  | .real _ => some .real
  | .float _ => some .float
  | .double _ => some .double
  | .symbol _ | .keyword _ | .string _ => none

mutual

/-- The kind of the first number in a tree. -/
def inferredKind? : SExpr → Option Kind
  | .atom a => kindOfAtom? a
  | .app items => inferredKindOfList? items

def inferredKindOfList? : List SExpr → Option Kind
  | [] => none
  | e :: rest =>
    match inferredKind? e with
    | some kind => some kind
    | none => inferredKindOfList? rest

end

/-- The bound of a kind that a tree stands for, simplified. It is only read by the grammar of
bounds when it is no plain value; an overflow is the end of it. -/
def bound (kind : Kind) (e : SExpr) : Except DecodeFailure Extended :=
  match Value.decode kind e with
  | .ok v => .ok (.finite v)
  | .error .overflow => .error .overflow
  | .error _ => (Extended.ofSExpr kind e).map Extended.simplify

/-- The variable that an objective's tree names. -/
def named? (table : SymbolTable) (name : SExpr) : Except Ambiguity (Option Variable) :=
  match name.symbol? with
  | some symbol => table.resolve symbol
  | none => .ok none

def readItem (table : SymbolTable) (fail : DecodeFailure → AnswerError) (item : SExpr) :
    Except AnswerError ObjectiveValue :=
  match item with
  | .app [name, value] =>
    match named? table name with
    | .error a => .error (.ambiguous a)
    | .ok (some v) => ((bound v.kind value).mapError fail).map (⟨v.name, ·⟩)
    | .ok none =>
      ((bound ((inferredKind? value).getD .integer) value).mapError fail).map
        (⟨name.symbol?.getD name.text, ·⟩)
  | _ => .error (fail (.unrecognizedShape item))

def readItems (table : SymbolTable) (fail : DecodeFailure → AnswerError) :
    List SExpr → Except AnswerError (List ObjectiveValue)
  | [] => .ok []
  | item :: rest =>
    match readItem table fail item with
    | .error e => .error e
    | .ok value => (readItems table fail rest).map (value :: ·)

/-- Whether a tree lists objective values. -/
def isObjectives (tree : SExpr) : Bool :=
  tree.head? = some "objectives"

/-- The objective values of a tree, in order; `line` is the text it was read from. -/
def extract (table : SymbolTable) (line : String) (tree : SExpr) :
    Except AnswerError (List ObjectiveValue) :=
  match tree with
  | .app (head :: items) =>
    if head.isSymbol "objectives" then readItems table (.undecodable line tree) items
    else .error (.undecodable line tree (.unexpectedRoot "objectives"))
  | _ => .error (.undecodable line tree (.unexpectedRoot "objectives"))

end ObjectiveValue

end SmtDialogue
