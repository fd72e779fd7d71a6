import SmtDialogue.SExpr.Fold

/-!
# Normalized answers

Solvers wrap values in applications that mean nothing to the grammars of answers:
a cast from integers to reals, and an abstraction around the body of a function.
Normalizing replaces a cast by its argument and an abstraction by its last item,
and folds applications whose items may have changed. An application whose folding
overflows is left in the result, where it shows that normalizing overflowed.
-/

namespace SmtDialogue.SExpr

/-- The place of the item that stands for a whole application. -/
def wrappedPlace? (items : List SExpr) : Option Nat :=
  match items.head?.bind symbol? with
  | some "to_real" => if items.length = 2 then some 1 else none
  | some "lambda" | some "LAMBDA" => if 2 ≤ items.length then some (items.length - 1) else none
  | _ => none

mutual

def normalize : SExpr → SExpr
  | .atom a => .atom a
  | .app items =>
    let normalized := normalizeList items
    match (wrappedPlace? items).bind fun place => normalized[place]? with
    | some item => item
    | none => fold normalized

def normalizeList : List SExpr → List SExpr
  | [] => []
  | e :: rest => normalize e :: normalizeList rest

end

end SmtDialogue.SExpr
