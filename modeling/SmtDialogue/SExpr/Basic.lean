import SmtDialogue.AlgReal
import SmtDialogue.Ieee.Text

/-!
# S-expressions

Solvers answer in S-expressions. An atom is already classified: numerals,
bit-vector literals, rationals, floating-point words and roots of polynomials are
values, not text. This file holds the trees, their printed form, and what the
grammars of answers ask of a tree. Printing doubles the quotes of a string and
writes symbols without bars.
-/

namespace SmtDialogue

inductive Atom where
  /-- A symbol, without the bars it may have been quoted with. -/
  | symbol (name : String)
  /-- A keyword, with its colon. -/
  | keyword (name : String)
  /-- An integer; bit-vector literals carry their width. -/
  | int (value : Int) (width : Option UInt32)
  | real (r : AlgReal)
  | float (bits : BitVec 32)
  | double (bits : BitVec 64)
  | string (s : String)
deriving DecidableEq

/-- A string between quotes, with the quotes inside it doubled. -/
def doubledQuotes (s : String) : String :=
  String.ofList (['"'] ++ s.toList.flatMap (fun c => if c = '"' then ['"', '"'] else [c]) ++ ['"'])

def Atom.text : Atom → String
  | .symbol name | .keyword name => name
  | .int value none => Numeral.integerTerm value
  | .int value (some width) => "(_ bv" ++ toString value ++ " " ++ toString width.toNat ++ ")"
  | .real r => r.term
  | .float bits => Ieee.text Ieee.single bits.toNat ++ "f"
  | .double bits => Ieee.text Ieee.double bits.toNat
  | .string s => doubledQuotes s

inductive SExpr where
  | atom (a : Atom)
  | app (items : List SExpr)

namespace SExpr

mutual

def decEq : (s t : SExpr) → Decidable (s = t)
  | .atom a, .atom b =>
    if h : a = b then .isTrue (by rw [h]) else .isFalse (by simp [h])
  | .atom _, .app _ => .isFalse (by simp)
  | .app _, .atom _ => .isFalse (by simp)
  | .app ss, .app ts =>
    match decEqList ss ts with
    | .isTrue h => .isTrue (by rw [h])
    | .isFalse h => .isFalse (by simp [h])

def decEqList : (ss ts : List SExpr) → Decidable (ss = ts)
  | [], [] => .isTrue rfl
  | [], _ :: _ => .isFalse (by simp)
  | _ :: _, [] => .isFalse (by simp)
  | s :: ss, t :: ts =>
    match decEq s t with
    | .isTrue h =>
      match decEqList ss ts with
      | .isTrue hs => .isTrue (by rw [h, hs])
      | .isFalse hs => .isFalse (by simp [hs])
    | .isFalse h => .isFalse (by simp [h])

end

instance : DecidableEq SExpr := decEq

mutual

/-- The printed form, with single blanks between the items of an application. -/
def text : SExpr → String
  | .atom a => a.text
  | .app items => "(" ++ textList items ++ ")"

/-- The printed forms of several trees, with single blanks between them. -/
def textList : List SExpr → String
  | [] => ""
  | [e] => text e
  | e :: f :: rest => text e ++ " " ++ textList (f :: rest)

end

def symbol? : SExpr → Option String
  | .atom (.symbol name) => some name
  | _ => none

def isSymbol (name : String) (e : SExpr) : Bool :=
  e.symbol? = some name

def items? : SExpr → Option (List SExpr)
  | .app items => some items
  | _ => none

def isAtom : SExpr → Bool
  | .atom _ => true
  | .app _ => false

/-- The symbol an application starts with. -/
def head? (e : SExpr) : Option String :=
  e.items?.bind fun items => items.head?.bind symbol?

end SExpr

end SmtDialogue
