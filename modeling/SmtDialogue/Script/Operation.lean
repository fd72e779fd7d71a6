import SmtDialogue.Program.Basic
import SmtDialogue.Script.Term

/-!
# The terms of operations

An operation of a program is written with the operator of the kind of its
operands: one sum covers bit vectors, numbers, floating-point words and strings.
Operations that a kind has no operator for are refused.
-/

namespace SmtDialogue

/-- Why the text of a program cannot be written. -/
inductive EmitError where
  | unsupported (op : Op) (kind : Kind)
  | arity (op : Op) (given : Nat) (kind : Kind)
  | undeclared (id : WordId)
  /-- A place of a table is no value of a kind whose range cannot be computed. -/
  | overflow
deriving DecidableEq

def EmitError.message : EmitError → String
  | .unsupported op kind =>
    "Operation " ++ op.text ++ " is not supported at kind " ++ kind.text
  | .arity op given kind =>
    "Operation " ++ op.text ++ " with " ++ toString given ++
      " arguments is not supported at kind " ++ kind.text
  | .undeclared id => "Symbol " ++ id.text ++ " is used but never declared"
  | .overflow => "arithmetic overflow"

/-- The names of one comparison on signed words, unsigned words, numbers and
floating-point words. Strings know only two comparisons, so some of theirs swap the
arguments. -/
structure Comparison where
  signed : String
  unsigned : String
  number : String
  float : String
  string : String
  swapped : Bool

def Comparison.less : Comparison := ⟨"bvslt", "bvult", "<", "fp.lt", "str.<", false⟩

def Comparison.greater : Comparison := ⟨"bvsgt", "bvugt", ">", "fp.gt", "str.<", true⟩

def Comparison.lessEq : Comparison := ⟨"bvsle", "bvule", "<=", "fp.leq", "str.<=", false⟩

def Comparison.greaterEq : Comparison := ⟨"bvsge", "bvuge", ">=", "fp.geq", "str.<=", true⟩

def Comparison.term? (c : Comparison) (kind : Kind) (args : List Term) : Option Term :=
  match kind with
  | .bits true _ => some (.call c.signed args)
  | .bits false _ => some (.call c.unsigned args)
  | .integer | .real => some (.call c.number args)
  | .float | .double => some (.call c.float args)
  | .string | .char => some (.call c.string (if c.swapped then args.reverse else args))
  | _ => none

namespace Op

open Term (call)

/-- An operation on bit vectors, on numbers and, rounded, on floating-point words. -/
def arithmetic? (bits number float : String) (kind : Kind) (args : List Term) : Option Term :=
  match kind with
  | .bits _ _ => some (call bits args)
  | .integer | .real => some (call number args)
  | .float | .double => some (.apply (.rounded float) args)
  | _ => none

def sum? (kind : Kind) (args : List Term) : Option Term :=
  match kind with
  | .string => some (call "str.++" args)
  | kind => arithmetic? "bvadd" "+" "fp.add" kind args

def negation? (kind : Kind) (args : List Term) : Option Term :=
  match kind with
  | .bits _ _ => some (call "bvneg" args)
  | .integer | .real => some (call "-" args)
  | .float | .double => some (call "fp.neg" args)
  | _ => none

/-- The magnitude: an unsigned word is its own, and a signed word or a real is
negated when it is below zero. -/
def magnitude? (kind : Kind) (a : Term) : Option Term :=
  match kind with
  | .bits true width =>
    let zero := Term.literal (Value.ofWord width 0)
    some (call "ite" [call "bvslt" [a, zero], call "bvneg" [a], a])
  | .bits false _ => some a
  | .integer => some (call "abs" [a])
  | .real =>
    let zero := Term.literal (Value.ofReal (.ofInt 0))
    some (call "ite" [call "<" [a, zero], call "-" [a], a])
  | .float | .double => some (call "fp.abs" [a])
  | _ => none

def quotient? (kind : Kind) (args : List Term) : Option Term :=
  match kind with
  | .bits false _ => some (call "bvudiv" args)
  | .bits true _ => some (call "bvsdiv" args)
  | .integer => some (call "div" args)
  | .real => some (call "/" args)
  | .float | .double => some (.apply (.rounded "fp.div") args)
  | _ => none

def remainder? (kind : Kind) (args : List Term) : Option Term :=
  match kind with
  | .bits false _ => some (call "bvurem" args)
  | .bits true _ => some (call "bvsrem" args)
  | .integer => some (call "mod" args)
  | .float | .double => some (call "fp.rem" args)
  | _ => none

/-- Floating-point words are compared as numbers, all other values for identity. -/
def equality (kind : Kind) (args : List Term) : Term :=
  call (if kind.isFloating then "fp.eq" else "=") args

def difference (kind : Kind) (args : List Term) : Term :=
  if kind.isFloating then call "not" [call "fp.eq" args] else call "distinct" args

/-- An operation on truth values and, bit by bit, on words. -/
def logical? (truth bits : String) (kind : Kind) (args : List Term) : Option Term :=
  match kind with
  | .bool => some (call truth args)
  | .bits _ _ => some (call bits args)
  | _ => none

/-- The literal of a shift amount. Shifting by the whole width clears every bit, so
no greater amount is written. -/
def shiftAmount (width : UInt32) (amount : Nat) : Term :=
  .literal (Value.ofWord width (min amount width.toNat : Nat))

def shift? (amount : Nat) (signed unsigned : String) (kind : Kind) (a : Term) : Option Term :=
  match kind with
  | .bits true width => some (call signed [a, shiftAmount width amount])
  | .bits false width => some (call unsigned [a, shiftAmount width amount])
  | _ => none

def slice? (high low : Nat) (kind : Kind) (args : List Term) : Option Term :=
  match kind with
  | .bits _ width =>
    if low ≤ high ∧ high < width.toNat then some (.apply (.extract high low) args) else none
  | _ => none

def concatenation? (kind : Kind) (args : List Term) : Option Term :=
  match kind with
  | .bits _ _ => some (call "concat" args)
  | .string => some (call "str.++" args)
  | _ => none

/-- A declared function without arguments is its name. -/
def application (name : String) (args : List Term) : Term :=
  if args.isEmpty then .name (.function name) else .apply (.declared (.function name)) args

/-- The term of an operation on arguments whose family of operators `kind` chooses. -/
def written? (op : Op) (kind : Kind) (args : List Term) : Option Term :=
  match op with
  | .plus => sum? kind args
  | .times => arithmetic? "bvmul" "*" "fp.mul" kind args
  | .minus => arithmetic? "bvsub" "-" "fp.sub" kind args
  | .negate => negation? kind args
  | .abs => args.head?.bind (magnitude? kind)
  | .quotient => quotient? kind args
  | .remainder => remainder? kind args
  | .equal => some (equality kind args)
  | .notEqual => some (difference kind args)
  | .less => Comparison.less.term? kind args
  | .greater => Comparison.greater.term? kind args
  | .lessEq => Comparison.lessEq.term? kind args
  | .greaterEq => Comparison.greaterEq.term? kind args
  | .ite => some (call "ite" args)
  | .and => logical? "and" "bvand" kind args
  | .or => logical? "or" "bvor" kind args
  | .xor => logical? "xor" "bvxor" kind args
  | .not => logical? "not" "bvnot" kind args
  | .shiftLeft n => args.head?.bind (shift? n "bvshl" "bvshl" kind)
  | .shiftRight n => args.head?.bind (shift? n "bvashr" "bvlshr" kind)
  | .extract high low => slice? high low kind args
  | .join => concatenation? kind args
  | .table id => some (call "select" (.name (.table id) :: args))
  | .array id => some (call "select" (.name (.array id) :: args))
  | .function name => some (application name args)

/-- The kind that chooses the operator: the first operand's, the first branch's of a
conditional, and the result's where there is no operand. -/
def family (op : Op) (result : Kind) (operands : List Kind) : Kind :=
  match op with
  | .ite => operands[1]?.getD result
  | _ => operands.head?.getD result

/-- The term of an operation with a given result kind on words of given kinds. -/
def term (op : Op) (result : Kind) (operands : List (WordId × Kind)) : Except EmitError Term :=
  if op.arity?.any (· ≠ operands.length) then .error (.arity op operands.length result)
  else
    let kind := op.family result (operands.map Prod.snd)
    match op.written? kind (operands.map fun o => Term.word o.1) with
    | some t => .ok t
    | none => .error (.unsupported op kind)

end Op

end SmtDialogue
