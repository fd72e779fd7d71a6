import SmtDialogue.Keyed
import SmtDialogue.Value.Basic

/-!
# Programs

A program is the result of symbolic execution: every word has a number, a kind
and an operation that defines it from earlier words. This file holds programs,
the kinds of their words, the inputs a word depends on, and the symbols and the
number of models that an answer can have.
-/

namespace SmtDialogue

inductive Quantifier where
  | exist
  | all
deriving DecidableEq

def Quantifier.flip : Quantifier → Quantifier
  | .exist => .all
  | .all => .exist

/-- Whether the output is to be satisfied or proved. A proof looks for a
counterexample, so it flips every quantifier. -/
inductive Polarity where
  | satisfy
  | prove
deriving DecidableEq

structure Input where
  quantifier : Quantifier
  var : Variable

/-- A declared sort, enumerated when its constructors are listed. -/
structure SortDecl where
  name : String
  constructors : Option (List String)

def SortDecl.kind (s : SortDecl) : Kind :=
  .sort s.name s.constructors

/-- The operations that define words. The kinds of the operands choose the operator
that is written. -/
inductive Op where
  | plus
  | times
  | minus
  | negate
  | abs
  | quotient
  | remainder
  | equal
  | notEqual
  | less
  | greater
  | lessEq
  | greaterEq
  | ite
  | and
  | or
  | xor
  | not
  /-- Shift left by a constant. -/
  | shiftLeft (amount : Nat)
  /-- Shift right by a constant, keeping the sign of signed kinds. -/
  | shiftRight (amount : Nat)
  /-- The bits from `high` down to `low`, both included. -/
  | extract (high low : Nat)
  /-- Concatenation of bit vectors or strings. -/
  | join
  | table (id : Nat)
  | array (id : Nat)
  /-- Application of a declared function. -/
  | function (name : String)
deriving DecidableEq

namespace Op

/-- The number of arguments; a declared function may take any. -/
def arity? : Op → Option Nat
  | .negate | .abs | .not | .shiftLeft _ | .shiftRight _ | .extract _ _ | .table _ | .array _ =>
    some 1
  | .ite => some 3
  | .function _ => none
  | _ => some 2

def text : Op → String
  | .plus => "Plus"
  | .times => "Times"
  | .minus => "Minus"
  | .negate => "Negate"
  | .abs => "Abs"
  | .quotient => "Quot"
  | .remainder => "Rem"
  | .equal => "Equal"
  | .notEqual => "NotEqual"
  | .less => "LessThan"
  | .greater => "GreaterThan"
  | .lessEq => "LessEq"
  | .greaterEq => "GreaterEq"
  | .ite => "Ite"
  | .and => "And"
  | .or => "Or"
  | .xor => "XOr"
  | .not => "Not"
  | .shiftLeft amount => "Shl(" ++ toString amount ++ ")"
  | .shiftRight amount => "Shr(" ++ toString amount ++ ")"
  | .extract high low => "Extract(" ++ toString high ++ ", " ++ toString low ++ ")"
  | .join => "Join"
  | .table id => "TableLookup(" ++ toString id ++ ")"
  | .array id => "ArrayRead(" ++ toString id ++ ")"
  | .function name => name

end Op

/-- The word `id` is `op` of the words `args`. -/
structure Assignment where
  id : WordId
  kind : Kind
  op : Op
  args : List WordId

/-- A constant table; element `i` is the word at place `i`. -/
structure Table where
  id : Nat
  index : Kind
  elem : Kind
  elements : List WordId

/-- A solver array, possibly with one word at every place. -/
structure ArrayDecl where
  id : Nat
  name : String
  index : Kind
  elem : Kind
  default : Option WordId

structure FunctionDecl where
  name : String
  args : List Kind
  result : Kind

/-- Lines of the user, written into the query as they are. -/
structure Assumption where
  name : String
  lines : List String

inductive Goal where
  | minimize
  | maximize
  /-- An assertion that may be given up at a cost. -/
  | soft (weight : Nat) (group : Option String)
deriving DecidableEq

structure Objective where
  name : String
  id : WordId
  goal : Goal
deriving DecidableEq

/-- How several objectives are combined. -/
inductive Style where
  /-- Each objective subject to the ones before it. -/
  | lexicographic
  /-- Each objective on its own, with a model for each. -/
  | independent
  /-- Fronts that no objective can leave without loss, up to a number of them. -/
  | pareto (maxFronts : Nat)
deriving DecidableEq

structure Program where
  polarity : Polarity
  sorts : List SortDecl
  inputs : List Input
  constants : List (WordId × Value)
  tables : List Table
  arrays : List ArrayDecl
  functions : List FunctionDecl
  assumptions : List Assumption
  assignments : List Assignment
  constraints : List WordId
  output : WordId
  objectives : List Objective
  style : Style

namespace Program

/-- The quantifier of an input as the polarity has it. -/
def quantifier (p : Program) (input : Input) : Quantifier :=
  match p.polarity with
  | .satisfy => input.quantifier
  | .prove => input.quantifier.flip

/-- The words a program introduces with their kinds, in program order. -/
def words (p : Program) : List (WordId × Kind) :=
  p.inputs.map (fun i => (i.var.id, i.var.kind)) ++
    p.constants.map (fun c => (c.1, c.2.kind)) ++
    p.assignments.map fun a => (a.id, a.kind)

/-- The kind of every word, in ascending order; a later introduction wins. -/
def wordKinds (p : Program) : List (WordId × Kind) :=
  Keyed.ofList Prod.fst p.words

def wordKind? (p : Program) (id : WordId) : Option Kind :=
  (Keyed.get? Prod.fst id p.wordKinds).map Prod.snd

/-- The words reached from a stack of words through definitions. A definition is
removed when it is followed, so each is followed once, cycles or not. -/
def reach (defs : List (WordId × List WordId)) (stack reached : List WordId) : List WordId :=
  match stack with
  | [] => reached
  | id :: rest =>
    match _h : Keyed.get? Prod.fst id defs with
    | some d => reach (Keyed.remove Prod.fst id defs) (d.2 ++ rest) (id :: reached)
    | none => reach defs rest (id :: reached)
termination_by (defs.length, stack.length)
decreasing_by
  · exact Prod.Lex.left _ _ (Keyed.length_remove_lt _h)
  · exact Prod.Lex.right _ (by simp)

/-- The words that a word depends on, itself included; the last definition of a
word counts. -/
def dependencies (p : Program) (id : WordId) : List WordId :=
  reach (p.assignments.reverse.map fun a => (a.id, a.args)) [id] []

/-- The inputs that a word depends on, in ascending order. -/
def inputDependencies (p : Program) (id : WordId) : List WordId :=
  let reached := p.dependencies id
  Keyed.ofList (fun x => x)
    ((p.inputs.map fun i => i.var.id).filter fun i => reached.contains i)

/-- Adds a variable unless its word has one. -/
def addVariable (known : List Variable) (v : Variable) : List Variable :=
  if known.any fun w => w.id = v.id then known else known ++ [v]

/-- The variable an objective is reported under, if its word is introduced. -/
def objectiveVariable? (p : Program) (o : Objective) : Option Variable :=
  (p.wordKind? o.id).map fun kind => ⟨o.id, o.name, kind⟩

/-- The variables an answer can mention: the inputs under their own names, then the
objectives over other words under theirs. The first variable of a word counts. -/
def symbolTable (p : Program) : SymbolTable :=
  ⟨(p.inputs.map (·.var) ++ p.objectives.filterMap p.objectiveVariable?).foldl
    addVariable []⟩

/-- The number of models in the answer to a full query. -/
def expectedModels (p : Program) : Nat :=
  if p.objectives.isEmpty then 1
  else
    match p.style with
    | .lexicographic => 1
    | .independent => p.objectives.length
    | .pareto maxFronts => max 1 maxFronts

end Program

end SmtDialogue
