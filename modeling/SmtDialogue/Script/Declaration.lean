import SmtDialogue.Script.Command
import SmtDialogue.Script.Scope

/-!
# Declarations

The commands that introduce sorts, inputs, constants, tables, arrays, functions
and defined words. They are the same in a one-shot query and in a session.
-/

namespace SmtDialogue

def SortDecl.command (s : SortDecl) : Command :=
  .declareSort s.name s.constructors

/-- An input outside every quantifier is a constant. -/
def Variable.command (v : Variable) : Command :=
  .declare (.word v.id) [] (.value v.kind) (.tracks v.name)

/-- An input under universal ones is a function of them. -/
def Variable.skolemCommand (v : Variable) (universals : List Variable) : Command :=
  .declare (.word v.id) (universals.map fun u => .value u.kind) (.value v.kind)
    (.skolemized v.name)

def constantCommand (id : WordId) (v : Value) : Command :=
  .define (.word id) (.value v.kind) (.literal v) .none

def FunctionDecl.command (f : FunctionDecl) : Command :=
  .declare (.function f.name) (f.args.map .value) (.value f.result) .none

def Table.command (t : Table) : Command :=
  .declare (.table t.id) [] (.array t.index t.elem) .none

/-- An array with a default is defined by it. The default stands outside every
quantifier. -/
def ArrayDecl.command (a : ArrayDecl) (scope : Scope) : Except EmitError Command :=
  let sort := NameSort.array a.index a.elem
  match a.default with
  | none => .ok (.declare (.array a.id) [] sort (.array a.name))
  | some default => do
    scope.requireTop default
    return .define (.array a.id) sort (.apply (.everywhere sort) [.word default]) (.array a.name)

/-- The term of an assignment over words in scope. -/
def Assignment.term (a : Assignment) (scope : Scope) : Except EmitError Term := do
  let operands ← a.args.mapM fun id => return (id, ← scope.kind id)
  a.op.term a.kind operands

def Assignment.command (a : Assignment) (body : Term) : Command :=
  .define (.word a.id) (.value a.kind) body .none

/-- The assertion that fixes one place of a table. The place is a value of the index
kind, which must have integers. -/
def Table.entryCommand (t : Table) (scope : Scope) (place : Nat) (element : WordId) :
    Except EmitError Command := do
  scope.requireTop element
  match Value.ofPayload t.index (.integer place) with
  | .error (.mismatch _ _) => .error (.unsupported (.table t.id) t.index)
  | .error .overflow => .error .overflow
  | .ok index =>
    return .assert (.call "="
      [.call "select" [.name (.table t.id), .literal index], .word element])

/-- The assertions that fix all places of a table, in order. -/
def Table.entryCommands (t : Table) (scope : Scope) : Except EmitError (List Command) :=
  t.elements.zipIdx.mapM fun (element, place) => t.entryCommand scope place element

def Objective.command (o : Objective) : Command :=
  match o.goal with
  | .minimize => .minimize o.id
  | .maximize => .maximize o.id
  | .soft weight group => .assertSoft o.id weight group

end SmtDialogue
