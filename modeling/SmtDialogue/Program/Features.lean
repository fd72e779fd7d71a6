import SmtDialogue.Program.Basic
import SmtDialogue.Solver

/-!
# The capability gate

Before any text is written, a program is checked against what its solver can do.
The features it needs are collected from the kinds that occur in it and from its
quantifiers, sorts and objectives, and the first one that is missing is reported.
An objective that varies with a universal input is refused even by a solver that
can both quantify and optimize.
-/

namespace SmtDialogue

structure Features where
  /-- The kinds that occur, in ascending order. -/
  kinds : List Kind
  quantified : Bool
  optimizing : Bool
  /-- Whether sorts are declared or used. -/
  sorts : Bool
  /-- The names of the objectives that vary with a universal input. -/
  universalObjectives : List String
deriving DecidableEq

/-- Why a program is not given to a solver. -/
inductive Refusal where
  | capability (feature : Feature) (solver : String)
  | universalObjectives (objectives : List String) (solver : String)
deriving DecidableEq

def Refusal.message : Refusal → String
  | .capability feature solver =>
    "Given problem needs " ++ feature.text ++
      ", which is not supported by the chosen solver: " ++ solver
  | .universalObjectives objectives solver =>
    "Objective(s) " ++ String.intercalate ", " objectives ++
      " depend on universally quantified inputs, which " ++ solver ++
      " cannot optimize directly"

namespace Features

/-- The kinds that declarations of sorts, tables, arrays and functions mention. -/
def declaredKinds (sorts : List SortDecl) (tables : List Table) (arrays : List ArrayDecl)
    (functions : List FunctionDecl) : List Kind :=
  sorts.map SortDecl.kind ++ tables.flatMap (fun t => [t.index, t.elem]) ++
    arrays.flatMap (fun a => [a.index, a.elem]) ++
    functions.flatMap fun f => f.args ++ [f.result]

/-- The inputs from the first universal one on; their values vary with it. -/
def varyingInputs (p : Program) : List WordId :=
  (p.inputs.dropWhile fun i => p.quantifier i = .exist).map fun i => i.var.id

def varies (p : Program) (o : Objective) : Bool :=
  (p.inputDependencies o.id).any fun id => (varyingInputs p).contains id

def ofProgram (p : Program) : Features :=
  let kinds := Kind.sorted
    (p.wordKinds.map Prod.snd ++ declaredKinds p.sorts p.tables p.arrays p.functions)
  { kinds
    quantified := p.inputs.any fun i => p.quantifier i = .all
    optimizing := !p.objectives.isEmpty
    sorts := !p.sorts.isEmpty || kinds.any Kind.isSort
    universalObjectives := (p.objectives.filter (varies p)).map (·.name) }

/-- Whether a feature is needed. -/
def needs (f : Features) : Feature → Bool
  | .integers => f.kinds.contains .integer
  | .reals => f.kinds.contains .real
  | .floats => f.kinds.any Kind.isFloating
  | .quantifiers => f.quantified
  | .sorts => f.sorts
  | .optimization => f.optimizing

/-- The needed features in the order they are checked. -/
def required (f : Features) : List Feature :=
  [.integers, .reals, .floats, .quantifiers, .sorts, .optimization].filter f.needs

/-- Passes features that the solver supports. -/
def check (f : Features) (solver : Capabilities) : Except Refusal Unit :=
  match f.required.find? fun feature => !solver.supports feature with
  | some feature => .error (.capability feature solver.name)
  | none =>
    if f.universalObjectives.isEmpty then .ok ()
    else .error (.universalObjectives f.universalObjectives solver.name)

end Features

end SmtDialogue
