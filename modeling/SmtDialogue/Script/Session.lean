import SmtDialogue.Script.Emission

/-!
# Incremental sessions

In a session words are declared as they are created. Every fragment is checked and
written as a whole, and one that is refused declares nothing. Words declared after
a push are forgotten by the matching pop.
-/

namespace SmtDialogue

/-- What is introduced since the fragment before. Inputs are existential. -/
structure Delta where
  sorts : List SortDecl
  inputs : List Variable
  constants : List (WordId × Value)
  tables : List Table
  arrays : List ArrayDecl
  functions : List FunctionDecl
  assignments : List Assignment
  assertions : List WordId

namespace Delta

def features (d : Delta) : Features :=
  let kinds := Kind.sorted
    (d.inputs.map (·.kind) ++ d.constants.map (fun k => k.2.kind) ++
      d.assignments.map (·.kind) ++
      Features.declaredKinds d.sorts d.tables d.arrays d.functions)
  { kinds
    quantified := false
    optimizing := false
    sorts := !d.sorts.isEmpty || kinds.any Kind.isSort
    universalObjectives := [] }

/-- The words a fragment declares. -/
def words (d : Delta) : List WordId :=
  d.inputs.map (·.id) ++ d.constants.map Prod.fst ++ d.assignments.map (·.id)

/-- Commands and the scope after them. -/
structure Written where
  commands : List Command
  scope : Scope

def Written.add (w : Written) (a : Assignment) : Except EmitError Written := do
  let body ← a.term w.scope
  return ⟨w.commands ++ [a.command body], w.scope.declare a.id a.kind true⟩

/-- The commands of a fragment, written in a scope. -/
def commands (d : Delta) (scope : Scope) : Except EmitError Written := do
  let scope := d.inputs.foldl (fun s v => s.declare v.id v.kind true) scope
  let scope := d.constants.foldl (fun s k => s.declare k.1 k.2.kind true) scope
  let arrays ← d.arrays.mapM (ArrayDecl.command · scope)
  let w ← d.assignments.foldlM Written.add ⟨[], scope⟩
  let entries ← d.tables.mapM (Table.entryCommands · w.scope)
  d.assertions.forM fun id => do discard (w.scope.kind id)
  return ⟨d.sorts.map SortDecl.command ++ d.inputs.map Variable.command ++
    d.constants.map (fun k => constantCommand k.1 k.2) ++ d.tables.map Table.command ++
    arrays ++ d.functions.map FunctionDecl.command ++ w.commands ++ entries.flatten ++
    d.assertions.map (fun id => .assert (.word id)), w.scope⟩

end Delta

/-- The words in scope, and those declared at each open level, innermost first. -/
structure Session where
  scope : Scope
  levels : List (List WordId)
deriving DecidableEq

namespace Session

def start : Session := ⟨[], []⟩

/-- The number of open levels. -/
def depth (s : Session) : Nat :=
  s.levels.length

/-- Adds words to the innermost open level; at the base none are kept, since it is
never closed. -/
def record (words : List WordId) : List (List WordId) → List (List WordId)
  | [] => []
  | level :: rest => (level ++ words) :: rest

/-- Writes a fragment for a solver. -/
def fragment (solver : Capabilities) (s : Session) (d : Delta) :
    Except QueryError (Script × Session) := do
  (d.features.check solver).mapError .refused
  let w ← (d.commands s.scope).mapError .emission
  return (Script.ofCommands w.commands, ⟨w.scope, record d.words s.levels⟩)

def push (s : Session) : Command × Session :=
  (.push 1, { s with levels := [] :: s.levels })

/-- Closes the innermost level, if one is open. -/
def pop (s : Session) : Option (Command × Session) :=
  match s.levels with
  | [] => none
  | level :: rest => some (.pop 1, ⟨level.foldl Scope.forget s.scope, rest⟩)

end Session

end SmtDialogue
