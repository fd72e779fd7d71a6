import SmtDialogue.Script.Emission

/-!
# Full queries

A full query is the script of a program and the commands that run it and print its
models. Independent objectives are solved one by one, each in a block of its own;
fronts are asked for one after the other. Between two models the sentinel is
echoed, so the answer holds as many models as the program expects.
-/

namespace SmtDialogue

/-- The inputs whose values a model is read back for: the existential ones before
every universal one. -/
def Program.modelInputs (p : Program) : List WordId :=
  (p.inputs.takeWhile fun i => p.quantifier i = .exist).map fun i => i.var.id

namespace Script

/-- The commands that print one model. -/
def readback (p : Program) : List Command :=
  [.checkSat] ++
    (if p.objectives.isEmpty then [] else [.getObjectives]) ++
    (if p.modelInputs.isEmpty then [] else [.getValue p.modelInputs])

/-- Blocks of commands with the sentinel echoed between them. -/
def separated (sentinel : String) : List (List Command) → List Command
  | [] => []
  | [block] => block
  | block :: rest => block ++ [.echo sentinel] ++ separated sentinel rest

/-- The blocks that print one model each. -/
def blocks (p : Program) : List (List Command) :=
  match p.style with
  | .independent =>
    if p.objectives.isEmpty then [readback p]
    else p.objectives.map fun o => [.push 1, o.command] ++ readback p ++ [.pop 1]
  | .pareto _ => List.replicate p.expectedModels (readback p)
  | .lexicographic => [readback p]

/-- A full query for a program. -/
def query (c : Config) (p : Program) : Except QueryError Script := do
  return (← ofProgram c p) ++ ofCommands (separated c.sentinel (blocks p))

end Script

end SmtDialogue
