import SmtDialogue.Config.Basic
import SmtDialogue.Program.Features
import SmtDialogue.Script.Declaration

/-!
# The script of a program

A program is written as one script. Existential inputs before every universal one
are constants; later ones are functions of the universal inputs before them. Words
that depend on no universal input are defined outside; the others are bound inside
one quantified assertion, which then holds the constraints and the output.
-/

namespace SmtDialogue

/-- Why a program has no text: its solver lacks something, or it cannot be written. -/
inductive QueryError where
  | refused (r : Refusal)
  | emission (e : EmitError)
deriving DecidableEq

def QueryError.message : QueryError → String
  | .refused r => r.message
  | .emission e => e.message

namespace Script

def ofCommands (commands : List Command) : Script :=
  commands.map .command

def Features.onlyBits (f : Features) : Bool :=
  f.kinds.all fun k => k = .bool || k.isBits

/-- The logic of a program: bit vectors only when nothing else can occur. -/
def inferLogic (p : Program) (f : Features) : String :=
  let bitsOnly := Features.onlyBits f && p.tables.isEmpty && p.arrays.isEmpty &&
    p.functions.isEmpty && p.assumptions.isEmpty
  if bitsOnly then (if f.quantified then "BV" else "QF_BV") else "ALL"

def priority : Style → String
  | .lexicographic => "lex"
  | .independent => "box"
  | .pareto _ => "pareto"

/-- The options and the logic, in the order they are set. -/
def header (c : Config) (p : Program) (f : Features) : Script :=
  [.banner] ++ ofCommands (
    (if c.produceModels then [.setOption "produce-models" "true"] else []) ++
    (match c.timeoutMs with
      | some ms => [.setOption "timeout" (toString ms)]
      | none => []) ++
    c.options.map (fun o => .setOption o.1 o.2) ++
    (if p.objectives.isEmpty then [] else [.setOption "opt.priority" (priority p.style)]) ++
    [.setLogic (c.logic.getD (inferLogic p f))])

/-- Lines under a heading, which is left out when there are none. -/
def underHeading (title : String) (lines : Script) : Script :=
  if lines.isEmpty then [] else .heading title :: lines

/-- What the inputs of a program introduce. -/
structure Opening where
  commands : List Command
  scope : Scope
  /-- The universal inputs, in order. -/
  universals : List Variable
  /-- The inputs under universal ones, each with the universal inputs before it. -/
  skolems : List (WordId × List WordId)

def Opening.add (p : Program) (o : Opening) (input : Input) : Opening :=
  let v := input.var
  match p.quantifier input with
  | .all =>
    { o with
      universals := o.universals ++ [v]
      scope := o.scope.declare v.id v.kind false }
  | .exist =>
    if o.universals.isEmpty then
      { o with
        commands := o.commands ++ [v.command]
        scope := o.scope.declare v.id v.kind true }
    else
      { o with
        commands := o.commands ++ [v.skolemCommand o.universals]
        skolems := o.skolems ++ [(v.id, o.universals.map (·.id))]
        scope := o.scope.declare v.id v.kind false }

def opening (p : Program) : Opening :=
  p.inputs.foldl (Opening.add p) ⟨[], [], [], []⟩

/-- The definitions outside, the words bound inside, and the scope after them. -/
structure Definitions where
  commands : List Command
  bindings : List (WordId × Term)
  scope : Scope

/-- A word all of whose arguments stand outside is defined outside. -/
def Definitions.add (d : Definitions) (a : Assignment) : Except EmitError Definitions := do
  let body ← a.term d.scope
  let closed := a.args.all d.scope.isTop
  let scope := d.scope.declare a.id a.kind closed
  if closed then return { d with commands := d.commands ++ [a.command body], scope }
  else return { d with bindings := d.bindings ++ [(a.id, body)], scope }

def definitions (scope : Scope) (assignments : List Assignment) : Except EmitError Definitions :=
  assignments.foldlM Definitions.add ⟨[], [], scope⟩

/-- The output as it is asserted: a proof looks for a counterexample. -/
def goalTerm (p : Program) : Term :=
  match p.polarity with
  | .satisfy => .word p.output
  | .prove => .call "not" [.word p.output]

/-- The value of an input under universal ones is its function at these. -/
def skolemBinding (s : WordId × List WordId) : WordId × Term :=
  (s.1, .apply (.declared (.word s.1)) (s.2.map Term.word))

/-- Constraints and output, as assertions of their own or as the body of one
quantified assertion. -/
def assertions (p : Program) (o : Opening) (bindings : List (WordId × Term)) : List Command :=
  if o.universals.isEmpty then
    p.constraints.map (fun id => .assert (.word id)) ++ [.assert (goalTerm p)]
  else
    let body :=
      if p.constraints.isEmpty then goalTerm p
      else .call "and" (p.constraints.map Term.word ++ [goalTerm p])
    [.assertForall (o.universals.map fun u => (u.id, u.kind))
      (o.skolems.map skolemBinding ++ bindings) body]

def assumptionLines (a : Assumption) : Script :=
  .assumption a.name :: a.lines.map .verbatim

/-- The script of a program that its solver supports. -/
def body (c : Config) (p : Program) (f : Features) : Except EmitError Script := do
  let o := opening p
  let scope := p.constants.foldl (fun s k => s.declare k.1 k.2.kind true) o.scope
  let arrays ← p.arrays.mapM (ArrayDecl.command · scope)
  let d ← definitions scope p.assignments
  let entries ← p.tables.mapM (Table.entryCommands · d.scope)
  (p.constraints ++ [p.output]).forM fun id => do discard (d.scope.kind id)
  p.objectives.forM fun o => d.scope.requireTop o.id
  return header c p f ++
    underHeading "uninterpreted sorts" (ofCommands (p.sorts.map SortDecl.command)) ++
    [.heading "top level inputs"] ++ ofCommands o.commands ++
    underHeading "constants" (ofCommands (p.constants.map fun k => constantCommand k.1 k.2)) ++
    underHeading "tables and arrays" (ofCommands (p.tables.map Table.command ++ arrays)) ++
    underHeading "uninterpreted functions" (ofCommands (p.functions.map FunctionDecl.command)) ++
    underHeading "user given axioms" (p.assumptions.flatMap assumptionLines) ++
    (if p.assignments.isEmpty then [] else [.heading "formula"]) ++ ofCommands d.commands ++
    ofCommands entries.flatten ++
    ofCommands (assertions p o d.bindings) ++
    (if p.style = .independent then []
      else underHeading "optimization" (ofCommands (p.objectives.map Objective.command)))

/-- The script of a program, without the commands that run it. -/
def ofProgram (c : Config) (p : Program) : Except QueryError Script := do
  let f := Features.ofProgram p
  (f.check c.capabilities).mapError .refused
  (body c p f).mapError .emission

end Script

end SmtDialogue
