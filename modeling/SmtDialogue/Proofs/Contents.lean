import SmtDialogue.Proofs.Commands
import SmtDialogue.Proofs.Opening

/-!
# The contents of a query

Every command of a query is of one of the forms below, each with the part of the program
that it was written for. What holds of all forms holds of every command of every query.
-/

namespace SmtDialogue.Script

/-- What the quantified assertion says of its words. -/
def conjunction (p : Program) : Term :=
  if p.constraints.isEmpty then goalTerm p
  else .call "and" (p.constraints.map Term.word ++ [goalTerm p])

/-- A word bound inside the quantified assertion: the value of an input under universal
ones, or an assignment. -/
inductive Binds (p : Program) : WordId × Term → Prop where
  | skolem {s : WordId × List WordId} (listed : s ∈ skolemsOf p.quantifier [] p.inputs) :
      Binds p (skolemBinding s)
  | assignment {a : Assignment} {scope : Scope} {body : Term} (listed : a ∈ p.assignments)
      (written : a.term scope = .ok body) : Binds p (a.id, body)

/-- The commands of the queries for a program. -/
inductive Writes (c : Config) (p : Program) : Command → Prop where
  | models : Writes c p (.setOption "produce-models" "true")
  | timeout (ms : Nat) : Writes c p (.setOption "timeout" (toString ms))
  | option {o : String × String} (listed : o ∈ c.options) : Writes c p (.setOption o.1 o.2)
  | priority : Writes c p (.setOption "opt.priority" (Script.priority p.style))
  | logic : Writes c p (.setLogic (c.logic.getD (inferLogic p (Features.ofProgram p))))
  | sort {s : SortDecl} (listed : s ∈ p.sorts) : Writes c p s.command
  | input {i : Input} (listed : i ∈ p.inputs) : Writes c p i.var.command
  | skolem {i : Input} (listed : i ∈ p.inputs) {universals : List Variable}
      (known : ∀ x ∈ universals, x ∈ universalsOf p.quantifier p.inputs) :
      Writes c p (i.var.skolemCommand universals)
  | constant {k : WordId × Value} (listed : k ∈ p.constants) : Writes c p (constantCommand k.1 k.2)
  | table {t : Table} (listed : t ∈ p.tables) : Writes c p t.command
  | array {a : ArrayDecl} (listed : a ∈ p.arrays) {scope : Scope} {command : Command}
      (written : a.command scope = .ok command) : Writes c p command
  | function {d : FunctionDecl} (listed : d ∈ p.functions) : Writes c p d.command
  | definition {a : Assignment} (listed : a ∈ p.assignments) {scope : Scope} {body : Term}
      (written : a.term scope = .ok body) : Writes c p (a.command body)
  | entry {t : Table} (listed : t ∈ p.tables) {scope : Scope} {place : Nat} {element : WordId}
      {command : Command} (written : t.entryCommand scope place element = .ok command) :
      Writes c p command
  | constraint {id : WordId} (listed : id ∈ p.constraints) : Writes c p (.assert (.word id))
  | goal : Writes c p (.assert (goalTerm p))
  | quantified (some : universalsOf p.quantifier p.inputs ≠ []) {bindings : List (WordId × Term)}
      (bound : ∀ b ∈ bindings, Binds p b) :
      Writes c p (.assertForall
        ((universalsOf p.quantifier p.inputs).map fun u => (u.id, u.kind)) bindings (conjunction p))
  | runs {command : Command} (form : Runs c p command) : Writes c p command

variable {c : Config} {p : Program}

theorem writes_header : ∀ command ∈ (header c p (Features.ofProgram p)).commands,
    Writes c p command := by
  intro command member
  simp only [header, commands_append, commands_ofCommands, List.mem_append, List.mem_map] at member
  rcases member with banner | ((((models | timeout) | ⟨o, ho, rfl⟩) | order) | logic)
  · simp [commands] at banner
  · split at models
    · rw [List.mem_singleton.mp models]
      exact .models
    · cases models
  · split at timeout
    · rw [List.mem_singleton.mp timeout]
      exact .timeout _
    · cases timeout
  · exact .option ho
  · split at order
    · cases order
    · rw [List.mem_singleton.mp order]
      exact .priority
  · rw [List.mem_singleton.mp logic]
    exact .logic

/-- The definitions outside and the bindings inside are written for assignments. -/
theorem writes_definitions {assignments : List Assignment} {d last : Definitions}
    (written : assignments.foldlM Definitions.add d = .ok last)
    (listed : ∀ a ∈ assignments, a ∈ p.assignments)
    (before : (∀ command ∈ d.commands, Writes c p command) ∧ ∀ b ∈ d.bindings, Binds p b) :
    (∀ command ∈ last.commands, Writes c p command) ∧ ∀ b ∈ last.bindings, Binds p b := by
  refine Except.foldlM_induction written before fun a member d next first before => ?_
  obtain ⟨body, term, added⟩ := d.add_cases first
  rcases added with ⟨_, rfl⟩ | ⟨_, rfl⟩
  · refine ⟨List.forall_mem_append.mpr ⟨before.1, ?_⟩, before.2⟩
    simpa using Writes.definition (listed a member) term
  · refine ⟨before.1, List.forall_mem_append.mpr ⟨before.2, ?_⟩⟩
    simpa using Binds.assignment (listed a member) term

theorem writes_assertions {bindings : List (WordId × Term)} (bound : ∀ b ∈ bindings, Binds p b) :
    ∀ command ∈ assertions p (opening p) bindings, Writes c p command := by
  obtain ⟨_, universals, skolems⟩ := opening_eq p
  intro command member
  rw [assertions] at member
  split at member
  · rcases List.mem_append.mp member with constraint | output
    · obtain ⟨id, listed, rfl⟩ := List.mem_map.mp constraint
      exact .constraint listed
    · rw [List.mem_singleton.mp output]
      exact .goal
  · next some =>
    rw [List.mem_singleton.mp member, universals, skolems]
    rw [universals] at some
    refine .quantified (by simpa using some) (List.forall_mem_append.mpr ⟨?_, bound⟩)
    intro b hb
    obtain ⟨s, hs, rfl⟩ := List.mem_map.mp hb
    exact .skolem hs

/-- Every command of a query is of one of these forms. -/
theorem writes_of_mem {s : Script} (written : query c p = .ok s) :
    ∀ command ∈ s.commands, Writes c p command := by
  obtain ⟨_, script, built, rfl⟩ := query_eq_ok written
  obtain ⟨parts, shape, _, commands⟩ := body_eq_ok built
  obtain ⟨definitions, bindings⟩ := writes_definitions (c := c) (p := p) shape.definitions
    (fun _ listed => listed) ⟨by simp, by simp⟩
  intro command member
  simp only [commands_append, commands_ofCommands, commands, List.mem_append, List.mem_map]
    at member
  rcases member with (header | ⟨s, hs, rfl⟩ | opened | ⟨k, hk, rfl⟩ | ⟨t, ht, rfl⟩ | array |
    ⟨d, hd, rfl⟩ | definition | entry | assertion | shared) | run
  · exact writes_header command header
  · exact .sort hs
  · rw [(opening_eq p).1] at opened
    obtain ⟨i, hi, rfl | ⟨universals, known, rfl⟩⟩ := mem_declarations p.quantifier opened
    · exact .input hi
    · exact .skolem hi fun x hx => (known x hx).resolve_left List.not_mem_nil
  · exact .constant hk
  · exact .table ht
  · obtain ⟨a, ha, one⟩ := shape.arrays.exists_of_mem_right array
    exact .array ha one
  · exact .function hd
  · exact definitions command definition
  · obtain ⟨t, ht, _, _, one⟩ := Table.exists_of_mem_entries shape.entries entry
    exact .entry ht one
  · exact writes_assertions bindings command assertion
  · rw [sharedObjectives] at shared
    split at shared
    · cases shared
    · obtain ⟨o, ho, rfl⟩ := List.mem_map.mp shared
      exact .runs (.objective ho)
  · exact .runs (runs_of_mem run)

end SmtDialogue.Script
