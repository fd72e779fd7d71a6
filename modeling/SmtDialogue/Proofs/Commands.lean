import SmtDialogue.Proofs.Results
import SmtDialogue.Script.Query

/-!
# The commands of a script

Headings, comments and lines of the user are no commands. What is left of the script of
a program is settled here, part by part.
-/

namespace SmtDialogue

/-- A check that words are in scope passes when all of them are. -/
theorem Scope.forM_kind_eq_ok {s : Scope} {ids : List WordId} :
    (ids.forM fun id => do discard (s.kind id)) = .ok () ↔
      ∀ id ∈ ids, ∃ kind, s.kind id = .ok kind := by
  rw [Except.forM_eq_ok]
  refine forall₂_congr fun id _ => ?_
  cases s.kind id with
  | error e => simp [discard, Functor.discard, Functor.mapConst, Except.map]
  | ok kind => simp [discard, Functor.discard, Functor.mapConst, Except.map]

/-- An array is declared, or defined by a default that stands outside. -/
theorem ArrayDecl.command_eq_ok {a : ArrayDecl} {scope : Scope} {c : Command}
    (written : a.command scope = .ok c) :
    c = .declare (.array a.id) [] (.array a.index a.elem) (.array a.name) ∨
      ∃ default, scope.requireTop default = .ok () ∧
        c = .define (.array a.id) (.array a.index a.elem)
          (.apply (.everywhere (.array a.index a.elem)) [.word default]) (.array a.name) := by
  rw [ArrayDecl.command] at written
  split at written
  · cases written
    exact .inl rfl
  · next default _ =>
    obtain ⟨_, passed, written⟩ := Except.bind_eq_ok.mp written
    cases written
    exact .inr ⟨default, passed, rfl⟩

/-- An entry equates the place of a table with a word that stands outside. -/
theorem Table.entryCommand_eq_ok {t : Table} {scope : Scope} {place : Nat} {element : WordId}
    {c : Command} (written : t.entryCommand scope place element = .ok c) :
    scope.requireTop element = .ok () ∧
      ∃ index, Value.ofPayload t.index (.integer place) = .ok index ∧
        c = .assert (.call "="
          [.call "select" [.name (.table t.id), .literal index], .word element]) := by
  obtain ⟨_, passed, written⟩ := Except.bind_eq_ok.mp written
  split at written
  · cases written
  · cases written
  · next index made =>
    cases written
    exact ⟨passed, index, made, rfl⟩

/-- Each of the entries is written for a place of one of the tables. -/
theorem Table.exists_of_mem_entries {tables : List Table} {scope : Scope}
    {entries : List (List Command)}
    (written : List.Forall₂ (fun t cs => Table.entryCommands t scope = .ok cs) tables entries)
    {c : Command} (member : c ∈ entries.flatten) :
    ∃ t ∈ tables, ∃ place element, t.entryCommand scope place element = .ok c := by
  obtain ⟨cs, listed, inside⟩ := List.mem_flatten.mp member
  obtain ⟨t, ht, each⟩ := written.exists_of_mem_right listed
  obtain ⟨⟨element, place⟩, _, one⟩ := (Except.mapM_eq_ok.mp each).exists_of_mem_right inside
  exact ⟨t, ht, place, element, one⟩

namespace Script

@[simp] theorem commands_append (s t : Script) : commands (s ++ t) = s.commands ++ t.commands := by
  simp [commands]

@[simp] theorem commands_ofCommands (cs : List Command) : commands (ofCommands cs) = cs := by
  simp [commands, ofCommands, List.filterMap_map]

@[simp] theorem commands_underHeading (title : String) (lines : Script) :
    commands (underHeading title lines) = lines.commands := by
  rw [underHeading]
  split
  · next empty => simp [List.isEmpty_iff.mp empty]
  · rfl

@[simp] theorem commands_nil : commands [] = [] := rfl

@[simp] theorem commands_heading_cons (title : String) (rest : Script) :
    commands (.heading title :: rest) = rest.commands := rfl

@[simp] theorem commands_assumptions (as : List Assumption) :
    commands (as.flatMap assumptionLines) = [] := by
  induction as with
  | nil => rfl
  | cons a as ih =>
    have lines : commands (assumptionLines a) = [] := by
      simp [commands, assumptionLines, List.filterMap_map]
    rw [List.flatMap_cons, commands_append, lines, ih, List.append_nil]

/-- Commands that set an option or the logic. -/
def Silent : Command → Prop
  | .setOption _ _ | .setLogic _ => True
  | _ => False

theorem silent_header (c : Config) (p : Program) (f : Features) :
    ∀ command ∈ (header c p f).commands, Silent command := by
  intro command member
  simp only [header, commands_append, commands_ofCommands, List.mem_append, List.mem_map] at member
  rcases member with banner | ((((models | timeout) | ⟨o, _, rfl⟩) | priority) | logic)
  · simp [commands] at banner
  · split at models <;> simp_all [Silent]
  · split at timeout <;> simp_all [Silent]
  · trivial
  · split at priority <;> simp_all [Silent]
  · simp_all [Silent]

/-- The parts of the script of a program that depend on what is in scope. -/
structure Parts (p : Program) where
  arrays : List Command
  definitions : Definitions
  entries : List (List Command)

/-- The commands that add the objectives, where they share one block. -/
def sharedObjectives (p : Program) : List Command :=
  if p.style = .independent then [] else p.objectives.map Objective.command

/-- What a program whose script could be written consists of. -/
structure Parts.Written (p : Program) (parts : Parts p) : Prop where
  arrays : List.Forall₂
    (fun a command => ArrayDecl.command a
      (p.constants.foldl (fun s k => s.declare k.1 k.2.kind true) (opening p).scope) = .ok command)
    p.arrays parts.arrays
  definitions : Script.definitions
    (p.constants.foldl (fun s k => s.declare k.1 k.2.kind true) (opening p).scope)
    p.assignments = .ok parts.definitions
  entries : List.Forall₂
    (fun t commands => Table.entryCommands t parts.definitions.scope = .ok commands)
    p.tables parts.entries
  known : ∀ id ∈ p.constraints ++ [p.output], ∃ kind, parts.definitions.scope.kind id = .ok kind
  objectives : ∀ o ∈ p.objectives, parts.definitions.scope.requireTop o.id = .ok ()

/-- The script above the lines of the user. -/
def Parts.front {p : Program} (parts : Parts p) (c : Config) (f : Features) : Script :=
  header c p f ++
    underHeading "uninterpreted sorts" (ofCommands (p.sorts.map SortDecl.command)) ++
    [.heading "top level inputs"] ++ ofCommands (opening p).commands ++
    underHeading "constants" (ofCommands (p.constants.map fun k => constantCommand k.1 k.2)) ++
    underHeading "tables and arrays" (ofCommands (p.tables.map Table.command ++ parts.arrays)) ++
    underHeading "uninterpreted functions" (ofCommands (p.functions.map FunctionDecl.command))

/-- The script below the lines of the user. -/
def Parts.back {p : Program} (parts : Parts p) : Script :=
  (if p.assignments.isEmpty then [] else [.heading "formula"]) ++
    ofCommands parts.definitions.commands ++ ofCommands parts.entries.flatten ++
    ofCommands (assertions p (opening p) parts.definitions.bindings) ++
    (if p.style = .independent then []
      else underHeading "optimization" (ofCommands (p.objectives.map Objective.command)))

theorem body_eq_ok {c : Config} {p : Program} {f : Features} {s : Script}
    (written : body c p f = .ok s) :
    ∃ parts : Parts p, parts.Written ∧
      s = parts.front c f ++
        underHeading "user given axioms" (p.assumptions.flatMap assumptionLines) ++ parts.back ∧
      s.commands = (header c p f).commands ++ (p.sorts.map SortDecl.command ++
        ((opening p).commands ++ (p.constants.map (fun k => constantCommand k.1 k.2) ++
          (p.tables.map Table.command ++ (parts.arrays ++
            (p.functions.map FunctionDecl.command ++ (parts.definitions.commands ++
              (parts.entries.flatten ++ (assertions p (opening p) parts.definitions.bindings ++
                sharedObjectives p))))))))) := by
  obtain ⟨arrays, declared, written⟩ := Except.bind_eq_ok.mp written
  obtain ⟨d, defined, written⟩ := Except.bind_eq_ok.mp written
  obtain ⟨entries, fixed, written⟩ := Except.bind_eq_ok.mp written
  obtain ⟨_, known, written⟩ := Except.bind_eq_ok.mp written
  obtain ⟨_, outside, written⟩ := Except.bind_eq_ok.mp written
  cases written
  have shape : Parts.Written p ⟨arrays, d, entries⟩ :=
    ⟨Except.mapM_eq_ok.mp declared, defined, Except.mapM_eq_ok.mp fixed,
      Scope.forM_kind_eq_ok.mp known, Except.forM_eq_ok.mp outside⟩
  refine ⟨⟨arrays, d, entries⟩, shape, ?_, ?_⟩
  · simp [Parts.front, Parts.back]
  · simp [apply_ite commands, sharedObjectives]

/-- The commands that run a script and print its models. -/
def runs (c : Config) (p : Program) : List Command :=
  separated c.sentinel (blocks p)

/-- A query is the script of a program that passed the gate, and the commands that run it. -/
theorem query_eq_ok {c : Config} {p : Program} {s : Script} (written : query c p = .ok s) :
    (Features.ofProgram p).check c.capabilities = .ok () ∧
      ∃ script, body c p (Features.ofProgram p) = .ok script ∧
        s = script ++ ofCommands (runs c p) := by
  obtain ⟨script, whole, same⟩ := Except.bind_eq_ok.mp written
  obtain ⟨_, passed, built⟩ := Except.bind_eq_ok.mp whole
  cases same
  exact ⟨Except.mapError_eq_ok.mp passed, script, Except.mapError_eq_ok.mp built, rfl⟩

theorem query_of_body {c : Config} {p : Program} {s : Script}
    (passed : (Features.ofProgram p).check c.capabilities = .ok ())
    (built : body c p (Features.ofProgram p) = .ok s) :
    query c p = .ok (s ++ ofCommands (runs c p)) := by
  have program : ofProgram c p = .ok s :=
    Except.bind_eq_ok.mpr
      ⟨(), Except.mapError_eq_ok.mpr passed, Except.mapError_eq_ok.mpr built⟩
  exact Except.bind_eq_ok.mpr ⟨s, program, rfl⟩

/-- Without universal inputs no objective varies with one. -/
theorem universalObjectives_eq_nil {p : Program} (leading : Features.varyingInputs p = []) :
    (Features.ofProgram p).universalObjectives = [] := by
  simp [Features.ofProgram, Features.varies, leading]

/-- The kinds of commands that run a script. -/
inductive Runs (c : Config) (p : Program) : Command → Prop where
  | echo : Runs c p (.echo c.sentinel)
  | push : Runs c p (.push 1)
  | pop : Runs c p (.pop 1)
  | checkSat : Runs c p .checkSat
  | getObjectives (some : p.objectives ≠ []) : Runs c p .getObjectives
  | getValue : Runs c p (.getValue p.modelInputs)
  | objective {o : Objective} (listed : o ∈ p.objectives) : Runs c p o.command

theorem mem_separated {sentinel : String} {blocks : List (List Command)} {command : Command}
    (member : command ∈ separated sentinel blocks) :
    command = .echo sentinel ∨ ∃ block ∈ blocks, command ∈ block := by
  induction blocks with
  | nil => cases member
  | cons block rest ih =>
    cases rest with
    | nil => exact .inr ⟨block, List.mem_cons_self, member⟩
    | cons next others =>
      rcases List.mem_append.mp member with front | later
      · rcases List.mem_append.mp front with here | echo
        · exact .inr ⟨block, List.mem_cons_self, here⟩
        · exact .inl (List.mem_singleton.mp echo)
      · rcases ih later with echo | ⟨other, listed, inside⟩
        · exact .inl echo
        · exact .inr ⟨other, List.mem_cons_of_mem block listed, inside⟩

theorem runs_of_mem {c : Config} {p : Program} {command : Command}
    (member : command ∈ runs c p) : Runs c p command := by
  have readback : ∀ command ∈ readback p, Runs c p command := by
    intro command member
    rw [readback, List.mem_append, List.mem_append, List.mem_singleton] at member
    rcases member with (rfl | objectives) | values
    · exact .checkSat
    · split at objectives
      · cases objectives
      · next some =>
        rw [List.mem_singleton.mp objectives]
        exact .getObjectives fun none => some (List.isEmpty_iff.mpr none)
    · split at values
      · cases values
      · rw [List.mem_singleton.mp values]
        exact .getValue
  rcases mem_separated member with rfl | ⟨block, listed, inside⟩
  · exact .echo
  · simp only [blocks] at listed
    split at listed
    · split at listed
      · rw [List.mem_singleton.mp listed] at inside
        exact readback command inside
      · obtain ⟨o, ho, rfl⟩ := List.mem_map.mp listed
        simp only [List.mem_append, List.mem_cons, List.not_mem_nil, or_false] at inside
        rcases inside with ((rfl | rfl) | inside) | rfl
        · exact .push
        · exact .objective ho
        · exact readback command inside
        · exact .pop
    · rw [List.eq_of_mem_replicate listed] at inside
      exact readback command inside
    · rw [List.mem_singleton.mp listed] at inside
      exact readback command inside

end Script

end SmtDialogue
