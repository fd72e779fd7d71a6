import SmtDialogue.Proofs.Exchange
import SmtDialogue.Proofs.Failures
import SmtDialogue.Proofs.Scoping
import SmtDialogue.Proofs.Separators
import SmtDialogue.Proofs.Uses

/-!
# Unambiguous answers

The table of a program takes the first variable of every word, so it has one for each
input and for each objective over a word of the program, even when numbers are used
twice. No symbol of an answer is ambiguous in it, and the words that a query asks the
solver about all have a variable.
-/

namespace SmtDialogue

namespace Program

variable {known : List Variable}

theorem mem_addVariable {v : Variable} {id : WordId} :
    id ∈ (addVariable known v).map Variable.id ↔ id ∈ known.map Variable.id ∨ id = v.id := by
  rw [addVariable]
  split
  · next old =>
    constructor
    · exact .inl
    · rintro (member | rfl)
      · exact member
      · simpa using old
  · simp

theorem distinct_addVariable (distinct : (known.map Variable.id).Nodup) (v : Variable) :
    ((addVariable known v).map Variable.id).Nodup := by
  rw [addVariable]
  split
  · exact distinct
  · next new =>
    have fresh : v.id ∉ known.map Variable.id := by simpa using new
    rw [List.map_append, List.nodup_append]
    refine ⟨distinct, by simp, ?_⟩
    rintro id old _ here rfl
    rw [List.map_singleton, List.mem_singleton] at here
    exact fresh (here ▸ old)

/-- Adding variables keeps one for each word, and each of them then has its word. -/
theorem foldl_addVariable (distinct : (known.map Variable.id).Nodup) (vs : List Variable) :
    ((vs.foldl addVariable known).map Variable.id).Nodup ∧
      ∀ id, id ∈ (vs.foldl addVariable known).map Variable.id ↔
        id ∈ known.map Variable.id ∨ id ∈ vs.map Variable.id := by
  induction vs generalizing known with
  | nil => exact ⟨distinct, by simp⟩
  | cons v rest ih =>
    obtain ⟨nodup, mem⟩ := ih (distinct_addVariable distinct v)
    refine ⟨nodup, fun id => ?_⟩
    rw [List.foldl_cons, mem, mem_addVariable, List.map_cons, List.mem_cons, or_assoc]

/-- The words with a kind are those of the program, also when some are repeated. -/
theorem isSome_wordKind? {p : Program} {id : WordId} :
    (p.wordKind? id).isSome = true ↔ id ∈ p.words.map Prod.fst := by
  rw [wordKind?, wordKinds, Keyed.get?_ofList, Option.isSome_map, Option.isSome_iff_ne_none, ne_eq,
    List.getLast?_eq_none_iff]
  simp

/-- The variables are of the inputs, and of the objectives over words of the program. -/
theorem mem_mentioned {p : Program} {id : WordId} :
    id ∈ p.mentioned.map Variable.id ↔
      id ∈ p.inputs.map (fun i => i.var.id) ∨
        id ∈ p.objectives.map Objective.id ∧ id ∈ p.words.map Prod.fst := by
  have objectives : id ∈ (p.objectives.filterMap p.objectiveVariable?).map Variable.id ↔
      id ∈ p.objectives.map Objective.id ∧ id ∈ p.words.map Prod.fst := by
    rw [← isSome_wordKind?]
    constructor
    · intro member
      obtain ⟨v, listed, rfl⟩ := List.mem_map.mp member
      obtain ⟨o, ho, made⟩ := List.mem_filterMap.mp listed
      obtain ⟨kind, found, rfl⟩ := Option.map_eq_some_iff.mp made
      exact ⟨List.mem_map_of_mem ho, by rw [found]; rfl⟩
    · rintro ⟨member, known⟩
      obtain ⟨o, ho, rfl⟩ := List.mem_map.mp member
      obtain ⟨kind, found⟩ := Option.isSome_iff_exists.mp known
      refine List.mem_map.mpr ⟨⟨o.id, o.name, kind⟩, List.mem_filterMap.mpr ⟨o, ho, ?_⟩, rfl⟩
      rw [objectiveVariable?, found]
      rfl
  rw [mentioned, List.map_append, List.mem_append, objectives, List.map_map]
  rfl

theorem distinct_symbolTable (p : Program) : p.symbolTable.Distinct :=
  (@foldl_addVariable [] (by simp) p.mentioned).1

/-- The words of the table are those of the variables an answer can mention. -/
theorem mem_symbolTable {p : Program} {id : WordId} :
    id ∈ p.symbolTable.entries.map Variable.id ↔ id ∈ p.mentioned.map Variable.id := by
  have added := (@foldl_addVariable [] (by simp) p.mentioned).2 id
  rw [List.map_nil] at added
  exact added.trans (or_iff_right List.not_mem_nil)

/-- A word of the table stands for its variable. -/
theorem resolve_of_mem {p : Program} {id : WordId}
    (member : id ∈ p.symbolTable.entries.map Variable.id) :
    ∃ v, v.id = id ∧ p.symbolTable.resolve id.text = .ok (some v) := by
  obtain ⟨w, listed, same⟩ := List.mem_map.mp (mem_symbolTable.mp member)
  have found : (p.mentioned.find? fun v => v.id = id).isSome = true :=
    List.find?_isSome.mpr ⟨w, listed, by simpa using same⟩
  obtain ⟨v, here⟩ := Option.isSome_iff_exists.mp found
  refine ⟨v, by simpa using List.find?_some here, ?_⟩
  rw [resolve_text, here]

end Program

namespace Outcome

variable (normalizer : Normalizer) (table : SymbolTable) (sentinel : String) (lines : List String)

/-- An answer is one outcome for all models, or its chunks are counted and each is one. -/
theorem split_cases (expected : Nat) :
    split normalizer table expected sentinel lines =
        (classify normalizer table lines).map (List.replicate expected) ∨
      (∃ actual, split normalizer table expected sentinel lines =
        .error (.modelCount expected actual (String.intercalate "\n" lines))) ∨
      ∃ status, (chunks sentinel lines).length = expected ∧
        split normalizer table expected sentinel lines =
          (chunks sentinel lines).mapM fun chunk =>
            classify normalizer table (withStatus status chunk) := by
  simp only [split]
  split
  -- an answer that starts with `sat` and one that starts with `unknown` are cut alike
  iterate 2
    split
    · exact .inr (.inl ⟨_, rfl⟩)
    · next counted =>
      split
      · exact .inr (.inl ⟨_, rfl⟩)
      · next status _ => exact .inr (.inr ⟨status, not_not.mp counted, rfl⟩)
  exact .inl rfl

/-- As many outcomes come back as are expected. -/
theorem length_split {expected : Nat} {outcomes : List Outcome}
    (read : split normalizer table expected sentinel lines = .ok outcomes) :
    outcomes.length = expected := by
  rcases split_cases normalizer table sentinel lines expected with
    cut | ⟨_, cut⟩ | ⟨_, counted, cut⟩
  · rw [cut] at read
    obtain ⟨o, _, rfl⟩ := Except.map_eq_ok.mp read
    exact List.length_replicate
  · rw [cut] at read
    cases read
  · rw [cut] at read
    rw [← counted, (Except.mapM_eq_ok.mp read).length_eq]

/-- Lines without a sentinel are the answer of one model. -/
theorem split_one {lines : List String} (apart : sentinel ∉ lines) :
    split normalizer table 1 sentinel lines = (classify normalizer table lines).map ([·]) := by
  cases lines with
  | nil => rfl
  | cons line rest =>
    by_cases status : Text.trim line = "sat" ∨ Text.trim line = "unknown"
    · have alone : ∀ part ∈ [line :: rest], sentinel ∉ part :=
        List.forall_mem_singleton.mpr apart
      have one := split_intercalate status alone normalizer table 1
      have kept : inherit line (line :: rest) = line :: rest := by
        rcases status with sat | unknown
        · simp [inherit, sat]
        · simp [inherit, unknown]
      rw [List.intercalate_singleton, if_pos List.length_singleton.symm, List.mapM_cons,
        List.mapM_nil, kept] at one
      rw [one]
      cases classify normalizer table (line :: rest) <;> rfl
    · rw [not_or] at status
      have begins : status? (line :: rest) = some (Text.trim line) := rfl
      simp only [split, begins]
      split
      · next sat => exact absurd (Option.some.inj sat) status.1
      · next unknown => exact absurd (Option.some.inj unknown) status.2
      · rfl

end Outcome

section

variable {table : SymbolTable} (distinct : table.Distinct)

include distinct

/-- With one variable for each word no symbol of an answer is ambiguous. -/
theorem Outcome.classify_ne_ambiguous (normalizer : Normalizer) (lines : List String)
    (a : Ambiguity) : classify normalizer table lines ≠ .error (.ambiguous a) :=
  fun failed => (classify_eq_error failed).ne_ambiguous distinct a rfl

theorem Outcome.split_ne_ambiguous (normalizer : Normalizer) (expected : Nat) (sentinel : String)
    (lines : List String) (a : Ambiguity) :
    split normalizer table expected sentinel lines ≠ .error (.ambiguous a) := by
  have chunk := fun lines => classify_ne_ambiguous distinct normalizer lines a
  rcases split_cases normalizer table sentinel lines expected with cut | ⟨_, cut⟩ | ⟨_, _, cut⟩
  · rw [cut]
    exact fun failed => chunk lines (Except.map_eq_error.mp failed)
  · rw [cut]
    simp
  · rw [cut]
    intro failed
    obtain ⟨_, part, _, _, _, failed⟩ := Except.mapM_eq_error.mp failed
    exact chunk _ failed

end

/-- The words that a command asks the solver to report on. -/
def Command.asked : Command → List WordId
  | .minimize id | .maximize id | .assertSoft id _ _ => [id]
  | .getValue ids => ids
  | _ => []

namespace Script

variable {p : Program}

theorem within_opening (p : Program) :
    (opening p).scope.Within (p.inputs.map fun i => i.var.id) := by
  have step : ∀ (inputs : List Input) (o : Opening) (known : List WordId),
      o.scope.Within known → (inputs.foldl (Opening.add p) o).scope.Within
        (known ++ inputs.map fun i => i.var.id) := by
    intro inputs
    induction inputs with
    | nil => exact fun o known within => by simpa using within
    | cons i rest ih =>
      intro o known within
      have added : (Opening.add p o i).scope.Within (known ++ [i.var.id]) := by
        rw [Opening.add]
        split
        · exact within.declare i.var.id i.var.kind false
        · split <;> exact within.declare i.var.id i.var.kind _
      simpa using ih _ _ added
  exact step p.inputs _ [] (by simp [Scope.Within])

theorem within_foldlM_add {assignments : List Assignment} {d last : Definitions}
    {known : List WordId} (defined : assignments.foldlM Definitions.add d = .ok last)
    (within : d.scope.Within known) :
    last.scope.Within (known ++ assignments.map Assignment.id) := by
  induction assignments generalizing d known with
  | nil =>
    cases defined
    simpa using within
  | cons a rest ih =>
    rw [List.foldlM_cons] at defined
    obtain ⟨next, added, defined⟩ := Except.bind_eq_ok.mp defined
    obtain ⟨_, _, ⟨_, rfl⟩ | ⟨_, rfl⟩⟩ := d.add_cases added
    · simpa using ih defined (within.declare a.id a.kind true)
    · simpa using ih defined (within.declare a.id a.kind false)

/-- The scope of a program holds words of the program only, also when some are repeated. -/
theorem Parts.Written.within {parts : Parts p} (shape : parts.Written) :
    parts.definitions.scope.Within (p.words.map Prod.fst) := by
  have outer := (within_opening p).foldl_declare p.constants Prod.fst fun k => k.2.kind
  have whole := within_foldlM_add shape.definitions outer
  simpa [Program.words, Function.comp_def] using whole

/-- The words that a query asks about are inputs, or objectives over words of the program. -/
theorem asked_query {c : Config} {s : Script} (written : query c p = .ok s) :
    ∀ command ∈ s.commands, ∀ id ∈ command.asked, id ∈ p.mentioned.map Variable.id := by
  obtain ⟨_, script, built, rfl⟩ := query_eq_ok written
  obtain ⟨parts, shape, _, _⟩ := body_eq_ok built
  obtain ⟨front, commands, tells⟩ := tells_of_body built
  have objective : ∀ o ∈ p.objectives, ∀ id ∈ o.command.asked,
      id ∈ p.mentioned.map Variable.id := by
    intro o listed id asked
    have same : o.command.asked = [o.id] := by
      rw [Objective.command]
      split <;> rfl
    rw [same] at asked
    obtain rfl := List.mem_singleton.mp asked
    have known := shape.within.of_requireTop (shape.objectives o listed)
    exact Program.mem_mentioned.mpr (.inr ⟨List.mem_map_of_mem listed, known⟩)
  intro command member id asked
  rw [commands_append, commands_ofCommands, commands, List.append_assoc] at member
  rcases List.mem_append.mp member with told | member
  · have silent := tells command told
    cases command <;> first | exact silent.elim | cases asked
  · rcases List.mem_append.mp member with shared | run
    · rw [sharedObjectives] at shared
      split at shared
      · cases shared
      · obtain ⟨o, listed, rfl⟩ := List.mem_map.mp shared
        exact objective o listed id asked
    · cases runs_of_mem run with
      | objective listed => exact objective _ listed id asked
      | getValue =>
        have input := ((List.takeWhile_sublist _).map fun i : Input => i.var.id).subset asked
        exact Program.mem_mentioned.mpr (.inl input)
      | echo | push | pop | checkSat | getObjectives => cases asked

end Script

namespace Dialogue

/-- The table of a program has one variable for each word an answer can mention: the inputs
and the objectives over words of the program, whatever is repeated. So a prepared query is
read without ambiguity, each word that it asks about has a variable, and as many outcomes
come back as it has models; a single model is read as if the answer had been cut. -/
theorem prepared_unambiguous (p : Program) :
    p.symbolTable.Distinct ∧
    (∀ id, id ∈ p.symbolTable.entries.map Variable.id ↔
      id ∈ p.inputs.map (fun i => i.var.id) ∨
        id ∈ p.objectives.map Objective.id ∧ id ∈ p.words.map Prod.fst) ∧
    ∀ (d : Dialogue) (q : PreparedQuery), d.prepare p = .ok q →
      (∀ lines a, d.interpret q lines ≠ .error (.ambiguous a) ∧
        d.interpretOne q lines ≠ .error (.ambiguous a)) ∧
      (∀ command ∈ q.script.commands, ∀ id ∈ command.asked,
        ∃ v, v.id = id ∧ q.table.resolve id.text = .ok (some v)) ∧
      (∀ lines outcomes, d.interpret q lines = .ok outcomes →
        outcomes.length = q.expectedModels ∧ 1 ≤ outcomes.length) ∧
      (q.expectedModels = 1 → ∀ lines, d.config.sentinel ∉ lines →
        d.interpret q lines =
          Outcome.split d.normalizer q.table q.expectedModels d.config.sentinel lines) := by
  have distinct := p.distinct_symbolTable
  refine ⟨distinct, fun id => Program.mem_symbolTable.trans Program.mem_mentioned, ?_⟩
  intro d q prepared
  obtain ⟨script, written, same⟩ := Except.bind_eq_ok.mp prepared
  cases same
  have one := fun lines a => Outcome.classify_ne_ambiguous distinct d.normalizer lines a
  refine ⟨fun lines a => ⟨?_, one lines a⟩, fun command member id asked => ?_,
    fun lines outcomes read => ?_, fun single lines apart => ?_⟩
  · rw [interpret]
    split
    · exact fun failed => one lines a (Except.map_eq_error.mp failed)
    · exact Outcome.split_ne_ambiguous distinct d.normalizer _ _ lines a
  · have known := Script.asked_query written command member id asked
    exact Program.resolve_of_mem (Program.mem_symbolTable.mpr known)
  · have length : outcomes.length = p.expectedModels := by
      rw [interpret] at read
      split at read
      · next single =>
        obtain ⟨o, _, rfl⟩ := Except.map_eq_ok.mp read
        exact single.symm
      · exact Outcome.length_split _ _ _ _ read
    have positive := p.expectedModels_pos
    exact ⟨length, by omega⟩
  · rw [interpret, if_pos single]
    dsimp only at single ⊢
    rw [single, Outcome.split_one _ _ _ apart]
    rfl

end Dialogue

/-- A program with a number that two inputs share, and with a word and its name given to
several objectives. -/
def Program.repeated : Program where
  polarity := .satisfy
  sorts := []
  inputs := [⟨.exist, ⟨⟨0⟩, "x", .integer⟩⟩, ⟨.exist, ⟨⟨0⟩, "y", .integer⟩⟩]
  constants := []
  tables := []
  arrays := []
  functions := []
  assumptions := []
  assignments := [⟨⟨1⟩, .integer, .plus, [⟨0⟩, ⟨0⟩]⟩, ⟨⟨2⟩, .bool, .lessEq, [⟨0⟩, ⟨1⟩]⟩]
  constraints := []
  output := ⟨2⟩
  objectives := [⟨"cost", ⟨1⟩, .minimize⟩, ⟨"cost", ⟨0⟩, .minimize⟩, ⟨"cost", ⟨1⟩, .minimize⟩]
  style := .lexicographic

/-- Its table has two variables, each word it asks about has one of them, and any answer
without a sentinel is read as if it had been cut. -/
theorem Dialogue.prepared_unambiguous_repeated :
    ∃ q, standard.prepare .repeated = .ok q ∧ q.expectedModels = 1 ∧
      q.table.entries = [⟨⟨0⟩, "x", .integer⟩, ⟨⟨1⟩, "cost", .integer⟩] ∧
      (∃ command ∈ q.script.commands, command.asked = [⟨0⟩, ⟨0⟩] ∧
        ∀ id ∈ command.asked, ∃ v, v.id = id ∧ q.table.resolve id.text = .ok (some v)) ∧
      (∀ lines a, standard.interpret q lines ≠ .error (.ambiguous a)) ∧
      standard.interpret q ["sat", "((s0 3))"] = Outcome.split standard.normalizer q.table
        q.expectedModels standard.config.sentinel ["sat", "((s0 3))"] := by
  have passed : (Features.ofProgram .repeated).check Config.standard.capabilities = .ok () := by
    rw [Features.check, Script.universalObjectives_eq_nil rfl]
    rfl
  obtain ⟨script, built⟩ : ∃ script,
      Script.body Config.standard .repeated (Features.ofProgram .repeated) = .ok script := ⟨_, rfl⟩
  have written := Script.query_of_body passed built
  have prepared : standard.prepare .repeated = .ok
      ⟨script ++ Script.ofCommands (Script.runs Config.standard .repeated),
        Program.repeated.symbolTable, 1⟩ :=
    Except.bind_eq_ok.mpr ⟨_, written, rfl⟩
  obtain ⟨_, _, every⟩ := prepared_unambiguous .repeated
  obtain ⟨unambiguous, asked, _, single⟩ := every standard _ prepared
  have question : Command.getValue [⟨0⟩, ⟨0⟩] ∈
      (script ++ Script.ofCommands (Script.runs Config.standard .repeated)).commands := by
    rw [Script.commands_append, Script.commands_ofCommands]
    exact List.mem_append_right _ (by simp [Script.runs, Script.blocks, Script.readback,
      Script.separated, Program.repeated, Program.modelInputs, Program.quantifier])
  have entries : Program.repeated.symbolTable.entries =
      [⟨⟨0⟩, "x", .integer⟩, ⟨⟨1⟩, "cost", .integer⟩] := by decide +kernel
  refine ⟨_, prepared, rfl, entries, ⟨_, question, rfl, asked _ question⟩,
    fun lines a => (unambiguous lines a).1, single rfl _ (by decide)⟩

end SmtDialogue
