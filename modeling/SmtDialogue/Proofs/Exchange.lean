import SmtDialogue.Dialogue
import SmtDialogue.Proofs.Answers
import SmtDialogue.Proofs.Chunks

/-!
# Whole exchanges

A query is prepared, an idealised solver answers its commands, and the answer is
interpreted: every expected model comes back, with the values of the solution it was
printed from and under the names of the program.
-/

namespace SmtDialogue

theorem mem_intercalate {α : Type} {x : α} {sep l : List α} {ls : List (List α)} (inside : x ∈ l)
    (member : l ∈ ls) : x ∈ List.intercalate sep ls := by
  induction ls with
  | nil => cases member
  | cons m rest ih =>
    by_cases last : rest = []
    · subst last
      rw [List.mem_singleton.mp member] at inside
      simpa using inside
    · rw [List.intercalate_cons_of_ne_nil last]
      rcases List.mem_cons.mp member with rfl | member
      · exact List.mem_append_left _ (List.mem_append_left _ inside)
      · exact List.mem_append_right _ (ih member)

theorem map_intercalate {α β : Type} (f : α → β) (sep : List α) (ls : List (List α)) :
    (List.intercalate sep ls).map f = List.intercalate (sep.map f) (ls.map (List.map f)) := by
  induction ls with
  | nil => rfl
  | cons l rest ih =>
    cases rest with
    | nil => simp
    | cons m others =>
      rw [List.intercalate_cons_cons, List.map_append, List.map_append, ih]
      simp

theorem Outcome.inherit_of_sat (status : String) (rest : List String) :
    inherit status ("sat" :: rest) = "sat" :: rest := by
  have trimmed : Text.trim "sat" = "sat" := by decide
  simp [inherit, trimmed]

/-- An answer whose blocks all report `sat` has the outcomes of its blocks. -/
theorem Outcome.split_blocks {normalizer : Normalizer} {table : SymbolTable} {sentinel : String}
    {blocks : List (List String)} {outcomes : List Outcome} (nonempty : blocks ≠ [])
    (sat : ∀ block ∈ blocks, ∃ rest, block = "sat" :: rest)
    (apart : ∀ block ∈ blocks, sentinel ∉ block)
    (classified : List.Forall₂ (fun block o => classify normalizer table block = .ok o)
      blocks outcomes) :
    split normalizer table blocks.length sentinel (List.intercalate [sentinel] blocks) =
      .ok outcomes := by
  obtain ⟨first, others, rfl⟩ := List.exists_cons_of_ne_nil nonempty
  obtain ⟨rest, rfl⟩ := sat first List.mem_cons_self
  have same : (("sat" :: rest) :: others).map (inherit "sat") = ("sat" :: rest) :: others := by
    refine (List.map_congr_left fun chunk member => ?_).trans (List.map_id _)
    obtain ⟨tail, rfl⟩ := sat chunk member
    exact inherit_of_sat "sat" tail
  have mapped := Except.mapM_eq_ok.mpr classified
  rw [← same, List.mapM_map] at mapped
  rw [split_intercalate (.inl (by decide)) apart, if_pos rfl]
  exact mapped

namespace Program

/-- The inputs whose values a model is read back for. -/
def leadingInputs (p : Program) : List Input :=
  p.inputs.takeWhile fun i => p.quantifier i = .exist

/-- A value of the kind of a word whose literal is read back exactly. -/
structure Takes (p : Program) (id : WordId) (v : Value) : Prop where
  kind : p.wordKind? id = some v.kind
  exact : v.Exact

theorem expectedModels_pos (p : Program) : 0 < p.expectedModels := by
  rw [expectedModels]
  split
  · exact Nat.one_pos
  · next some =>
    cases p.style with
    | lexicographic => exact Nat.one_pos
    | independent => exact List.length_pos_iff.mpr (by simpa using some)
    | pareto fronts => exact Nat.lt_of_lt_of_le Nat.one_pos (Nat.le_max_left 1 fronts)

/-- The inputs of a model with their values in a solution. -/
def inputValues (p : Program) (s : Solutions) (k : Nat) : List (Variable × Value) :=
  p.leadingInputs.map fun i => (i.var, s.value k i.var.id)

/-- The objectives of a model with their values in a solution. -/
def objectiveValues (p : Program) (s : Solutions) (k : Nat) : List (Variable × Value) :=
  (p.reported k).zipIdx.map fun x =>
    (⟨x.1.id, p.reportedName x.1.id, (s.bound k x.2).kind⟩, s.bound k x.2)

variable {p : Program} {s : Solutions} {k : Nat}

theorem reads_inputValues (distinct : (p.words.map Prod.fst).Nodup)
    (values : ∀ id ∈ p.modelInputs, p.Takes id (s.value k id)) :
    ∀ x ∈ p.inputValues s k, p.symbolTable.Reads x := by
  intro x member
  obtain ⟨i, leading, rfl⟩ := List.mem_map.mp member
  have input : i ∈ p.inputs := (List.takeWhile_sublist _).subset leading
  have takes := values i.var.id (List.mem_map_of_mem leading)
  have kind := takes.kind
  rw [wordKind?_input distinct input] at kind
  exact ⟨resolve_input distinct input, (Option.some.inj kind).symm, takes.exact⟩

theorem mem_objectives_of_reported {o : Objective} (h : o ∈ p.reported k) : o ∈ p.objectives := by
  rw [reported] at h
  split at h
  · exact List.mem_of_getElem? (Option.mem_toList.mp h)
  · exact h

theorem reads_objectiveValues (distinct : (p.words.map Prod.fst).Nodup)
    (bounds : ∀ i o, (p.reported k)[i]? = some o → p.Takes o.id (s.bound k i)) :
    ∀ x ∈ p.objectiveValues s k, p.symbolTable.Reads x := by
  intro x member
  obtain ⟨⟨o, i⟩, inside, rfl⟩ := List.mem_map.mp member
  have here := List.mem_zipIdx_iff_getElem?.mp inside
  have takes := bounds i o here
  have objective := mem_objectives_of_reported (List.mem_of_getElem? here)
  exact ⟨resolve_objective distinct objective takes.kind, rfl, takes.exact⟩

end Program

namespace Solutions

variable (s : Solutions) (p : Program) (k : Nat)

/-- The lines of one block. -/
def blockLines : List String :=
  (s.block p k).map Prod.snd

theorem valueLine_eq : s.valueLine k p.modelInputs = listing [] (p.inputValues s k) := by
  simp [valueLine, listing, Program.modelInputs, Program.inputValues, Program.leadingInputs]
  rfl

theorem objectiveLine_eq : s.objectiveLine k ((p.reported k).map Objective.id) =
    listing ["objectives"] (p.objectiveValues s k) := by
  simp [objectiveLine, listing, Program.objectiveValues, List.zipIdx_map]
  rfl

theorem blockLines_eq : s.blockLines p k =
    "sat" :: ((if p.objectives.isEmpty then []
        else [listing ["objectives"] (p.objectiveValues s k)]) ++
      (if p.modelInputs.isEmpty then [] else [listing [] (p.inputValues s k)])) := by
  simp only [blockLines, block, List.map_cons, List.map_append, objectiveLine_eq, valueLine_eq]
  split <;> split <;> rfl

/-- The answer to a query is the lines of its blocks, with the sentinel between them. -/
theorem answer_query {c : Config} {script : Script} (written : Script.query c p = .ok script) :
    s.answer script =
      List.intercalate [c.sentinel] ((List.range p.expectedModels).map (s.blockLines p)) := by
  rw [answer, exchange_query s written, map_intercalate, List.map_map]
  rfl

theorem classify_blockLines
    (distinct : (p.words.map Prod.fst).Nodup)
    (values : ∀ id ∈ p.modelInputs, p.Takes id (s.value k id))
    (bounds : ∀ i o, (p.reported k)[i]? = some o → p.Takes o.id (s.bound k i)) :
    Outcome.classify SExpr.normalize p.symbolTable (s.blockLines p k) =
      .ok (.satisfiable (Model.ofValues (p.inputValues s k) (p.objectiveValues s k))) := by
  rw [blockLines_eq]
  refine Outcome.classify_block (Program.reads_inputValues distinct values)
    (Program.reads_objectiveValues distinct bounds) ?_ ?_
  · split
    · next none =>
      refine .inr ⟨rfl, ?_⟩
      have nothing : p.reported k = [] := by
        simp [Program.reported, List.isEmpty_iff.mp none]
      simp [Program.objectiveValues, nothing]
    · exact .inl rfl
  · split
    · next none =>
      have nothing : p.leadingInputs = [] := List.map_eq_nil_iff.mp (List.isEmpty_iff.mp none)
      exact .inr ⟨rfl, by simp [Program.inputValues, nothing]⟩
    · exact .inl rfl

/-- No line of a block is the sentinel when no answered line is. -/
theorem sentinel_notMem_blockLines {c : Config} {script : Script}
    (written : Script.query c p = .ok script)
    (apart : ∀ x ∈ s.exchange .start script.commands, x.1.isEcho = false → x.2 ≠ c.sentinel)
    {k : Nat} (h : k < p.expectedModels) : c.sentinel ∉ s.blockLines p k := by
  intro member
  obtain ⟨x, inside, same⟩ := List.mem_map.mp member
  have block : s.block p k ∈ (List.range p.expectedModels).map (s.block p) :=
    List.mem_map_of_mem (List.mem_range.mpr h)
  have said : x ∈ s.exchange .start script.commands := by
    rw [exchange_query s written]
    exact mem_intercalate inside block
  refine apart x said ?_ same
  simp only [Solutions.block, List.mem_cons, List.mem_append] at inside
  rcases inside with rfl | inside | inside
  · rfl
  · split at inside
    · cases inside
    · rw [List.mem_singleton.mp inside]
      rfl
  · split at inside
    · cases inside
    · rw [List.mem_singleton.mp inside]
      rfl

end Solutions

/-- What the model read back from one solution holds: the values of the leading inputs
under their own names, in ascending order and each once, and the values of the active
objectives in their order. -/
structure Model.Reports (m : Model) (p : Program) (s : Solutions) (k : Nat) : Prop where
  bindings : m.bindings.Perm
    (p.leadingInputs.map fun i => ⟨i.var.id, i.var.name, s.value k i.var.id⟩)
  ascending : m.bindings.Pairwise fun a b => a.id.index < b.id.index
  objectives : m.objectives =
    (p.reported k).zipIdx.map fun x => ⟨p.reportedName x.1.id, .finite (s.bound k x.2)⟩

theorem Model.reports_ofValues {p : Program} (distinct : (p.words.map Prod.fst).Nodup)
    (s : Solutions) (k : Nat) :
    (ofValues (p.inputValues s k) (p.objectiveValues s k)).Reports p s k := by
  have words : (p.leadingInputs.map fun i => i.var.id).Nodup :=
    (Program.distinct_inputs distinct).sublist ((List.takeWhile_sublist _).map _)
  have each : (p.inputValues s k).map (fun x => (⟨x.1.id, x.1.name, x.2⟩ : Binding)) =
      p.leadingInputs.map fun i => ⟨i.var.id, i.var.name, s.value k i.var.id⟩ := by
    simp [Program.inputValues]
  have distinct : ((p.leadingInputs.map fun i =>
      (⟨i.var.id, i.var.name, s.value k i.var.id⟩ : Binding)).map Binding.id).Nodup := by
    simpa [Function.comp_def] using words
  obtain ⟨perm, ascending⟩ := Keyed.ofList_spec distinct
  refine ⟨?_, ?_, ?_⟩
  · rw [ofValues, each]
    exact perm
  · rw [ofValues, each]
    exact ascending
  · simp [ofValues, Program.objectiveValues]

theorem Dialogue.normalizer_eq (d : Dialogue) : d.normalizer = SExpr.normalize := by
  rw [normalizer]
  cases d.config.dialect
  rfl

/-- The answer of an idealised solver to a prepared query is interpreted as one
satisfiable outcome for each expected model, each with the values of its solution. -/
theorem Dialogue.interpret_answer (d : Dialogue) {p : Program} {q : PreparedQuery}
    (distinct : (p.words.map Prod.fst).Nodup) (prepared : d.prepare p = .ok q) (s : Solutions)
    (values : ∀ k < q.expectedModels, ∀ id ∈ p.modelInputs, p.Takes id (s.value k id))
    (bounds : ∀ k < q.expectedModels, ∀ i o,
      (p.reported k)[i]? = some o → p.Takes o.id (s.bound k i))
    (apart : ∀ x ∈ s.exchange .start q.script.commands,
      x.1.isEcho = false → x.2 ≠ d.config.sentinel) :
    ∃ outcomes, d.interpret q (s.answer q.script) = .ok outcomes ∧
      outcomes.length = q.expectedModels ∧
      ∀ k < q.expectedModels, ∃ m,
        outcomes[k]? = some (.satisfiable m) ∧ m.Reports p s k := by
  obtain ⟨script, written, same⟩ := Except.bind_eq_ok.mp prepared
  cases same
  let model (k : Nat) : Model := .ofValues (p.inputValues s k) (p.objectiveValues s k)
  have classified : ∀ k < p.expectedModels,
      Outcome.classify d.normalizer p.symbolTable (s.blockLines p k) =
        .ok (.satisfiable (model k)) := by
    intro k below
    rw [d.normalizer_eq]
    exact s.classify_blockLines p k distinct (values k below) (bounds k below)
  refine ⟨(List.range p.expectedModels).map fun k => .satisfiable (model k), ?_, by simp, ?_⟩
  · rw [interpret]
    dsimp only
    rw [s.answer_query p written]
    split
    · next one =>
      have first := classified 0 (by omega)
      rw [one]
      simp [interpretOne, first, Except.map]
    · have split := @Outcome.split_blocks d.normalizer p.symbolTable d.config.sentinel
        ((List.range p.expectedModels).map (s.blockLines p))
        ((List.range p.expectedModels).map fun k => .satisfiable (model k)) ?_ ?_ ?_ ?_
      · rwa [List.length_map, List.length_range] at split
      · have positive := p.expectedModels_pos
        simpa using Nat.ne_of_gt positive
      · intro block member
        obtain ⟨k, _, rfl⟩ := List.mem_map.mp member
        exact ⟨_, s.blockLines_eq p k⟩
      · intro block member
        obtain ⟨k, inside, rfl⟩ := List.mem_map.mp member
        exact s.sentinel_notMem_blockLines p written apart (List.mem_range.mp inside)
      · rw [List.forall₂_map_left_iff, List.forall₂_map_right_iff, List.forall₂_same]
        exact fun k inside => classified k (List.mem_range.mp inside)
  · intro k below
    refine ⟨model k, ?_, Model.reports_ofValues distinct s k⟩
    rw [List.getElem?_map, List.getElem?_range below]
    rfl

/-- A number and its double, one made small and the other one large. -/
def Program.extremes : Program where
  polarity := .satisfy
  sorts := []
  inputs := [⟨.exist, ⟨⟨2⟩, "x", .integer⟩⟩, ⟨.exist, ⟨⟨1⟩, "mode", .word 8⟩⟩]
  constants := []
  tables := []
  arrays := []
  functions := []
  assumptions := []
  assignments := [⟨⟨3⟩, .integer, .plus, [⟨2⟩, ⟨2⟩]⟩, ⟨⟨4⟩, .bool, .lessEq, [⟨2⟩, ⟨3⟩]⟩]
  constraints := []
  output := ⟨4⟩
  objectives := [⟨"low", ⟨2⟩, .minimize⟩, ⟨"high", ⟨3⟩, .maximize⟩]
  style := .independent

/-- The first solution is at minus seven, the others are at ten. -/
def Solutions.extremes : Solutions where
  value k id :=
    if id = ⟨2⟩ then .ofInteger (if k = 0 then -7 else 10) else .ofWord 8 255
  bound k _ := .ofInteger (if k = 0 then -7 else 20)

def Dialogue.standard : Dialogue := ⟨Config.standard, rfl⟩

/-- Two models come back, each with the values of its own solution. -/
theorem Dialogue.interpret_extremes :
    ∃ q, standard.prepare .extremes = .ok q ∧ ∃ outcomes,
      standard.interpret q (Solutions.extremes.answer q.script) = .ok outcomes ∧
      outcomes.length = 2 ∧
      ∀ k < 2, ∃ m, outcomes[k]? = some (.satisfiable m) ∧ m.Reports .extremes .extremes k := by
  have still : Features.varies .extremes = fun _ => false := by
    funext o
    simp [Features.varies, Features.varyingInputs, Program.extremes, Program.quantifier]
  have checked : (Features.ofProgram .extremes).check Config.standard.capabilities = .ok () := by
    have universal : (Features.ofProgram .extremes).universalObjectives = [] := by
      simp [Features.ofProgram, still]
    rw [Features.check, universal]
    rfl
  obtain ⟨body, composed⟩ : ∃ body,
      Script.body Config.standard .extremes (Features.ofProgram .extremes) = .ok body := ⟨_, rfl⟩
  have program : Script.ofProgram Config.standard .extremes = .ok body :=
    Except.bind_eq_ok.mpr
      ⟨(), Except.mapError_eq_ok.mpr checked, Except.mapError_eq_ok.mpr composed⟩
  obtain ⟨script, written⟩ : ∃ script, Script.query Config.standard .extremes = .ok script :=
    ⟨_, Except.bind_eq_ok.mpr ⟨body, program, rfl⟩⟩
  have prepared : standard.prepare .extremes = .ok ⟨script, Program.extremes.symbolTable, 2⟩ :=
    Except.bind_eq_ok.mpr ⟨script, written, rfl⟩
  have integer : ∀ i, (Value.ofInteger i).Exact := fun i =>
    Value.exact_of_readable
      ⟨by simp [Value.ofInteger, Kind.width?], by simp [Value.ofInteger]⟩ rfl
  have word : (Value.ofWord 8 255).Exact :=
    Value.exact_of_readable ⟨by decide, by simp [Value.ofWord, Value.ofBits]⟩ rfl
  refine ⟨_, prepared, interpret_answer standard (by decide) prepared .extremes ?_ ?_ ?_⟩
  · intro k _ id member
    have known : id = ⟨2⟩ ∨ id = ⟨1⟩ := by
      simpa [Program.modelInputs, Program.extremes, Program.quantifier] using member
    rcases known with rfl | rfl
    · exact ⟨rfl, integer _⟩
    · exact ⟨rfl, word⟩
  · intro k _ i o here
    have introduced : ∀ o ∈ Program.extremes.objectives,
        Program.extremes.wordKind? o.id = some .integer := by decide
    have objective := Program.mem_objectives_of_reported (List.mem_of_getElem? here)
    exact ⟨introduced o objective, integer _⟩
  · rw [Solutions.extremes.exchange_query written]
    decide

end SmtDialogue
