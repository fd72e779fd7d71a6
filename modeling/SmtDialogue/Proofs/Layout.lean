import SmtDialogue.Proofs.Commands
import SmtDialogue.Proofs.Opening

/-!
# The layout of a script

A program whose words are introduced once is written as a list of definitions, each over
the words before it. Those outside are commands, the others are bound inside the quantified
assertion, and in the end the scope holds the words of the program.
-/

namespace SmtDialogue

namespace Program

variable (p : Program)

/-- The constants of a program with their kinds. -/
def constantWords : List (WordId × Kind) :=
  p.constants.map fun k => (k.1, k.2.kind)

theorem words_eq : p.words = Script.inputWords p.inputs ++ p.constantWords ++
    p.assignments.map fun a => (a.id, a.kind) := rfl

end Program

theorem Scope.holds_foldl_declare {s : Scope} {words : List (WordId × Kind)}
    {inner : List WordId} (holds : s.Holds words inner) (constants : List (WordId × Value))
    (distinct : ((words ++ constants.map fun k => (k.1, k.2.kind)).map Prod.fst).Nodup) :
    (constants.foldl (fun s k => s.declare k.1 k.2.kind true) s).Holds
      (words ++ constants.map fun k => (k.1, k.2.kind)) inner := by
  induction constants generalizing s words with
  | nil => simpa using holds
  | cons k rest ih =>
    have fresh : k.1 ∉ words.map Prod.fst := by
      intro member
      rw [List.map_append] at distinct
      exact (List.nodup_append.mp distinct).2.2 _ member _ List.mem_cons_self rfl
    have declared := holds.declare fresh k.2.kind true
    have whole := ih (by simpa [innerOf] using declared) (by simpa using distinct)
    simpa using whole

/-- The definitions of a program as they are written. -/
structure Program.Layout (p : Program) (ds : List Definition) : Prop where
  distinct : (p.words.map Prod.fst).Nodup
  assignments : ds.map Definition.assignment = p.assignments
  follow : Definition.Follow (Script.inputWords p.inputs ++ p.constantWords)
    (Script.innerInputs p.quantifier [] p.inputs) ds

namespace Program.Layout

open Script (innerInputs inputWords universalsOf)

variable {p : Program} {ds : List Definition}

theorem words_eq (layout : p.Layout ds) :
    p.words = inputWords p.inputs ++ p.constantWords ++ ds.map Definition.word := by
  rw [p.words_eq, ← layout.assignments, List.map_map]
  rfl

/-- The words that are not outside. -/
def innerWords (p : Program) (ds : List Definition) : List WordId :=
  innerInputs p.quantifier [] p.inputs ++ Definition.opened ds

theorem innerInputs_known (quantifier : Input → Quantifier) (inputs : List Input) :
    ∀ id ∈ innerInputs quantifier [] inputs, id ∈ (inputWords inputs).map Prod.fst := by
  intro id member
  have names : (inputWords inputs).map Prod.fst = inputs.map fun i => i.var.id := by
    simp [inputWords]
  rw [names]
  rcases (Script.mem_innerInputs quantifier).mp member with universal | skolem
  · obtain ⟨x, hx, rfl⟩ := List.mem_map.mp universal
    obtain ⟨i, hi, _, rfl⟩ := (Script.mem_universalsOf quantifier).mp hx
    exact List.mem_map.mpr ⟨i, hi, rfl⟩
  · exact (Script.sublist_skolemsOf quantifier [] inputs).subset skolem

/-- The words inside are introduced before or with the definitions. -/
theorem innerInputs_outer (p : Program) : ∀ id ∈ innerInputs p.quantifier [] p.inputs,
    id ∈ (inputWords p.inputs ++ p.constantWords).map Prod.fst := by
  intro id member
  rw [List.map_append]
  exact List.mem_append_left _ (innerInputs_known _ _ id member)

/-- Without universal inputs nothing is inside. -/
theorem innerWords_eq_nil (layout : p.Layout ds)
    (none : universalsOf p.quantifier p.inputs = []) : innerWords p ds = [] := by
  have inputs : innerInputs p.quantifier [] p.inputs = [] := by
    refine List.eq_nil_iff_forall_not_mem.mpr fun id member => ?_
    rw [Script.mem_innerInputs, none, Script.skolemsOf_eq_nil _ none] at member
    simp at member
  have follow := layout.follow
  rw [inputs] at follow
  have closed := follow.closed_of_nil
  simpa [innerWords, inputs, Definition.opened] using closed

end Program.Layout

namespace Script

/-- The scope of the inputs and the constants. -/
def outerScope (p : Program) : Scope :=
  p.constants.foldl (fun s k => s.declare k.1 k.2.kind true) (opening p).scope

variable {p : Program} {parts : Parts p}

/-- What the parts of a script are made of when its definitions are these. -/
structure Parts.Arranged (parts : Parts p) (ds : List Definition) : Prop where
  commands : parts.definitions.commands =
    (ds.filter Definition.closed).map fun d => d.assignment.command d.body
  bindings : parts.definitions.bindings = (ds.filter fun d => !d.closed).map Definition.binding
  outer : (outerScope p).Holds (inputWords p.inputs ++ p.constantWords)
    (innerInputs p.quantifier [] p.inputs)
  scope : parts.definitions.scope.Holds p.words (Program.Layout.innerWords p ds)

/-- What the assertions are about is introduced by the program. -/
theorem Parts.Arranged.known {ds : List Definition} (arranged : parts.Arranged ds)
    (shape : parts.Written) :
    ∀ id ∈ p.constraints ++ [p.output], id ∈ p.words.map Prod.fst := by
  intro id member
  obtain ⟨kind, found⟩ := shape.known id member
  have introduced := (arranged.scope.kind id kind).mp (Scope.kind_eq_ok.mp found)
  exact List.mem_map.mpr ⟨(id, kind), introduced, rfl⟩

/-- The assignments of a program of distinct words are laid out as definitions. -/
theorem Parts.exists_arranged
    (defined : Script.definitions (outerScope p) p.assignments = .ok parts.definitions)
    (distinct : (p.words.map Prod.fst).Nodup) : ∃ ds, p.Layout ds ∧ parts.Arranged ds := by
  have apart := distinct
  rw [p.words_eq, List.map_append] at apart
  have outer := (List.nodup_append.mp apart).1
  have first : ((inputWords p.inputs).map Prod.fst).Nodup := by
    rw [List.map_append] at outer
    exact (List.nodup_append.mp outer).1
  have inputs : (opening p).scope.Holds (inputWords p.inputs)
      (innerInputs p.quantifier [] p.inputs) := by
    simpa [opening] using holds_foldl_add p (o := ⟨[], [], [], []⟩) Scope.holds_nil first
  have constants := Scope.holds_foldl_declare inputs p.constants outer
  have later : ((inputWords p.inputs ++ p.constantWords).map Prod.fst ++
      p.assignments.map Assignment.id).Nodup := by
    simpa [Function.comp_def] using apart
  obtain ⟨ds, assignments, follow, defs, bindings, scope⟩ :=
    foldlM_add_eq_ok defined constants later
  have layout : p.Layout ds := ⟨distinct, assignments, follow⟩
  refine ⟨ds, layout, by simpa using defs, by simpa using bindings, constants, ?_⟩
  rw [layout.words_eq]
  exact scope

/-- A program of distinct words is laid out as definitions. -/
theorem Parts.Written.layout (shape : parts.Written) (distinct : (p.words.map Prod.fst).Nodup) :
    ∃ ds, p.Layout ds ∧ parts.Arranged ds :=
  Parts.exists_arranged shape.definitions distinct

end Script

end SmtDialogue
