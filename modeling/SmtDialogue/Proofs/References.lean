import SmtDialogue.Proofs.Coverage
import SmtDialogue.Proofs.Liveness

/-!
# References to tables, arrays and functions

A scope holds words. The name of a table, an array or a function goes from an assignment
into its term without being looked up: whether the assignment can be written depends on its
arguments only. The declarations of these names stand before every command that refers to
one, so a reference is to a declared name exactly when the program, the fragment or an
earlier fragment of an open level lists a declaration of it.
-/

namespace SmtDialogue

def Name.isWord : Name → Bool
  | .word _ => true
  | _ => false

namespace Term

mutual

/-- The names in a term, in the order they stand. -/
def names : Term → List Name
  | .name n => [n]
  | .literal _ => []
  | .apply (.declared n) args => n :: namesAll args
  | .apply _ args => namesAll args

def namesAll : List Term → List Name
  | [] => []
  | t :: rest => t.names ++ namesAll rest

end

end Term

/-- The names of tables, arrays and functions that are declared. -/
def resourceNames (tables : List Table) (arrays : List ArrayDecl)
    (functions : List FunctionDecl) : List Name :=
  tables.map (fun t => .table t.id) ++ arrays.map (fun a => .array a.id) ++
    functions.map fun f => .function f.name

namespace Command

/-- The terms that a command is written with. -/
def terms : Command → List Term
  | .define _ _ body _ => [body]
  | .assert t => [t]
  | .assertForall _ bindings body => bindings.map Prod.snd ++ [body]
  | _ => []

/-- The tables, arrays and functions that the terms of a command refer to. -/
def references (c : Command) : List Name :=
  (c.terms.flatMap Term.names).filter fun n => !n.isWord

/-- The table, array or function that a command declares or defines. -/
def resources : Command → List Name
  | .declare n _ _ _ | .define n _ _ _ => [n].filter fun n => !n.isWord
  | _ => []

/-- The tables, arrays and functions that commands declare or define, in order. -/
def resourcesOf (cs : List Command) : List Name :=
  cs.flatMap resources

theorem resourcesOf_append (cs ds : List Command) :
    resourcesOf (cs ++ ds) = resourcesOf cs ++ resourcesOf ds :=
  List.flatMap_append

theorem resourcesOf_eq_nil {cs : List Command} (each : ∀ c ∈ cs, c.resources = []) :
    resourcesOf cs = [] :=
  List.flatMap_eq_nil_iff.mpr each

/-- Commands in two parts: those of the first refer to nothing and declare these names, and
those of the second declare nothing. -/
def Staged (declared : List Name) (cs : List Command) : Prop :=
  ∃ first second, cs = first ++ second ∧ (∀ c ∈ first, c.references = []) ∧
    resourcesOf first = declared ∧ ∀ c ∈ second, c.resources = []

variable {declared : List Name} {cs : List Command}

theorem Staged.resourcesOf_eq (staged : Staged declared cs) : resourcesOf cs = declared := by
  obtain ⟨first, second, rfl, -, whole, uses⟩ := staged
  rw [resourcesOf_append, whole, resourcesOf_eq_nil uses, List.append_nil]

/-- All that is declared stands before every reference. -/
theorem Staged.resourcesOf_before (staged : Staged declared cs) {before after : List Command}
    {c : Command} (split : cs = before ++ c :: after) {n : Name} (refers : n ∈ c.references) :
    resourcesOf before = declared := by
  obtain ⟨first, second, rfl, silent, whole, uses⟩ := staged
  rcases List.append_eq_append_iff.mp split with ⟨between, rfl, rest⟩ | ⟨between, rfl, rest⟩
  · have none : resourcesOf between = [] := resourcesOf_eq_nil fun d member =>
      uses d (rest ▸ List.mem_append_left _ member)
    rw [resourcesOf_append, none, List.append_nil, whole]
  · -- a command of the first part would not refer to anything
    cases between with
    | nil => rwa [List.append_nil] at whole
    | cons d between =>
      obtain ⟨rfl, -⟩ := List.cons_eq_cons.mp rest
      rw [silent c (List.mem_append_right _ List.mem_cons_self)] at refers
      cases refers

/-- Commands that have to do with no table, array or function can stand in front. -/
theorem Staged.append_left (staged : Staged declared cs) {front : List Command}
    (apart : ∀ c ∈ front, c.references = [] ∧ c.resources = []) :
    Staged declared (front ++ cs) := by
  obtain ⟨first, second, rfl, silent, whole, uses⟩ := staged
  refine ⟨front ++ first, second, (List.append_assoc _ _ _).symm, ?_, ?_, uses⟩
  · exact List.forall_mem_append.mpr ⟨fun c hc => (apart c hc).1, silent⟩
  · rw [resourcesOf_append, resourcesOf_eq_nil fun c hc => (apart c hc).2, whole, List.nil_append]

/-- The command that introduces the word of an assignment with its term: a definition, or
the quantified assertion that binds the word on the way. -/
inductive Introducing (a : Assignment) (t : Term) : Command → Prop where
  | outside : Introducing a t (a.command t)
  | inside {binders : List (WordId × Kind)} {bindings : List (WordId × Term)} {body : Term}
      (bound : (a.id, t) ∈ bindings) : Introducing a t (.assertForall binders bindings body)

theorem Introducing.references {a : Assignment} {t : Term} {c : Command}
    (introducing : c.Introducing a t) {n : Name} (inside : n ∈ t.names) (other : ¬n.isWord) :
    n ∈ c.references := by
  refine List.mem_filter.mpr ⟨List.mem_flatMap.mpr ⟨t, ?_, inside⟩, by simpa using other⟩
  cases introducing with
  | outside => exact List.mem_singleton.mpr rfl
  | inside bound => exact List.mem_append_left _ (List.mem_map.mpr ⟨_, bound, rfl⟩)

end Command

namespace Op

theorem not_isWord_of_name? {op : Op} {n : Name} (named : op.name? = some n) : ¬n.isWord := by
  cases op <;> cases named <;> simp [Name.isWord]

/-- An operation that refers to a name is written for any operands of the right number. -/
theorem exists_term_iff {op : Op} {n : Name} (named : op.name? = some n) {result : Kind}
    {operands : List (WordId × Kind)} :
    (∃ t, op.term result operands = .ok t) ↔ op.arity?.all (· = operands.length) := by
  have always : ∀ kind args, ∃ t, op.written? kind args = some t := by
    intro kind args
    cases op <;> cases named <;> exact ⟨_, rfl⟩
  obtain ⟨t, written⟩ := always (op.family result (operands.map Prod.snd))
    (operands.map fun o => Term.word o.1)
  rw [term]
  cases op.arity? with
  | none => simp [written]
  | some expected => by_cases given : expected = operands.length <;> simp [given, written]

/-- The term of an operation that refers to a name has the name in it. -/
theorem mem_names_of_term {op : Op} {n : Name} (named : op.name? = some n) {result : Kind}
    {operands : List (WordId × Kind)} {t : Term} (written : op.term result operands = .ok t) :
    n ∈ t.names := by
  rw [term] at written
  split at written
  · cases written
  · simp only at written
    split at written
    · next built =>
      cases written
      cases op with
      | table id | array id =>
        cases named
        cases built
        simp [Term.call, Term.names, Term.namesAll]
      | function name =>
        cases named
        obtain rfl := Option.some_inj.mp built
        rw [application]
        split <;> simp [Term.names]
      | _ => cases named
    · cases written

end Op

namespace Assignment

variable {a : Assignment} {scope : Scope} {n : Name}

/-- An assignment that refers to a table, an array or a function is written exactly when it
has the right number of arguments and these are in scope. The name is not looked up. -/
theorem exists_term_iff (named : a.op.name? = some n) :
    (∃ t, a.term scope = .ok t) ↔
      a.op.arity?.all (· = a.args.length) ∧ ∀ id ∈ a.args, ∃ kind, scope.kind id = .ok kind := by
  constructor
  · rintro ⟨t, written⟩
    obtain ⟨operands, args, kinds, built⟩ := term_eq_ok written
    have count : operands.length = a.args.length := by rw [← args, List.length_map]
    refine ⟨count ▸ (Op.exists_term_iff named).mp ⟨t, built⟩, fun id member => ?_⟩
    rw [← args] at member
    obtain ⟨o, ho, rfl⟩ := List.mem_map.mp member
    exact ⟨o.2, Scope.kind_eq_ok.mpr (kinds o ho)⟩
  · rintro ⟨count, known⟩
    have found : ∀ id ∈ a.args, ∃ o, (do return (id, ← scope.kind id)) =
        (.ok o : Except EmitError (WordId × Kind)) := by
      intro id member
      obtain ⟨kind, here⟩ := known id member
      exact ⟨(id, kind), Except.bind_eq_ok.mpr ⟨kind, here, rfl⟩⟩
    obtain ⟨operands, each⟩ := Except.exists_mapM_eq_ok.mpr found
    obtain ⟨args, -⟩ := Scope.operands_eq_ok (Except.mapM_eq_ok.mp each)
    rw [← args, List.length_map] at count
    obtain ⟨t, built⟩ : ∃ t, a.op.term a.kind operands = .ok t :=
      (Op.exists_term_iff named).mpr count
    exact ⟨t, Except.bind_eq_ok.mpr ⟨operands, each, built⟩⟩

theorem mem_names_of_term (named : a.op.name? = some n) {t : Term}
    (written : a.term scope = .ok t) : n ∈ t.names := by
  obtain ⟨operands, -, -, built⟩ := term_eq_ok written
  exact Op.mem_names_of_term named built

end Assignment

theorem ArrayDecl.resources_command {a : ArrayDecl} {scope : Scope} {c : Command}
    (written : a.command scope = .ok c) : c.references = [] ∧ c.resources = [.array a.id] := by
  obtain rfl | ⟨default, -, rfl⟩ := ArrayDecl.command_eq_ok written
  · exact ⟨rfl, rfl⟩
  · exact ⟨rfl, rfl⟩

theorem ArrayDecl.resourcesOf_commands {arrays : List ArrayDecl} {scope : Scope}
    {cs : List Command}
    (written : List.Forall₂ (fun a c => ArrayDecl.command a scope = .ok c) arrays cs) :
    Command.resourcesOf cs = arrays.map fun a => .array a.id := by
  induction written with
  | nil => rfl
  | cons first _ ih =>
    rw [List.map_cons, ← ih, Command.resourcesOf, List.flatMap_cons,
      (ArrayDecl.resources_command first).2]
    rfl

theorem Table.resources_entries {tables : List Table} {scope : Scope}
    {entries : List (List Command)}
    (written : List.Forall₂ (fun t cs => Table.entryCommands t scope = .ok cs) tables entries) :
    ∀ c ∈ entries.flatten, c.resources = [] := by
  intro c member
  obtain ⟨t, -, _, _, one⟩ := Table.exists_of_mem_entries written member
  obtain ⟨-, _, -, rfl⟩ := Table.entryCommand_eq_ok one
  rfl

/-- The declarations of tables, arrays and functions, with commands behind them that declare
nothing. -/
theorem Command.staged_declarations (tables : List Table) {arrays : List ArrayDecl}
    (functions : List FunctionDecl) {scope : Scope} {cs second : List Command}
    (written : List.Forall₂ (fun a c => ArrayDecl.command a scope = .ok c) arrays cs)
    (uses : ∀ c ∈ second, c.resources = []) :
    Staged (resourceNames tables arrays functions)
      (tables.map Table.command ++ cs ++ functions.map FunctionDecl.command ++ second) := by
  refine ⟨_, second, rfl, ?_, ?_, uses⟩
  · simp only [List.forall_mem_append, List.forall_mem_map]
    refine ⟨⟨fun t _ => rfl, fun c hc => ?_⟩, fun f _ => rfl⟩
    obtain ⟨a, -, one⟩ := written.exists_of_mem_right hc
    exact (ArrayDecl.resources_command one).1
  · have first : resourcesOf (tables.map Table.command) = tables.map fun t => .table t.id := by
      rw [resourcesOf, List.flatMap_map, List.map_eq_flatMap]
      rfl
    have last : resourcesOf (functions.map FunctionDecl.command) =
        functions.map fun f => .function f.name := by
      rw [resourcesOf, List.flatMap_map, List.map_eq_flatMap]
      rfl
    rw [resourcesOf_append, resourcesOf_append, first, last,
      ArrayDecl.resourcesOf_commands written, resourceNames]

def Program.resources (p : Program) : List Name :=
  resourceNames p.tables p.arrays p.functions

/-- The program with no declarations of tables, arrays and functions. -/
def Program.withoutResources (p : Program) : Program :=
  { p with tables := [], arrays := [], functions := [] }

namespace Script

variable {p : Program}

theorem resources_of_silent {c : Command} (silent : Silent c) :
    c.references = [] ∧ c.resources = [] := by
  cases c <;> first | exact ⟨rfl, rfl⟩ | exact absurd silent id

theorem resources_opening (p : Program) :
    ∀ c ∈ (opening p).commands, c.references = [] ∧ c.resources = [] := by
  intro c member
  rw [(opening_eq p).1] at member
  obtain ⟨i, -, rfl | ⟨universals, -, rfl⟩⟩ := mem_declarations p.quantifier member
  · exact ⟨rfl, rfl⟩
  · exact ⟨rfl, rfl⟩

theorem resources_assertions (p : Program) (o : Opening) (bindings : List (WordId × Term)) :
    ∀ c ∈ assertions p o bindings, c.resources = [] := by
  intro c member
  rw [assertions] at member
  split at member
  · rcases List.mem_append.mp member with constraint | output
    · obtain ⟨id, -, rfl⟩ := List.mem_map.mp constraint
      rfl
    · rw [List.mem_singleton.mp output]
      rfl
  · rw [List.mem_singleton.mp member]
    rfl

theorem resources_sharedObjectives (p : Program) :
    ∀ c ∈ sharedObjectives p, c.resources = [] := by
  intro c member
  rw [sharedObjectives] at member
  split at member
  · cases member
  · obtain ⟨o, -, rfl⟩ := List.mem_map.mp member
    rw [Objective.command]
    split <;> rfl

/-- Every assignment is defined outside or bound inside, and no definition declares a table,
an array or a function. -/
theorem definitions_introduce {assignments : List Assignment} {d last : Definitions}
    (written : assignments.foldlM Definitions.add d = .ok last)
    (before : ∀ c ∈ d.commands, c.resources = []) :
    (∀ c ∈ last.commands, c.resources = []) ∧
      (∀ c ∈ d.commands, c ∈ last.commands) ∧ (∀ b ∈ d.bindings, b ∈ last.bindings) ∧
      ∀ a ∈ assignments, ∃ scope body, a.term scope = .ok body ∧
        (a.command body ∈ last.commands ∨ (a.id, body) ∈ last.bindings) := by
  induction assignments generalizing d with
  | nil =>
    cases written
    exact ⟨before, fun _ hc => hc, fun _ hb => hb, by simp⟩
  | cons a rest ih =>
    rw [List.foldlM_cons, Except.bind_eq_ok] at written
    obtain ⟨middle, first, others⟩ := written
    obtain ⟨body, term, ⟨-, rfl⟩ | ⟨-, rfl⟩⟩ := d.add_cases first
    · obtain ⟨declares, commands, bindings, each⟩ := ih others
        (List.forall_mem_append.mpr ⟨before, by simp [Assignment.command, Command.resources,
          Name.isWord]⟩)
      obtain ⟨kept, added⟩ := List.forall_mem_append.mp commands
      exact ⟨declares, kept, bindings, List.forall_mem_cons.mpr
        ⟨⟨_, body, term, .inl (added _ (List.mem_singleton.mpr rfl))⟩, each⟩⟩
    · obtain ⟨declares, commands, bindings, each⟩ := ih others before
      obtain ⟨kept, added⟩ := List.forall_mem_append.mp bindings
      exact ⟨declares, commands, kept, List.forall_mem_cons.mpr
        ⟨⟨_, body, term, .inr (added _ (List.mem_singleton.mpr rfl))⟩, each⟩⟩

/-- Without universal inputs nothing is bound inside. -/
theorem bindings_eq_nil {parts : Parts p} (written : parts.Written)
    (none : (opening p).universals = []) : parts.definitions.bindings = [] := by
  have exist : ∀ i ∈ p.inputs, p.quantifier i = .exist := by
    intro i hi
    rw [(opening_eq p).2.1, List.eq_nil_iff_forall_not_mem] at none
    cases prefixed : p.quantifier i with
    | exist => rfl
    | all => exact absurd ((mem_universalsOf p.quantifier).mpr ⟨i, hi, prefixed, rfl⟩) (none _)
  have defined := written.definitions
  rw [opening_of_exist exist, definitions] at defined
  have outside := (Scope.outside_nil.foldl_declare p.inputs (fun i => i.var.id)
    fun i => i.var.kind).foldl_declare p.constants Prod.fst fun k => k.2.kind
  rw [definitions_of_outside outside] at defined
  obtain ⟨w, -, same⟩ := Except.map_eq_ok.mp defined
  rw [← same]

theorem exists_introducing {o : Opening} {bindings : List (WordId × Term)} {a : Assignment}
    {t : Term} (bound : (a.id, t) ∈ bindings) (some : o.universals ≠ []) :
    ∃ command ∈ assertions p o bindings, command.Introducing a t := by
  rw [assertions, if_neg (by simpa using some)]
  exact ⟨_, List.mem_singleton.mpr rfl, .inside (List.mem_append_right _ bound)⟩

/-- In the script of a program all declarations of tables, arrays and functions stand before
the first reference, and every assignment is introduced by a command. -/
theorem staged_body {c : Config} {f : Features} {s : Script} (written : body c p f = .ok s) :
    Command.Staged p.resources s.commands ∧
      ∀ a ∈ p.assignments, ∃ command ∈ s.commands, ∃ scope t,
        a.term scope = .ok t ∧ command.Introducing a t := by
  obtain ⟨parts, shape, -, commands⟩ := body_eq_ok written
  obtain ⟨definitions, -, -, each⟩ := definitions_introduce shape.definitions (by simp)
  refine ⟨?_, fun a listed => ?_⟩
  · have uses : ∀ command ∈ parts.definitions.commands ++ (parts.entries.flatten ++
        (assertions p (opening p) parts.definitions.bindings ++ sharedObjectives p)),
        command.resources = [] := by
      simp only [List.forall_mem_append]
      exact ⟨definitions, Table.resources_entries shape.entries, resources_assertions p _ _,
        resources_sharedObjectives p⟩
    have apart : ∀ command ∈ (header c p f).commands ++ (p.sorts.map SortDecl.command ++
        ((opening p).commands ++ p.constants.map fun k => constantCommand k.1 k.2)),
        command.references = [] ∧ command.resources = [] := by
      simp only [List.forall_mem_append, List.forall_mem_map]
      exact ⟨fun command member => resources_of_silent (silent_header c p f command member),
        fun _ _ => ⟨rfl, rfl⟩, resources_opening p, fun _ _ => ⟨rfl, rfl⟩⟩
    have staged := (Command.staged_declarations p.tables p.functions shape.arrays
      uses).append_left apart
    simpa only [commands, Program.resources, List.append_assoc] using staged
  · obtain ⟨scope, t, term, command | bound⟩ := each a listed
    · exact ⟨a.command t, by simp [commands, command], scope, t, term, .outside⟩
    · obtain ⟨command, inside, introducing⟩ := exists_introducing (p := p) bound fun none => by
        rw [bindings_eq_nil shape none] at bound
        cases bound
      exact ⟨command, by simp [commands, inside], scope, t, term, introducing⟩

end Script

namespace Features

/-- What needs no more features passes wherever the others do. -/
theorem check_mono {f g : Features} {solver : Capabilities} (passed : f.check solver = .ok ())
    (fewer : ∀ feature, g.needs feature = true → f.needs feature = true)
    (universal : g.universalObjectives = f.universalObjectives) : g.check solver = .ok () := by
  have supported : g.required.find? (fun feature => !solver.supports feature) = none := by
    rw [List.find?_eq_none]
    intro feature listed
    simpa using check_eq_ok passed (fewer feature (List.mem_filter.mp listed).2)
  rw [check, supported, universal]
  rw [check] at passed
  split at passed
  · cases passed
  · exact passed

/-- Where kinds are left out, and sorts are needed no more than before, no feature is added. -/
theorem needs_mono {f g : Features} (kinds : ∀ k ∈ g.kinds, k ∈ f.kinds)
    (quantified : g.quantified = f.quantified) (optimizing : g.optimizing = f.optimizing)
    (sorts : g.sorts = true → f.sorts = true) {feature : Feature}
    (needed : g.needs feature = true) : f.needs feature = true := by
  cases feature with
  | integers => simpa [needs] using kinds .integer (by simpa [needs] using needed)
  | reals => simpa [needs] using kinds .real (by simpa [needs] using needed)
  | floats =>
    obtain ⟨k, listed, floating⟩ := List.any_eq_true.mp needed
    exact List.any_eq_true.mpr ⟨k, kinds k listed, floating⟩
  | quantifiers => exact quantified.symm.trans needed
  | sorts => exact sorts needed
  | optimization => exact optimizing.symm.trans needed

theorem subset_declaredKinds (sorts : List SortDecl) (tables : List Table)
    (arrays : List ArrayDecl) (functions : List FunctionDecl) :
    declaredKinds sorts [] [] [] ⊆ declaredKinds sorts tables arrays functions := by
  intro k member
  simp only [declaredKinds, List.flatMap_nil, List.append_nil] at member ⊢
  simp [member]

/-- Sorts are needed by declarations and by kinds, so by no more where kinds are left out. -/
theorem sorts_mono {declared : Bool} {kinds fewer : List Kind} (subset : fewer ⊆ kinds)
    (needed : (declared || fewer.any Kind.isSort) = true) :
    (declared || kinds.any Kind.isSort) = true := by
  rcases Bool.or_eq_true_iff.mp needed with given | some
  · exact Bool.or_eq_true_iff.mpr (.inl given)
  · obtain ⟨k, listed, isSort⟩ := List.any_eq_true.mp some
    exact Bool.or_eq_true_iff.mpr (.inr (List.any_eq_true.mpr ⟨k, subset listed, isSort⟩))

theorem check_withoutResources {p : Program} {solver : Capabilities}
    (passed : (ofProgram p).check solver = .ok ()) :
    (ofProgram p.withoutResources).check solver = .ok () := by
  have kinds : (ofProgram p.withoutResources).kinds ⊆ (ofProgram p).kinds := by
    intro k
    rw [ofProgram, ofProgram, Kind.mem_sorted, Kind.mem_sorted, List.mem_append, List.mem_append]
    exact Or.imp_right fun listed => subset_declaredKinds p.sorts p.tables p.arrays p.functions
      listed
  exact check_mono passed (fun _ => needs_mono kinds rfl rfl (sorts_mono kinds)) rfl

end Features

/-- A program that is accepted is accepted without its declarations of tables, arrays and
functions, whatever its assignments refer to. -/
theorem Script.ofProgram_withoutResources {c : Config} {p : Program} {s : Script}
    (written : ofProgram c p = .ok s) : ∃ s', ofProgram c p.withoutResources = .ok s' := by
  obtain ⟨_, passed, built⟩ := Except.bind_eq_ok.mp written
  have gate := Features.check_withoutResources (Except.mapError_eq_ok.mp passed)
  obtain ⟨parts, shape, -⟩ := body_eq_ok (Except.mapError_eq_ok.mp built)
  have body : ∃ s', body c p.withoutResources (Features.ofProgram p.withoutResources) = .ok s' :=
    ⟨_, Except.bind_eq_ok.mpr ⟨[], rfl, Except.bind_eq_ok.mpr ⟨_, shape.definitions,
      Except.bind_eq_ok.mpr ⟨[], rfl, Except.bind_eq_ok.mpr
        ⟨_, Scope.forM_kind_eq_ok.mpr shape.known, Except.bind_eq_ok.mpr
          ⟨_, Except.forM_eq_ok.mpr shape.objectives, rfl⟩⟩⟩⟩⟩⟩
  obtain ⟨s', whole⟩ := body
  exact ⟨s', Except.bind_eq_ok.mpr ⟨(), Except.mapError_eq_ok.mpr gate,
    Except.mapError_eq_ok.mpr whole⟩⟩

namespace Delta

def resources (d : Delta) : List Name :=
  resourceNames d.tables d.arrays d.functions

/-- The fragment with no declarations of tables, arrays and functions. -/
def withoutResources (d : Delta) : Delta :=
  { d with tables := [], arrays := [], functions := [] }

theorem definitions_introduce {assignments : List Assignment} {w last : Written}
    (written : assignments.foldlM Written.add w = .ok last)
    (before : ∀ c ∈ w.commands, c.resources = []) :
    (∀ c ∈ last.commands, c.resources = []) ∧ (∀ c ∈ w.commands, c ∈ last.commands) ∧
      ∀ a ∈ assignments, ∃ scope t, a.term scope = .ok t ∧ a.command t ∈ last.commands := by
  induction assignments generalizing w with
  | nil =>
    cases written
    exact ⟨before, fun _ hc => hc, by simp⟩
  | cons a rest ih =>
    rw [List.foldlM_cons, Except.bind_eq_ok] at written
    obtain ⟨middle, first, others⟩ := written
    obtain ⟨t, term, same⟩ := Except.bind_eq_ok.mp first
    cases same
    obtain ⟨declares, commands, each⟩ := ih others (List.forall_mem_append.mpr
      ⟨before, by simp [Assignment.command, Command.resources, Name.isWord]⟩)
    obtain ⟨kept, added⟩ := List.forall_mem_append.mp commands
    exact ⟨declares, kept, List.forall_mem_cons.mpr
      ⟨⟨_, t, term, added _ (List.mem_singleton.mpr rfl)⟩, each⟩⟩

/-- In a fragment as well all declarations stand before the first reference. -/
theorem staged_commands {d : Delta} {scope : Scope} {w : Written}
    (written : d.commands scope = .ok w) :
    Command.Staged d.resources w.commands ∧
      ∀ a ∈ d.assignments, ∃ command ∈ w.commands, ∃ scope t,
        a.term scope = .ok t ∧ command.Introducing a t := by
  obtain ⟨parts, shape, -, commands⟩ := commands_eq_ok written
  obtain ⟨definitions, -, each⟩ := definitions_introduce shape.definitions (by simp)
  refine ⟨?_, fun a listed => ?_⟩
  · have uses : ∀ command ∈ parts.definitions.commands ++ (parts.entries.flatten ++
        d.assertions.map fun id => Command.assert (.word id)), command.resources = [] := by
      simp only [List.forall_mem_append, List.forall_mem_map]
      exact ⟨definitions, Table.resources_entries shape.entries, fun _ _ => rfl⟩
    have apart : ∀ command ∈ d.sorts.map SortDecl.command ++ (d.inputs.map Variable.command ++
        d.constants.map fun k => constantCommand k.1 k.2),
        command.references = [] ∧ command.resources = [] := by
      simp only [List.forall_mem_append, List.forall_mem_map]
      exact ⟨fun _ _ => ⟨rfl, rfl⟩, fun _ _ => ⟨rfl, rfl⟩, fun _ _ => ⟨rfl, rfl⟩⟩
    have staged := (Command.staged_declarations d.tables d.functions shape.arrays
      uses).append_left apart
    simpa only [commands, resources, List.append_assoc] using staged
  · obtain ⟨scope, t, term, command⟩ := each a listed
    exact ⟨a.command t, by simp [commands, command], scope, t, term, .outside⟩

end Delta

/-- The fragments that were accepted at the base and in each open level, innermost first. -/
structure Ledger where
  base : List Delta
  levels : List (List Delta)

namespace Ledger

/-- Adds a fragment to the innermost level. -/
def add (l : Ledger) (d : Delta) : Ledger :=
  match l.levels with
  | [] => { l with base := l.base ++ [d] }
  | level :: outer => { l with levels := (level ++ [d]) :: outer }

/-- The fragments that were accepted and whose level is open, those of the outer levels
first. -/
def fragments (l : Ledger) : List Delta :=
  l.base ++ l.levels.reverse.flatten

def resources (ds : List Delta) : List Name :=
  ds.flatMap Delta.resources

theorem resources_append (ds es : List Delta) :
    resources (ds ++ es) = resources ds ++ resources es :=
  List.flatMap_append

/-- Beside a stack, level for level with the same declarations. -/
structure Matches (l : Ledger) (t : Stack) : Prop where
  base : Command.resourcesOf t.base = resources l.base
  levels : t.levels.map Command.resourcesOf = l.levels.map resources

theorem Matches.inForce {l : Ledger} {t : Stack} (beside : l.Matches t) :
    Command.resourcesOf t.inForce = resources l.fragments := by
  have commands : ∀ css : List (List Command),
      Command.resourcesOf css.flatten = (css.map Command.resourcesOf).flatten := by
    intro css
    induction css with
    | nil => rfl
    | cons cs rest ih => simp [Command.resourcesOf_append, ih]
  have fragments : ∀ dss : List (List Delta),
      resources dss.flatten = (dss.map resources).flatten := by
    intro dss
    induction dss with
    | nil => rfl
    | cons ds rest ih => simp [resources_append, ih]
  rw [Stack.inForce, Command.resourcesOf_append, commands, List.map_reverse, beside.base,
    beside.levels, Ledger.fragments, resources_append, fragments, List.map_reverse]

theorem Matches.add {l : Ledger} {t : Stack} (beside : l.Matches t) {d : Delta}
    {cs : List Command} (declared : Command.resourcesOf cs = d.resources) :
    (l.add d).Matches (t.add cs) := by
  obtain ⟨base, levels⟩ := l
  obtain ⟨commands, lists⟩ := t
  obtain ⟨same, each⟩ := beside
  have one : resources [d] = d.resources := by simp [resources]
  cases levels with
  | nil =>
    obtain rfl := List.map_eq_nil_iff.mp each
    exact ⟨by simp [Stack.add, Ledger.add, Command.resourcesOf_append, resources_append, one,
      declared, same], rfl⟩
  | cons level outer =>
    cases lists with
    | nil => cases each
    | cons list inner =>
      obtain ⟨first, rest⟩ := List.cons_eq_cons.mp each
      refine ⟨same, List.cons_eq_cons.mpr ⟨?_, rest⟩⟩
      simp [Command.resourcesOf_append, resources_append, one, declared, first]

/-- The ledger after a call of a session: an accepted fragment is added, a level that is
closed is dropped. -/
def after (solver : Capabilities) (s : Session) (l : Ledger) : Session.Call → Ledger
  | .fragment d => if (s.fragment solver d).isOk then l.add d else l
  | .push => { l with levels := [] :: l.levels }
  | .pop => if s.pop.isSome then { l with levels := l.levels.drop 1 } else l

/-- The ledger after calls of a session one after the other. -/
def run (solver : Capabilities) : Session → Ledger → List Session.Call → Ledger
  | _, l, [] => l
  | s, l, call :: calls => run solver (s.step solver call) (l.after solver s call) calls

end Ledger

namespace Session

variable {solver : Capabilities} {s : Session} {t : Stack} {l : Ledger}

/-- An accepted fragment declares its tables, arrays and functions before it refers to any. -/
theorem staged_fragment {d : Delta} {script : Script} {next : Session}
    (accepted : s.fragment solver d = .ok (script, next)) :
    Command.Staged d.resources script.commands ∧
      ∀ a ∈ d.assignments, ∃ command ∈ script.commands, ∃ scope t,
        a.term scope = .ok t ∧ command.Introducing a t := by
  obtain ⟨_, _, accepted⟩ := Except.bind_eq_ok.mp accepted
  obtain ⟨w, written, accepted⟩ := Except.bind_eq_ok.mp accepted
  cases accepted
  rw [Script.commands_ofCommands]
  exact Delta.staged_commands (Except.mapError_eq_ok.mp written)

theorem matches_step (mirrors : s.Mirrors t) (beside : l.Matches t) (call : Call) :
    (l.after solver s call).Matches ((told solver s call).foldl Stack.receive t) := by
  cases call with
  | fragment d =>
    cases answered : s.fragment solver d with
    | error e => simpa [Ledger.after, told, answered, Except.isOk, Except.toBool] using beside
    | ok result =>
      obtain ⟨cs, same, adds, -⟩ := mirrors.fragment answered
      have declared := (staged_fragment answered).1.resourcesOf_eq
      simp only [told, answered, Ledger.after, Except.isOk, Except.toBool, if_true]
      rw [same, Script.commands_ofCommands] at declared ⊢
      rw [Stack.foldl_receive adds.tells]
      exact beside.add declared
  | push =>
    refine ⟨beside.base, ?_⟩
    simp [told, Session.push, Stack.receive, Ledger.after, beside.levels, Command.resourcesOf,
      Ledger.resources]
  | pop =>
    cases closed : s.pop with
    | none => simpa [told, Ledger.after, closed] using beside
    | some result =>
      have command : result.1 = .pop 1 := by
        rw [Session.pop] at closed
        split at closed
        · cases closed
        · cases closed
          rfl
      refine ⟨?_, ?_⟩
      · simpa [told, Ledger.after, closed, command, Stack.receive] using beside.base
      · simp [told, Ledger.after, closed, command, Stack.receive, beside.levels]

/-- The ledger stays beside the stack of the solver through all calls. -/
theorem matches_run (mirrors : s.Mirrors t) (beside : l.Matches t) (calls : List Call) :
    (l.run solver s calls).Matches ((transcript solver s calls).foldl Stack.receive t) := by
  induction calls generalizing s t l with
  | nil => exact beside
  | cons call rest ih =>
    rw [transcript, List.foldl_append]
    exact ih (mirrors.step call) (matches_step mirrors beside call)

variable (solver)

/-- The fragments that a new session accepted on calls and whose level is open. -/
def openFragments (calls : List Call) : List Delta :=
  (Ledger.run solver start ⟨[], []⟩ calls).fragments

/-- The tables, arrays and functions that commands in force declare are those that the
fragments of open levels list. -/
theorem resourcesOf_inForce (calls : List Call) :
    Command.resourcesOf (inForce solver calls) =
      Ledger.resources (openFragments solver calls) :=
  (matches_run mirrors_start ⟨rfl, rfl⟩ calls).inForce

variable {solver}

/-- A fragment that is accepted is accepted without its declarations of tables, arrays and
functions. -/
theorem fragment_withoutResources {d : Delta} {script : Script} {next : Session}
    (accepted : s.fragment solver d = .ok (script, next)) :
    ∃ r, s.fragment solver d.withoutResources = .ok r := by
  obtain ⟨_, passed, accepted⟩ := Except.bind_eq_ok.mp accepted
  obtain ⟨w, written, -⟩ := Except.bind_eq_ok.mp accepted
  obtain ⟨parts, shape, -⟩ := Delta.commands_eq_ok (Except.mapError_eq_ok.mp written)
  have kinds : d.withoutResources.features.kinds ⊆ d.features.kinds := by
    intro k
    rw [Delta.features, Delta.features, Kind.mem_sorted, Kind.mem_sorted]
    simp only [List.mem_append]
    exact Or.imp_right fun listed =>
      Features.subset_declaredKinds d.sorts d.tables d.arrays d.functions listed
  have gate := Features.check_mono (Except.mapError_eq_ok.mp passed)
    (fun _ => Features.needs_mono kinds rfl rfl (Features.sorts_mono kinds)) rfl
  have commands : ∃ w', d.withoutResources.commands s.scope = .ok w' :=
    ⟨_, Except.bind_eq_ok.mpr ⟨[], rfl, Except.bind_eq_ok.mpr ⟨_, shape.definitions,
      Except.bind_eq_ok.mpr ⟨[], rfl, Except.bind_eq_ok.mpr
        ⟨_, Scope.forM_kind_eq_ok.mpr shape.known, rfl⟩⟩⟩⟩⟩
  obtain ⟨w', whole⟩ := commands
  exact ⟨_, Except.bind_eq_ok.mpr ⟨(), Except.mapError_eq_ok.mpr gate,
    Except.bind_eq_ok.mpr ⟨w', Except.mapError_eq_ok.mpr whole, rfl⟩⟩⟩

end Session

/-- In the script of an accepted program all declarations stand before the references. -/
theorem Script.staged_ofProgram {c : Config} {p : Program} {s : Script}
    (written : ofProgram c p = .ok s) :
    Command.Staged p.resources s.commands ∧
      ∀ a ∈ p.assignments, ∃ command ∈ s.commands, ∃ scope t,
        a.term scope = .ok t ∧ command.Introducing a t := by
  obtain ⟨_, _, built⟩ := Except.bind_eq_ok.mp written
  exact staged_body (Except.mapError_eq_ok.mp built)

/-- The commands before a line of a script stand before its command. -/
theorem Script.commands_split {s before after : Script} {command : Command}
    (split : s = before ++ .command command :: after) :
    s.commands = before.commands ++ command :: after.commands := by
  rw [split, commands_append]
  rfl

/-- An assignment that refers to a name is introduced by a command with this reference. -/
theorem Assignment.exists_reference {assignments : List Assignment} {cs : List Command}
    (each : ∀ a ∈ assignments, ∃ command ∈ cs, ∃ scope t,
      a.term scope = .ok t ∧ command.Introducing a t) :
    ∀ a ∈ assignments, ∀ n, a.op.name? = some n →
      ∃ command ∈ cs, (∃ t, command.Introducing a t) ∧ n ∈ command.references := by
  intro a listed n named
  obtain ⟨command, inside, scope, t, term, introducing⟩ := each a listed
  exact ⟨command, inside, ⟨t, introducing⟩,
    introducing.references (mem_names_of_term named term) (Op.not_isWord_of_name? named)⟩

open Command (resourcesOf)
open Session (run start openFragments inForce)

/-- An assignment that refers to a table, an array or a function is written exactly when it
has the right number of arguments and they are in scope. What it refers to is declared by an
earlier command of the script exactly when the program lists a declaration of it, and in a
session by an earlier command of the fragment or a command in force exactly when the fragment
or an accepted one of an open level lists a declaration. A program or fragment that is accepted
is accepted without these declarations too. -/
theorem references_declared_iff :
    (∀ (a : Assignment) (scope : Scope) (n : Name), a.op.name? = some n →
      ((∃ t, a.term scope = .ok t) ↔
        a.op.arity?.all (· = a.args.length) ∧
          ∀ id ∈ a.args, ∃ kind, scope.kind id = .ok kind)) ∧
    (∀ (c : Config) (p : Program) (s : Script), Script.ofProgram c p = .ok s →
      (∀ a ∈ p.assignments, ∀ n, a.op.name? = some n →
        ∃ command ∈ s.commands, (∃ t, command.Introducing a t) ∧ n ∈ command.references) ∧
      (∀ (before : Script) command after, s = before ++ .command command :: after →
        ∀ n ∈ command.references, n ∈ resourcesOf before.commands ↔ n ∈ p.resources) ∧
      ∃ s', Script.ofProgram c p.withoutResources = .ok s') ∧
    ∀ (solver : Capabilities) (calls : List Session.Call) (d : Delta) (script : Script)
      (next : Session), (run solver start calls).fragment solver d = .ok (script, next) →
      (∀ a ∈ d.assignments, ∀ n, a.op.name? = some n →
        ∃ command ∈ script.commands, (∃ t, command.Introducing a t) ∧ n ∈ command.references) ∧
      (∀ (before : Script) command after, script = before ++ .command command :: after →
        ∀ n ∈ command.references,
          (n ∈ resourcesOf before.commands ∨ n ∈ resourcesOf (inForce solver calls)) ↔
            n ∈ d.resources ∨ ∃ e ∈ openFragments solver calls, n ∈ e.resources) ∧
      ∃ r, (run solver start calls).fragment solver d.withoutResources = .ok r := by
  refine ⟨fun a scope n => Assignment.exists_term_iff, fun c p s written => ?_,
    fun solver calls d script next accepted => ?_⟩
  · obtain ⟨staged, each⟩ := Script.staged_ofProgram written
    refine ⟨Assignment.exists_reference each, fun before command after split n refers => ?_,
      Script.ofProgram_withoutResources written⟩
    rw [staged.resourcesOf_before (Script.commands_split split) refers]
  · obtain ⟨staged, each⟩ := Session.staged_fragment accepted
    refine ⟨Assignment.exists_reference each, fun before command after split n refers => ?_,
      Session.fragment_withoutResources accepted⟩
    rw [staged.resourcesOf_before (Script.commands_split split) refers,
      Session.resourcesOf_inForce, Ledger.resources, List.mem_flatMap]

/-- A table of one place and two assignments: one refers to a function that is not listed, the
other to the table. -/
def Delta.lookup : Delta where
  sorts := []
  inputs := [⟨⟨0⟩, "x", .word 8⟩]
  constants := []
  tables := [⟨0, .word 8, .bool, [⟨1⟩]⟩]
  arrays := []
  functions := []
  assignments := [⟨⟨1⟩, .bool, .function "f", [⟨0⟩]⟩, ⟨⟨2⟩, .bool, .table 0, [⟨0⟩]⟩]
  assertions := [⟨2⟩]

/-- One input and a place of a table that is not listed. -/
def Program.unlisted : Program where
  polarity := .satisfy
  sorts := []
  inputs := [⟨.exist, ⟨⟨0⟩, "x", .word 8⟩⟩]
  constants := []
  tables := []
  arrays := []
  functions := []
  assumptions := []
  assignments := [⟨⟨1⟩, .bool, .table 7, [⟨0⟩]⟩]
  constraints := []
  output := ⟨1⟩
  objectives := []
  style := .lexicographic

/-- A place of a table is written for a word in scope, listed or not. Where it is not listed,
the reference has no declaration in front of it. In a level above a fragment that lists the
function, both references of the other fragment are to declared names. -/
theorem references_declared_iff_level :
    (∃ t, Assignment.term ⟨⟨1⟩, .bool, .table 7, [⟨0⟩]⟩
      (Scope.declare [] ⟨0⟩ (.word 8) true) = .ok t) ∧
    (∃ s, Script.ofProgram .standard .unlisted = .ok s ∧
      ∀ (before : Script) command after, s = before ++ .command command :: after →
        .table 7 ∈ command.references → .table 7 ∉ resourcesOf before.commands) ∧
    ∃ calls script next,
      (run Config.standard.capabilities start calls).fragment Config.standard.capabilities
        .lookup = .ok (script, next) ∧
      ∀ (before : Script) command after, script = before ++ .command command :: after →
        ∀ n ∈ command.references, n = .table 0 ∨ n = .function "f" →
          n ∈ resourcesOf before.commands ∨
            n ∈ resourcesOf (inForce Config.standard.capabilities calls) := by
  obtain ⟨terms, programs, fragments⟩ := references_declared_iff
  refine ⟨?_, ⟨_, rfl, fun before command after split refers => ?_⟩,
    [.fragment { Delta.lookup with functions := [⟨"f", [.word 8], .bool⟩] }, .push], _, _, rfl,
    fun before command after split n refers which => ?_⟩
  · exact (terms _ _ (.table 7) rfl).mpr ⟨rfl, by simpa using ⟨_, rfl⟩⟩
  · obtain ⟨-, declared, -⟩ := programs .standard .unlisted _ rfl
    rw [declared before command after split _ refers]
    decide
  · obtain ⟨-, declared, -⟩ := fragments Config.standard.capabilities
      [.fragment { Delta.lookup with functions := [⟨"f", [.word 8], .bool⟩] }, .push] .lookup _ _
      rfl
    refine (declared before command after split n refers).mpr ?_
    rcases which with rfl | rfl
    · exact .inl (by decide)
    · exact .inr ⟨_, List.mem_singleton.mpr rfl, by decide⟩

/-- The program is accepted, and it refers to a table that none of its lines declares. -/
theorem Script.ofProgram_unlisted :
    ∃ s, ofProgram .standard .unlisted = .ok s ∧ Program.unlisted.assumptions = [] ∧
      ∃ a ∈ Program.unlisted.assignments, a.op.name? = some (.table 7) ∧
        (∃ command ∈ s.commands, .table 7 ∈ command.references) ∧
        .table 7 ∉ resourcesOf s.commands := by
  refine ⟨_, rfl, rfl, _, List.mem_singleton.mpr rfl, rfl, ?_⟩
  obtain ⟨staged, each⟩ := staged_ofProgram (c := .standard) (p := .unlisted) rfl
  obtain ⟨command, inside, -, refers⟩ := Assignment.exists_reference each _
    (List.mem_singleton.mpr rfl) (.table 7) rfl
  refine ⟨⟨command, inside, refers⟩, ?_⟩
  rw [staged.resourcesOf_eq]
  decide

end SmtDialogue
