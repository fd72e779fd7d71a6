import SmtDialogue.Proofs.Contents
import SmtDialogue.Proofs.Contexts
import SmtDialogue.Proofs.Dependencies

/-!
# Queries are well scoped

The commands of a query are followed in order, with the words that are visible at each of
them. Outside the quantified assertion these are the words that depend on no universal
input, and the functions for the inputs under one. Inside it, the universal inputs are
bound first, then the values of these functions, then the words that depend on them; so
every word of the program has been seen when the body of the assertion is reached.
-/

namespace SmtDialogue

namespace Script

open Program.Layout (innerWords)

variable {p : Program} {ds : List Definition} {parts : Parts p} {known : WordId → Prop}

theorem over_goalTerm (output : known p.output) : (goalTerm p).Over known := by
  rw [goalTerm]
  split <;> simpa using output

theorem over_conjunction (each : ∀ id ∈ p.constraints ++ [p.output], known id) :
    (conjunction p).Over known := by
  have goal := over_goalTerm (p := p) (each _ (by simp))
  rw [conjunction]
  split
  · exact goal
  · rw [Term.over_call]
    intro t ht
    rcases List.mem_append.mp ht with constraint | output
    · obtain ⟨id, listed, rfl⟩ := List.mem_map.mp constraint
      simpa using each id (List.mem_append_left _ listed)
    · rwa [List.mem_singleton.mp output]

/-- The universal inputs as the quantified assertion binds them. -/
def binders (p : Program) : Context :=
  ((universalsOf p.quantifier p.inputs).map fun u => (u.id, Signature.constant u.kind)).reverse

theorem mem_binders {id : WordId} : id ∈ (binders p).map Prod.fst ↔
    id ∈ (universalsOf p.quantifier p.inputs).map Variable.id := by
  simp [binders]

theorem distinct_binders (distinct : (p.words.map Prod.fst).Nodup) :
    ((binders p).map Prod.fst).Nodup := by
  have sublist : ((universalsOf p.quantifier p.inputs).map Variable.id).Sublist
      (p.inputs.map fun i => i.var.id) := by
    simpa [universalsOf, Function.comp_def] using
      (List.filter_sublist (p := fun i => decide (p.quantifier i = .all)) (l := p.inputs)).map
        fun i => i.var.id
  simpa [binders, Function.comp_def] using
    (Program.distinct_inputs distinct).sublist sublist

theorem universal_word {u : Variable} (universal : u ∈ universalsOf p.quantifier p.inputs) :
    (u.id, u.kind) ∈ inputWords p.inputs := by
  obtain ⟨i, hi, _, rfl⟩ := (mem_universalsOf _).mp universal
  exact List.mem_map_of_mem hi

theorem inputWords_subset : inputWords p.inputs ⊆ p.words := by
  rw [p.words_eq, List.append_assoc]
  exact List.subset_append_left _ _

/-- The words that are seen behind the binders, before anything is bound to a term. -/
def boundFirst (p : Program) (ds : List Definition) : List (WordId × Kind) :=
  p.words.filter fun w =>
    w.1 ∉ (skolemsOf p.quantifier [] p.inputs).map Prod.fst ++ Definition.opened ds

theorem mem_boundFirst {w : WordId × Kind} : w ∈ boundFirst p ds ↔ w ∈ p.words ∧
    w.1 ∉ (skolemsOf p.quantifier [] p.inputs).map Prod.fst ∧ w.1 ∉ Definition.opened ds := by
  simp only [boundFirst, List.mem_filter, List.mem_append, not_or, decide_eq_true_eq]

theorem sees_boundFirst (layout : p.Layout ds) {ctx : Context}
    (sees : ctx.SeesOuter p.words (innerWords p ds)) :
    Context.Sees (binders p ++ ctx) (boundFirst p ds) := by
  intro w member
  obtain ⟨listed, notSkolem, notOpened⟩ := mem_boundFirst.mp member
  by_cases universal : w.1 ∈ (universalsOf p.quantifier p.inputs).map Variable.id
  · obtain ⟨u, hu, name⟩ := List.mem_map.mp universal
    have declared : (u.id, Signature.constant u.kind) ∈ binders p :=
      List.mem_reverse.mpr (List.mem_map.mpr ⟨u, hu, rfl⟩)
    have bound := Context.lookup_of_mem (distinct_binders layout.distinct) declared
    have same : (u.id, u.kind) = w :=
      List.inj_on_of_nodup_map layout.distinct (inputWords_subset (universal_word hu)) listed name
    rw [← same, List.lookup_append, bound, Option.some_or]
  · rw [Context.lookup_append_of_notMem fun bound => universal (mem_binders.mp bound)]
    refine sees w listed fun inside => ?_
    rcases List.mem_append.mp inside with input | opened
    · exact ((mem_innerInputs _).mp input).elim universal notSkolem
    · exact notOpened opened

theorem hidden_word {k : Skolem} (listed : k ∈ hiddenInputs p.quantifier [] p.inputs) :
    k.word ∈ p.words ∧ k.var.id ∈ (skolemsOf p.quantifier [] p.inputs).map Prod.fst := by
  rw [skolemNames_eq]
  exact ⟨inputWords_subset (hidden_mem_signatures listed).2.1,
    List.mem_map_of_mem (List.mem_map_of_mem listed)⟩

/-- With the inputs under universal ones, no word is bound twice. -/
theorem distinct_boundFirst (distinct : (p.words.map Prod.fst).Nodup) :
    ((boundFirst p ds ++ (hiddenInputs p.quantifier [] p.inputs).map Skolem.word).map
      Prod.fst).Nodup := by
  rw [List.map_append, ← skolemNames_eq, List.nodup_append]
  refine ⟨distinct.sublist (List.filter_sublist.map _),
    (Program.distinct_inputs distinct).sublist (sublist_skolemsOf _ _ _), ?_⟩
  rintro _ first _ skolem rfl
  obtain ⟨w, hw, rfl⟩ := List.mem_map.mp first
  exact (mem_boundFirst.mp hw).2.1 skolem

/-- Behind the values of inputs under universal ones all inputs and constants are seen. -/
theorem sees_outer (layout : p.Layout ds) {ctx : Context}
    (seen : ctx.Sees (boundFirst p ds ++ (hiddenInputs p.quantifier [] p.inputs).map Skolem.word)) :
    ctx.Sees (inputWords p.inputs ++ p.constantWords) := by
  intro w member
  have listed : w ∈ p.words := by
    rw [layout.words_eq]
    exact List.mem_append_left _ member
  by_cases skolem : w.1 ∈ (skolemsOf p.quantifier [] p.inputs).map Prod.fst
  · rw [skolemNames_eq] at skolem
    obtain ⟨v, hidden, name⟩ := List.mem_map.mp skolem
    obtain ⟨k, hk, rfl⟩ := List.mem_map.mp hidden
    have same : k.word = w :=
      List.inj_on_of_nodup_map layout.distinct (hidden_word hk).1 listed name
    exact same ▸ seen k.word (List.mem_append_right _ hidden)
  · refine seen w (List.mem_append_left _ (mem_boundFirst.mpr ⟨listed, skolem, fun opened => ?_⟩))
    exact layout.follow.opened_fresh _ opened (List.mem_map_of_mem member)

/-- The definitions outside are seen before anything is bound to a term. -/
theorem closed_mem_boundFirst (layout : p.Layout ds) {d : Definition} (listed : d ∈ ds)
    (closed : d.closed = true) : d.word ∈ boundFirst p ds := by
  have apart := (layout.follow.closed_apart (Program.Layout.innerInputs_outer p) d listed closed).1
  rw [List.mem_append, not_or] at apart
  refine mem_boundFirst.mpr ⟨?_, fun skolem => ?_, apart.2⟩
  · rw [layout.words_eq]
    exact List.mem_append_right _ (List.mem_map_of_mem listed)
  · exact apart.1 ((mem_innerInputs _).mpr (.inr skolem))

/-- The quantified assertion sees every word of the program in the end. -/
theorem visible_quantified (layout : p.Layout ds)
    (each : ∀ id ∈ p.constraints ++ [p.output], id ∈ p.words.map Prod.fst) {ctx : Context}
    (sees : ctx.SeesOuter p.words (innerWords p ds))
    (functions : ∀ k ∈ hiddenInputs p.quantifier [] p.inputs,
      ctx.lookup k.var.id = some k.signature) :
    Term.VisibleBehind p (conjunction p) (binders p ++ ctx)
      ((hiddenInputs p.quantifier [] p.inputs).map Skolem.binding ++
        (ds.filter fun d => !d.closed).map Definition.binding) := by
  have kinds := fun w (listed : w ∈ p.words) => Program.wordKind?_of_mem layout.distinct listed
  have notSkolem : ∀ id ∈ (universalsOf p.quantifier p.inputs).map Variable.id,
      id ∉ (skolemsOf p.quantifier [] p.inputs).map Prod.fst :=
    fun id universal => notMem_skolemsOf _ (Program.distinct_inputs layout.distinct) [] universal
  refine visibleBehind_skolems (sees_boundFirst layout sees) (fun w member => kinds w ?_)
    (distinct_boundFirst layout.distinct) (fun k hk u hu => ?_) (fun k hk => ?_) fun next seen => ?_
  · rcases List.mem_append.mp member with first | hidden
    · exact (mem_boundFirst.mp first).1
    · obtain ⟨k, hk, rfl⟩ := List.mem_map.mp hidden
      exact (hidden_word hk).1
  · have universal := ((hidden_mem_signatures hk).2.2 u hu).resolve_left List.not_mem_nil
    have word := universal_word universal
    refine mem_boundFirst.mpr ⟨inputWords_subset word, notSkolem _ (List.mem_map_of_mem universal),
      fun opened => ?_⟩
    refine layout.follow.opened_fresh _ opened ?_
    rw [List.map_append]
    exact List.mem_append_left _ (List.mem_map_of_mem word)
  · rw [Context.lookup_append_of_notMem fun bound =>
      notSkolem _ (mem_binders.mp bound) (hidden_word hk).2]
    exact functions k hk
  · have outside : ∀ d ∈ ds, d.closed = true →
        next.lookup d.assignment.id = some (.constant d.assignment.kind) := fun d hd closed =>
      seen d.word (List.mem_append_left _ (closed_mem_boundFirst layout hd closed))
    refine layout.follow.visibleBehind (sees_outer layout seen) outside ?_ fun last all => ?_
    · rw [← layout.words_eq]
      exact kinds
    · rw [← layout.words_eq] at all
      exact (over_conjunction each).visible fun id known => all.shows kinds known

theorem leads_assertions (layout : p.Layout ds) (arranged : parts.Arranged ds)
    (each : ∀ id ∈ p.constraints ++ [p.output], id ∈ p.words.map Prod.fst) {ctx : Context}
    (sees : ctx.SeesOuter p.words (innerWords p ds))
    (functions : ∀ k ∈ hiddenInputs p.quantifier [] p.inputs,
      ctx.lookup k.var.id = some k.signature) :
    Leads p (innerWords p ds) (assertions p (opening p) parts.definitions.bindings) ctx ctx := by
  obtain ⟨_, universals, skolems⟩ := opening_eq p
  have kinds := fun w (listed : w ∈ p.words) => Program.wordKind?_of_mem layout.distinct listed
  rw [assertions, universals, skolems, arranged.bindings]
  split
  · next none =>
    have nothing := layout.innerWords_eq_nil (List.isEmpty_iff.mp none)
    have shown : ∀ id ∈ p.constraints ++ [p.output],
        ctx.Shows p id ∧ id ∉ innerWords p ds := by
      intro id member
      have outer : id ∉ innerWords p ds := by simp [nothing]
      exact ⟨sees.shows kinds (each id member) outer, outer⟩
    refine .of_settled fun c member => ?_
    rcases List.mem_append.mp member with constraint | output
    · obtain ⟨id, listed, rfl⟩ := List.mem_map.mp constraint
      have word : (Term.word id).Over fun id => ctx.Shows p id ∧ id ∉ innerWords p ds := by
        simpa using shown id (List.mem_append_left _ listed)
      exact ⟨word, rfl⟩
    · have goal : (goalTerm p).Over fun id => ctx.Shows p id ∧ id ∉ innerWords p ds :=
        over_goalTerm (shown _ (by simp))
      rw [List.mem_singleton.mp output]
      exact ⟨goal, rfl⟩
  · have visible := visible_quantified layout each sees functions
    refine ⟨fun levels => ⟨?_, trivial⟩, fun _ => rfl, by simp [Command.IsQuantified], ?_⟩
    · rw [← skolemBindings_eq] at visible
      simpa [Command.Visible, binders, Function.comp_def, conjunction] using visible
    · intro c member id bound
      rw [List.mem_singleton.mp member] at bound
      simp only [Command.lets, List.map_append, List.mem_append, List.map_map] at bound
      rcases bound with skolem | opened
      · exact List.mem_append_left _ ((mem_innerInputs _).mpr (.inr skolem))
      · exact List.mem_append_right _ opened

/-- What the declarations of inputs and the constants make visible. -/
def outerContext (p : Program) : Context :=
  (p.constants.map fun k => (k.1, Signature.constant k.2.kind)).reverse ++
    (signatures p.quantifier [] p.inputs).reverse

theorem distinct_outerContext (distinct : (p.words.map Prod.fst).Nodup) :
    ((outerContext p).map Prod.fst).Nodup := by
  have inputs : ((signatures p.quantifier [] p.inputs).map Prod.fst).Sublist
      ((inputWords p.inputs).map Prod.fst) := by
    simpa [inputWords, Function.comp_def] using sublist_signatures
  have constants : (p.constants.map fun k => (k.1, Signature.constant k.2.kind)).map Prod.fst =
      p.constantWords.map Prod.fst := by
    simp [Program.constantWords]
  rw [p.words_eq, List.map_append, List.map_append] at distinct
  have front := (List.nodup_append.mp distinct).1.sublist (inputs.append (.refl _))
  rw [outerContext, ← List.reverse_append, List.map_reverse, List.nodup_reverse, List.map_append,
    constants]
  exact front

theorem sees_outerContext (distinct : (p.words.map Prod.fst).Nodup) :
    (outerContext p).SeesOuter (inputWords p.inputs ++ p.constantWords)
      (innerInputs p.quantifier [] p.inputs) := by
  intro w member outer
  refine Context.lookup_of_mem (e := (w.1, .constant w.2)) (distinct_outerContext distinct) ?_
  rcases List.mem_append.mp member with input | constant
  · obtain ⟨i, hi, rfl⟩ := List.mem_map.mp input
    exact List.mem_append_right _ (List.mem_reverse.mpr (outer_mem_signatures hi outer))
  · obtain ⟨k, hk, rfl⟩ := List.mem_map.mp constant
    exact List.mem_append_left _ (List.mem_reverse.mpr (List.mem_map.mpr ⟨k, hk, rfl⟩))

theorem lookup_hidden (distinct : (p.words.map Prod.fst).Nodup) {k : Skolem}
    (listed : k ∈ hiddenInputs p.quantifier [] p.inputs) :
    (outerContext p).lookup k.var.id = some k.signature :=
  Context.lookup_of_mem (distinct_outerContext distinct)
    (List.mem_append_right _ (List.mem_reverse.mpr (hidden_mem_signatures listed).1))

theorem mem_declarations_over {before : List Variable} {inputs : List Input} {c : Command}
    (member : c ∈ declarations p.quantifier before inputs) : c.Over fun _ => False := by
  obtain ⟨i, _, rfl | ⟨us, _, rfl⟩⟩ := mem_declarations p.quantifier member <;> trivial

/-- The commands above the definitions show the inputs and the constants. -/
theorem leads_outer (p : Program) (apart : List WordId) (c : Config) (f : Features) :
    Leads p apart ((header c p f).commands ++
      (p.sorts.map SortDecl.command ++ ((opening p).commands ++
        (p.constants.map (fun k => constantCommand k.1 k.2) ++ p.tables.map Table.command))))
      [] (outerContext p) := by
  have settings : Leads p apart (header c p f).commands [] [] := by
    refine .of_settled fun command member => ?_
    have silent := silent_header c p _ command member
    cases command <;> first | exact silent.elim | exact ⟨trivial, rfl⟩
  have sorts : Leads p apart (p.sorts.map SortDecl.command) [] [] := by
    refine .of_settled fun command member => ?_
    obtain ⟨s, _, rfl⟩ := List.mem_map.mp member
    exact ⟨trivial, rfl⟩
  have inputs : Leads p apart (opening p).commands []
      (signatures p.quantifier [] p.inputs).reverse := by
    rw [(opening_eq p).1]
    have declared := @Leads.of_idle p apart _ []
      fun c (member : c ∈ declarations p.quantifier [] p.inputs) => mem_declarations_over member
    rwa [filterMap_declarations, List.append_nil] at declared
  have constants : Leads p apart (p.constants.map fun k => constantCommand k.1 k.2)
      (signatures p.quantifier [] p.inputs).reverse (outerContext p) := by
    have literal : ∀ c ∈ p.constants.map fun k => constantCommand k.1 k.2,
        c.Over fun _ => False := by
      intro c member
      obtain ⟨k, _, rfl⟩ := List.mem_map.mp member
      have value : (Term.literal k.2).Over fun _ => False := Term.over_literal k.2
      exact value
    have shown : (p.constants.map fun k => constantCommand k.1 k.2).filterMap Command.signature? =
        p.constants.map fun k => (k.1, .constant k.2.kind) := by
      rw [List.filterMap_map]
      exact congrFun List.filterMap_eq_map p.constants
    have declared := @Leads.of_idle p apart _ (signatures p.quantifier [] p.inputs).reverse literal
    rw [shown] at declared
    exact declared
  have tables : Leads p apart (p.tables.map Table.command) (outerContext p) (outerContext p) := by
    refine .of_settled fun command member => ?_
    obtain ⟨t, _, rfl⟩ := List.mem_map.mp member
    exact ⟨trivial, rfl⟩
  exact settings.append (sorts.append (inputs.append (constants.append tables)))

section

variable (layout : p.Layout ds) (arranged : parts.Arranged ds) {ctx : Context}

include layout arranged

/-- A word that was required to be outside is seen, and is none of those set apart. -/
theorem shows_requireTop (sees : ctx.SeesOuter p.words (innerWords p ds)) {id : WordId}
    (passed : parts.definitions.scope.requireTop id = .ok ()) :
    ctx.Shows p id ∧ id ∉ innerWords p ds := by
  have kinds := fun w (listed : w ∈ p.words) => Program.wordKind?_of_mem layout.distinct listed
  obtain ⟨known, outer⟩ := (arranged.scope.top id).mp (Scope.requireTop_eq_ok.mp passed)
  exact ⟨sees.shows kinds known outer, outer⟩

theorem leads_arrays (shape : parts.Written) :
    Leads p (innerWords p ds) parts.arrays (outerContext p) (outerContext p) := by
  have kinds := fun w (listed : w ∈ p.words) => Program.wordKind?_of_mem layout.distinct listed
  refine .of_settled fun command member => ?_
  obtain ⟨a, _, written⟩ := shape.arrays.exists_of_mem_right member
  obtain rfl | ⟨default, passed, rfl⟩ := ArrayDecl.command_eq_ok written
  · exact ⟨trivial, rfl⟩
  · obtain ⟨known, outer⟩ := (arranged.outer.top default).mp (Scope.requireTop_eq_ok.mp passed)
    have sees := sees_outerContext layout.distinct
    have shown : (outerContext p).Shows p default ∧ default ∉ innerWords p ds := by
      refine ⟨sees.shows (fun w listed => kinds w ?_) known outer, ?_⟩
      · rw [layout.words_eq]
        exact List.mem_append_left _ listed
      · rw [innerWords, List.mem_append, not_or]
        exact ⟨outer, fun opened => layout.follow.opened_fresh _ opened known⟩
    have body : (Term.apply (.everywhere (.array a.index a.elem)) [.word default]).Over fun id =>
        (outerContext p).Shows p id ∧ id ∉ innerWords p ds := by
      simpa [Term.Over, Term.OverAll, Term.word] using shown
    exact ⟨body, rfl⟩

theorem leads_entries (shape : parts.Written) (sees : ctx.SeesOuter p.words (innerWords p ds)) :
    Leads p (innerWords p ds) parts.entries.flatten ctx ctx := by
  refine .of_settled fun command member => ?_
  obtain ⟨t, _, _, element, written⟩ := Table.exists_of_mem_entries shape.entries member
  obtain ⟨passed, index, _, rfl⟩ := Table.entryCommand_eq_ok written
  have shown := shows_requireTop layout arranged sees passed
  have equation : (Term.call "=" [.call "select" [.name (.table t.id), .literal index],
      .word element]).Over fun id => ctx.Shows p id ∧ id ∉ innerWords p ds := by
    simpa [Term.Over] using shown
  exact ⟨equation, rfl⟩

theorem over_objective (shape : parts.Written) (sees : ctx.SeesOuter p.words (innerWords p ds)) :
    ∀ o ∈ p.objectives, (o.command.Over fun id => ctx.Shows p id ∧ id ∉ innerWords p ds) ∧
      o.command.signature? = none := by
  intro o listed
  have shown := shows_requireTop layout arranged sees (shape.objectives o listed)
  rw [Objective.command]
  split <;> exact ⟨shown, rfl⟩

end

/-- The script of a program is well scoped, without the commands that run it. -/
theorem leads_body {c : Config} {f : Features} {s : Script}
    (distinct : (p.words.map Prod.fst).Nodup) (built : body c p f = .ok s) :
    ∃ ds, p.Layout ds ∧ ∃ next : Context, next.SeesOuter p.words (innerWords p ds) ∧
      Leads p (innerWords p ds) s.commands [] next ∧
      ∀ o ∈ p.objectives, (o.command.Over fun id => next.Shows p id ∧ id ∉ innerWords p ds) ∧
        o.command.signature? = none := by
  obtain ⟨parts, shape, _, commands⟩ := body_eq_ok built
  obtain ⟨ds, layout, arranged⟩ := shape.layout distinct
  have kinds := fun w (listed : w ∈ p.words) => Program.wordKind?_of_mem distinct listed
  have functions : Leads p (innerWords p ds) (p.functions.map FunctionDecl.command)
      (outerContext p) (outerContext p) := by
    refine .of_settled fun command member => ?_
    obtain ⟨d, _, rfl⟩ := List.mem_map.mp member
    exact ⟨trivial, rfl⟩
  obtain ⟨next, definitions, sees, kept⟩ := layout.follow.leads (sees_outerContext distinct)
    (Program.Layout.innerInputs_outer p) (by rwa [← layout.words_eq])
  rw [← layout.words_eq] at sees
  rw [← arranged.commands] at definitions
  have each := arranged.known shape
  have hidden : ∀ k ∈ hiddenInputs p.quantifier [] p.inputs,
      next.lookup k.var.id = some k.signature := by
    intro k hk
    rw [kept k.var.id, lookup_hidden distinct hk]
    rw [List.map_append]
    exact List.mem_append_left _ (List.mem_map_of_mem (hidden_mem_signatures hk).2.1)
  have objectives := over_objective layout arranged shape sees
  have shared : Leads p (innerWords p ds) (sharedObjectives p) next next := by
    rw [sharedObjectives]
    split
    · exact .nil
    · refine .of_settled fun command member => ?_
      obtain ⟨o, listed, rfl⟩ := List.mem_map.mp member
      exact objectives o listed
  have above := leads_outer p (innerWords p ds) c f
  have below := (leads_arrays layout arranged shape).append (functions.append (definitions.append
    ((leads_entries layout arranged shape sees).append
      ((leads_assertions layout arranged each sees hidden).append shared))))
  have whole := above.append below
  refine ⟨ds, layout, next, sees, ?_, objectives⟩
  rw [commands]
  simpa using whole

/-- The commands that print one model ask for inputs before every universal one. -/
theorem leads_readback (layout : p.Layout ds) {ctx : Context}
    (sees : ctx.SeesOuter p.words (innerWords p ds)) :
    Leads p (innerWords p ds) (readback p) ctx ctx := by
  have kinds := fun w (listed : w ∈ p.words) => Program.wordKind?_of_mem layout.distinct listed
  have values : ∀ id ∈ p.modelInputs, ctx.Shows p id ∧ id ∉ innerWords p ds := by
    intro id member
    obtain ⟨known, outer⟩ := modelInputs_outer (Program.distinct_inputs layout.distinct) id member
    have outside : id ∉ innerWords p ds := by
      rw [innerWords, List.mem_append, not_or]
      refine ⟨outer, fun opened => layout.follow.opened_fresh _ opened ?_⟩
      rw [List.map_append]
      exact List.mem_append_left _ known
    exact ⟨sees.shows kinds (List.map_subset _ inputWords_subset known) outside, outside⟩
  refine .of_settled fun command member => ?_
  rw [readback, List.mem_append, List.mem_append, List.mem_singleton] at member
  rcases member with (rfl | objectives) | asked
  · exact ⟨trivial, rfl⟩
  · split at objectives
    · cases objectives
    · rw [List.mem_singleton.mp objectives]
      exact ⟨trivial, rfl⟩
  · split at asked
    · cases asked
    · rw [List.mem_singleton.mp asked]
      exact ⟨values, rfl⟩

theorem leads_separated {apart : List WordId} {ctx : Context} {sentinel : String}
    {blocks : List (List Command)} (each : ∀ block ∈ blocks, Leads p apart block ctx ctx) :
    Leads p apart (separated sentinel blocks) ctx ctx := by
  induction blocks with
  | nil => exact .nil
  | cons block rest ih =>
    obtain ⟨first, others⟩ := List.forall_mem_cons.mp each
    cases rest with
    | nil => exact first
    | cons next more =>
      have echo : Leads p apart [.echo sentinel] ctx ctx := .of_over trivial
      exact (first.append echo).append (ih others)

theorem leads_runs (c : Config) (layout : p.Layout ds) {ctx : Context}
    (sees : ctx.SeesOuter p.words (innerWords p ds))
    (objectives : ∀ o ∈ p.objectives,
      (o.command.Over fun id => ctx.Shows p id ∧ id ∉ innerWords p ds) ∧
        o.command.signature? = none) :
    Leads p (innerWords p ds) (runs c p) ctx ctx := by
  have readback := leads_readback layout sees
  refine leads_separated fun block listed => ?_
  simp only [blocks] at listed
  split at listed
  · split at listed
    · rwa [List.mem_singleton.mp listed]
    · obtain ⟨o, ho, rfl⟩ := List.mem_map.mp listed
      have objective : Leads p (innerWords p ds) [o.command] ctx ctx :=
        .of_settled (by simpa using objectives o ho)
      exact (objective.append readback).level
  · rwa [List.eq_of_mem_replicate listed]
  · rwa [List.mem_singleton.mp listed]

/-- A query is well scoped: each word that stands in a command is visible there, as what it
is used for and of the kind that the program gives it. No command but the quantified
assertion uses an input from the first universal one on, or a word that is bound in the
assertion. -/
theorem wellScoped_query {c : Config} {s : Script} (distinct : (p.words.map Prod.fst).Nodup)
    (written : query c p = .ok s) :
    Command.WellScoped p [[]] s.commands ∧
      ∀ command ∈ s.commands, ¬command.IsQuantified → ∀ id ∈ command.words,
        id ∉ Features.varyingInputs p ∧ ∀ other ∈ s.commands, id ∉ other.lets := by
  obtain ⟨_, script, built, rfl⟩ := query_eq_ok written
  obtain ⟨ds, layout, next, sees, body, objectives⟩ := leads_body distinct built
  have whole := body.append (leads_runs c layout sees objectives)
  rw [commands_append, commands_ofCommands]
  refine ⟨whole.visible [], fun command member outside id used => ?_⟩
  have apart := (whole.outside command member).resolve_left outside id used
  refine ⟨fun varying => apart ?_, fun other listed bound => apart ?_⟩
  · exact List.mem_append_left _ (mem_varyingInputs.mp varying)
  · exact whole.lets other listed id bound

end Script

namespace Script

/-- A program with an input on each side of a universal one, words that depend on it and
words that do not, and places outside that refer to the latter. -/
def layered : Program where
  polarity := .satisfy
  sorts := []
  inputs := [⟨.exist, ⟨⟨0⟩, "x", .word 8⟩⟩, ⟨.all, ⟨⟨1⟩, "y", .word 8⟩⟩,
    ⟨.exist, ⟨⟨2⟩, "z", .word 8⟩⟩]
  constants := [(⟨3⟩, .ofWord 8 1)]
  tables := [⟨0, .word 8, .word 8, [⟨3⟩, ⟨4⟩]⟩]
  arrays := [⟨0, "a", .word 8, .word 8, some ⟨0⟩⟩]
  functions := []
  assumptions := []
  assignments := [⟨⟨4⟩, .word 8, .plus, [⟨0⟩, ⟨3⟩]⟩, ⟨⟨5⟩, .word 8, .plus, [⟨2⟩, ⟨4⟩]⟩,
    ⟨⟨6⟩, .word 8, .table 0, [⟨1⟩]⟩, ⟨⟨7⟩, .bool, .equal, [⟨5⟩, ⟨6⟩]⟩,
    ⟨⟨8⟩, .bool, .less, [⟨0⟩, ⟨4⟩]⟩]
  constraints := [⟨8⟩]
  output := ⟨7⟩
  objectives := [⟨"low", ⟨4⟩, .minimize⟩]
  style := .independent

theorem still_layered : (Features.ofProgram layered).universalObjectives = [] := by
  have dependencies : layered.dependencies ⟨4⟩ = [⟨3⟩, ⟨0⟩, ⟨4⟩] := by
    rw [Program.dependencies, Program.reach_some rfl, List.append_nil, Program.reach_none rfl,
      Program.reach_none rfl, Program.reach]
  have still : Features.varies layered ⟨"low", ⟨4⟩, .minimize⟩ = false := by
    simp only [Features.varies, Program.inputDependencies, dependencies]
    decide
  have objectives : layered.objectives = [⟨"low", ⟨4⟩, .minimize⟩] := rfl
  simp [Features.ofProgram, objectives, still]

theorem wellScoped_query_layered :
    (layered.words.map Prod.fst).Nodup ∧ ∃ s, query .standard layered = .ok s ∧
      Command.WellScoped layered [[]] s.commands ∧
        ∀ command ∈ s.commands, ¬command.IsQuantified → ∀ id ∈ command.words,
          id ∉ Features.varyingInputs layered ∧ ∀ other ∈ s.commands, id ∉ other.lets := by
  have distinct : (layered.words.map Prod.fst).Nodup := by decide
  have checked : (Features.ofProgram layered).check Config.standard.capabilities = .ok () := by
    rw [Features.check, still_layered]
    rfl
  obtain ⟨script, built⟩ : ∃ script,
      body Config.standard layered (Features.ofProgram layered) = .ok script := ⟨_, rfl⟩
  have program : ofProgram Config.standard layered = .ok script :=
    Except.bind_eq_ok.mpr
      ⟨(), Except.mapError_eq_ok.mpr checked, Except.mapError_eq_ok.mpr built⟩
  obtain ⟨s, written⟩ : ∃ s, query .standard layered = .ok s :=
    ⟨_, Except.bind_eq_ok.mpr ⟨script, program, rfl⟩⟩
  exact ⟨distinct, s, written, wellScoped_query distinct written⟩

end Script

end SmtDialogue
