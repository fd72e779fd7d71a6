import SmtDialogue.Proofs.Contents
import SmtDialogue.Proofs.Piecewise

/-!
# What the gate lets through

The features of a program or fragment are collected before any text is written. Here
they are compared with the commands that are written: every sort a command names and
every kind of command needs a feature that was collected, so the solver supports it. A
logic of bit vectors is inferred only when nothing but truth values and words occurs.
-/

namespace SmtDialogue

/-- The feature that a sort of this kind needs. -/
def Kind.feature? : Kind → Option Feature
  | .integer => some .integers
  | .real => some .reals
  | .float | .double => some .floats
  | .sort _ _ => some .sorts
  | .bool | .bits _ _ | .string | .char => none

def NameSort.kinds : NameSort → List Kind
  | .value kind => [kind]
  | .array index elem => [index, elem]

namespace Term

mutual

/-- The sorts that a term names. -/
def sorts : Term → List NameSort
  | .name _ | .literal _ => []
  | .apply (.everywhere sort) args => sort :: sortsAll args
  | .apply _ args => sortsAll args

def sortsAll : List Term → List NameSort
  | [] => []
  | t :: rest => t.sorts ++ sortsAll rest

end

theorem sortsAll_eq_nil {args : List Term} (each : ∀ a ∈ args, a.sorts = []) :
    sortsAll args = [] := by
  induction args with
  | nil => rfl
  | cons a rest ih =>
    obtain ⟨first, others⟩ := List.forall_mem_cons.mp each
    rw [sortsAll, first, ih others, List.append_nil]

/-- A term that is put together from others names no sort of its own. -/
theorem Built.sorts_eq_nil {base : Term → Prop} {names : Name → Prop} {t : Term}
    (built : t.Built base names) (each : ∀ a, base a → a.sorts = []) : t.sorts = [] := by
  induction built with
  | base given => exact each _ given
  | bits | zero | name => simp [sorts]
  | call _ _ ih => simpa [Term.call, sorts] using sortsAll_eq_nil ih
  | rounded _ _ ih => simpa [sorts] using sortsAll_eq_nil ih
  | extract high low _ ih => simpa [sorts] using sortsAll_eq_nil ih
  | declared _ _ ih => simpa [sorts] using sortsAll_eq_nil ih

end Term

namespace Command

/-- The sorts that the text of a command names. -/
def sorts : Command → List NameSort
  | .declareSort name constructors => [.value (.sort name constructors)]
  | .declare _ args sort _ => args ++ [sort]
  | .define _ sort body _ => sort :: body.sorts
  | .assert t => t.sorts
  | .assertForall binders bindings body =>
    binders.map (fun b => .value b.2) ++ bindings.flatMap (fun b => b.2.sorts) ++ body.sorts
  | _ => []

/-- The feature that a command needs whatever sorts it names. -/
def feature? : Command → Option Feature
  | .declareSort _ _ => some .sorts
  | .assertForall _ _ _ => some .quantifiers
  | .minimize _ | .maximize _ | .assertSoft _ _ _ | .getObjectives => some .optimization
  | _ => none

/-- All features that a command needs. -/
def features (c : Command) : List Feature :=
  c.feature?.toList ++ (c.sorts.flatMap NameSort.kinds).filterMap Kind.feature?

/-- A command is covered when the sorts it names are allowed, and its feature is needed. -/
structure Covered (allowed : NameSort → Prop) (f : Features) (c : Command) : Prop where
  sorts : ∀ sort ∈ c.sorts, allowed sort
  feature : ∀ feature, c.feature? = some feature → f.needs feature = true

/-- Commands that need no feature for themselves. -/
theorem covered_of_sorts {allowed : NameSort → Prop} {f : Features} {c : Command}
    (sorts : ∀ sort ∈ c.sorts, allowed sort) (feature : c.feature? = none) :
    c.Covered allowed f where
  sorts := sorts
  feature := by simp [feature]

/-- Commands that name no sort and need no feature. -/
theorem covered_of_none {allowed : NameSort → Prop} {f : Features} {c : Command}
    (sorts : c.sorts = []) (feature : c.feature? = none) : c.Covered allowed f :=
  covered_of_sorts (by simp [sorts]) feature

end Command

namespace Features

variable {f : Features} {solver : Capabilities}

theorem check_eq_ok (passed : f.check solver = .ok ()) {feature : Feature}
    (needed : f.needs feature = true) : solver.supports feature = true := by
  have listed : feature ∈ f.required := by
    have all : feature ∈
        [Feature.integers, .reals, .floats, .quantifiers, .sorts, .optimization] := by
      cases feature <;> decide
    exact List.mem_filter.mpr ⟨all, needed⟩
  rw [check] at passed
  split at passed
  · cases passed
  · next none => simpa using List.find?_eq_none.mp none feature listed

/-- The kinds of a sort are among those of the features; arrays only occur where they may. -/
def Allows (f : Features) (arrays : Prop) : NameSort → Prop
  | .value kind => kind ∈ f.kinds
  | .array index elem => index ∈ f.kinds ∧ elem ∈ f.kinds ∧ arrays

@[simp] theorem allows_value {arrays : Prop} {kind : Kind} :
    f.Allows arrays (.value kind) ↔ kind ∈ f.kinds := Iff.rfl

@[simp] theorem allows_array {arrays : Prop} {index elem : Kind} :
    f.Allows arrays (.array index elem) ↔ index ∈ f.kinds ∧ elem ∈ f.kinds ∧ arrays := Iff.rfl

/-- What declarations mention is among the kinds of the features. -/
structure Declared (f : Features) (sorts : List SortDecl) (tables : List Table)
    (arrays : List ArrayDecl) (functions : List FunctionDecl) : Prop where
  sorts : ∀ s ∈ sorts, s.kind ∈ f.kinds
  tables : ∀ t ∈ tables, t.index ∈ f.kinds ∧ t.elem ∈ f.kinds
  arrays : ∀ a ∈ arrays, a.index ∈ f.kinds ∧ a.elem ∈ f.kinds
  functions : ∀ d ∈ functions, (∀ k ∈ d.args, k ∈ f.kinds) ∧ d.result ∈ f.kinds

theorem declared_of_kinds {sorts : List SortDecl} {tables : List Table} {arrays : List ArrayDecl}
    {functions : List FunctionDecl}
    (kinds : ∀ k ∈ declaredKinds sorts tables arrays functions, k ∈ f.kinds) :
    f.Declared sorts tables arrays functions := by
  simp only [declaredKinds, List.mem_append, List.mem_map, List.mem_flatMap] at kinds
  refine ⟨fun s hs => ?_, fun t ht => ?_, fun a ha => ?_, fun d hd => ⟨fun k hk => ?_, ?_⟩⟩
  · exact kinds _ (.inl (.inl (.inl ⟨s, hs, rfl⟩)))
  · have parts : ∀ k ∈ [t.index, t.elem], k ∈ f.kinds :=
      fun k hk => kinds k (.inl (.inl (.inr ⟨t, ht, hk⟩)))
    exact ⟨parts _ (by simp), parts _ (by simp)⟩
  · have parts : ∀ k ∈ [a.index, a.elem], k ∈ f.kinds :=
      fun k hk => kinds k (.inl (.inr ⟨a, ha, hk⟩))
    exact ⟨parts _ (by simp), parts _ (by simp)⟩
  · exact kinds k (.inr ⟨d, hd, .inl hk⟩)
  · exact kinds _ (.inr ⟨d, hd, .inr List.mem_cons_self⟩)

theorem needs_of_kind (sorts : f.kinds.any Kind.isSort = true → f.sorts = true) {kind : Kind}
    (listed : kind ∈ f.kinds) {feature : Feature} (needed : kind.feature? = some feature) :
    f.needs feature = true := by
  cases kind <;> cases needed
  case integer | real => simpa [needs] using listed
  case float | double => exact List.any_eq_true.mpr ⟨_, listed, rfl⟩
  case sort => exact sorts (List.any_eq_true.mpr ⟨_, listed, rfl⟩)

/-- A solver that passed the gate supports all that a covered command needs. -/
theorem supports_of_covered (passed : f.check solver = .ok ())
    (sorts : f.kinds.any Kind.isSort = true → f.sorts = true) {arrays : Prop} {c : Command}
    (covered : c.Covered (f.Allows arrays) f) :
    ∀ feature ∈ c.features, solver.supports feature = true := by
  intro feature member
  rcases List.mem_append.mp member with own | named
  · exact check_eq_ok passed (covered.feature feature (by simpa using own))
  · obtain ⟨kind, listed, needed⟩ := List.mem_filterMap.mp named
    obtain ⟨sort, inside, part⟩ := List.mem_flatMap.mp listed
    have allowed := covered.sorts sort inside
    have known : kind ∈ f.kinds := by
      cases sort with
      | value k =>
        obtain rfl := List.mem_singleton.mp part
        exact allowed
      | array index elem =>
        obtain ⟨first, second, _⟩ := allowed
        simp only [NameSort.kinds, List.mem_cons, List.not_mem_nil, or_false] at part
        rcases part with rfl | rfl
        · exact first
        · exact second
    exact check_eq_ok passed (needs_of_kind sorts known needed)

end Features

section

variable {f : Features} {arrays : Prop}

theorem SortDecl.covered_command {s : SortDecl} (kind : s.kind ∈ f.kinds)
    (sorts : f.kinds.any Kind.isSort = true → f.sorts = true) :
    s.command.Covered (f.Allows arrays) f where
  sorts := by simpa [SortDecl.command, Command.sorts, SortDecl.kind] using kind
  feature := by
    rintro feature ⟨⟩
    exact sorts (List.any_eq_true.mpr ⟨_, kind, rfl⟩)

theorem Variable.covered_command {v : Variable} (kind : v.kind ∈ f.kinds) :
    v.command.Covered (f.Allows arrays) f :=
  Command.covered_of_sorts (by simpa [Variable.command, Command.sorts] using kind) rfl

theorem Variable.covered_skolemCommand {v : Variable} {universals : List Variable}
    (kind : v.kind ∈ f.kinds) (others : ∀ u ∈ universals, u.kind ∈ f.kinds) :
    (v.skolemCommand universals).Covered (f.Allows arrays) f := by
  refine Command.covered_of_sorts ?_ rfl
  intro sort member
  rcases List.mem_append.mp member with arg | result
  · obtain ⟨u, hu, rfl⟩ := List.mem_map.mp arg
    exact others u hu
  · obtain rfl := List.mem_singleton.mp result
    exact kind

theorem covered_constantCommand {id : WordId} {v : Value} (kind : v.kind ∈ f.kinds) :
    (constantCommand id v).Covered (f.Allows arrays) f :=
  Command.covered_of_sorts (by simpa [constantCommand, Command.sorts, Term.sorts] using kind) rfl

theorem Table.covered_command {t : Table} (kinds : t.index ∈ f.kinds ∧ t.elem ∈ f.kinds)
    (some : arrays) : t.command.Covered (f.Allows arrays) f :=
  Command.covered_of_sorts
    (by simpa [Table.command, Command.sorts] using ⟨kinds.1, kinds.2, some⟩) rfl

theorem ArrayDecl.covered_command {a : ArrayDecl} (kinds : a.index ∈ f.kinds ∧ a.elem ∈ f.kinds)
    (some : arrays) {scope : Scope} {c : Command}
    (written : a.command scope = .ok c) : c.Covered (f.Allows arrays) f := by
  have allowed : f.Allows arrays (.array a.index a.elem) := ⟨kinds.1, kinds.2, some⟩
  obtain rfl | ⟨_, _, rfl⟩ := ArrayDecl.command_eq_ok written
  · exact Command.covered_of_sorts (by simpa [Command.sorts] using allowed) rfl
  · refine Command.covered_of_sorts ?_ rfl
    simpa [Command.sorts, Term.sorts, Term.sortsAll, Term.word] using allowed

theorem FunctionDecl.covered_command {d : FunctionDecl}
    (kinds : (∀ k ∈ d.args, k ∈ f.kinds) ∧ d.result ∈ f.kinds) :
    d.command.Covered (f.Allows arrays) f := by
  refine Command.covered_of_sorts ?_ rfl
  intro sort member
  rcases List.mem_append.mp member with arg | value
  · obtain ⟨k, hk, rfl⟩ := List.mem_map.mp arg
    exact kinds.1 k hk
  · obtain rfl := List.mem_singleton.mp value
    exact kinds.2

theorem Assignment.sorts_term {a : Assignment} {scope : Scope} {t : Term}
    (written : a.term scope = .ok t) : t.sorts = [] := by
  obtain ⟨operands, _, _, built⟩ := Assignment.term_eq_ok written
  refine (Op.built_term built).sorts_eq_nil ?_
  rintro _ ⟨o, _, rfl⟩
  simp [Term.word, Term.sorts]

theorem Assignment.covered_command {a : Assignment} (kind : a.kind ∈ f.kinds) {t : Term}
    (sorts : t.sorts = []) : (a.command t).Covered (f.Allows arrays) f :=
  Command.covered_of_sorts (by simpa [Assignment.command, Command.sorts, sorts] using kind) rfl

theorem Table.covered_entryCommand {t : Table} {scope : Scope} {place : Nat} {element : WordId}
    {c : Command} (written : t.entryCommand scope place element = .ok c) :
    c.Covered (f.Allows arrays) f := by
  obtain ⟨_, _, _, rfl⟩ := Table.entryCommand_eq_ok written
  exact Command.covered_of_none (by simp [Command.sorts, Term.sorts, Term.sortsAll, Term.call,
    Term.word]) rfl

end

namespace Delta

theorem covered_foldlM_add {f : Features} {arrays : Prop} {assignments : List Assignment}
    {w next : Written} (written : assignments.foldlM Written.add w = .ok next)
    (kinds : ∀ a ∈ assignments, a.kind ∈ f.kinds)
    (before : ∀ c ∈ w.commands, c.Covered (f.Allows arrays) f) :
    ∀ c ∈ next.commands, c.Covered (f.Allows arrays) f := by
  refine Except.foldlM_induction written before fun a member w next first before => ?_
  obtain ⟨body, term, same⟩ := Except.bind_eq_ok.mp first
  cases same
  refine List.forall_mem_append.mpr ⟨before, ?_⟩
  simpa using a.covered_command (kinds a member) (a.sorts_term term)

theorem closed_features (d : Delta) (some : d.features.kinds.any Kind.isSort = true) :
    d.features.sorts = true :=
  Bool.or_eq_true_iff.mpr (.inr some)

/-- The features of a fragment cover its commands. -/
theorem covered_commands {d : Delta} {scope : Scope} {w : Written}
    (written : d.commands scope = .ok w) :
    ∀ c ∈ w.commands, c.Covered (d.features.Allows True) d.features := by
  obtain ⟨parts, shape, _, whole⟩ := commands_eq_ok written
  have kinds : ∀ k, k ∈ d.features.kinds ↔ k ∈ d.inputs.map (·.kind) ++
      d.constants.map (fun c => c.2.kind) ++ d.assignments.map (·.kind) ++
      Features.declaredKinds d.sorts d.tables d.arrays d.functions :=
    fun k => Kind.mem_sorted
  have declared := Features.declared_of_kinds fun k hk =>
    (kinds k).mpr (List.mem_append_right _ hk)
  simp only [List.mem_append, List.mem_map] at kinds
  have definitions : ∀ c ∈ parts.definitions.commands,
      c.Covered (d.features.Allows True) d.features :=
    covered_foldlM_add shape.definitions
      (fun a ha => (kinds a.kind).mpr (.inl (.inr ⟨a, ha, rfl⟩))) (by simp)
  intro c hc
  rw [whole] at hc
  simp only [List.mem_append, List.mem_map] at hc
  rcases hc with (((((((⟨s, hs, rfl⟩ | ⟨v, hv, rfl⟩) | ⟨k, hk, rfl⟩) | ⟨t, ht, rfl⟩) | array) |
    ⟨e, he, rfl⟩) | definition) | entry) | ⟨id, _, rfl⟩
  · exact s.covered_command (declared.sorts s hs) d.closed_features
  · exact v.covered_command ((kinds v.kind).mpr (.inl (.inl (.inl ⟨v, hv, rfl⟩))))
  · exact covered_constantCommand ((kinds k.2.kind).mpr (.inl (.inl (.inr ⟨k, hk, rfl⟩))))
  · exact t.covered_command (declared.tables t ht) trivial
  · obtain ⟨a, ha, one⟩ := shape.arrays.exists_of_mem_right array
    exact a.covered_command (declared.arrays a ha) trivial one
  · exact e.covered_command (declared.functions e he)
  · exact definitions c definition
  · obtain ⟨t, _, _, _, one⟩ := Table.exists_of_mem_entries shape.entries entry
    exact t.covered_entryCommand one
  · exact Command.covered_of_none (by simp [Command.sorts, Term.sorts, Term.word]) rfl

end Delta

namespace Script

variable {c : Config} {p : Program}

theorem closed_ofProgram (p : Program)
    (some : (Features.ofProgram p).kinds.any Kind.isSort = true) :
    (Features.ofProgram p).sorts = true :=
  Bool.or_eq_true_iff.mpr (.inr some)

theorem sorts_word (id : WordId) : (Term.word id).sorts = [] := by
  simp [Term.word, Term.sorts]

theorem sorts_goalTerm (p : Program) : (goalTerm p).sorts = [] := by
  rw [goalTerm]
  split <;> simp [sorts_word, Term.call, Term.sorts, Term.sortsAll]

theorem sorts_conjunction (p : Program) : (conjunction p).sorts = [] := by
  have all : Term.sortsAll (p.constraints.map Term.word ++ [goalTerm p]) = [] := by
    refine Term.sortsAll_eq_nil fun a ha => ?_
    rcases List.mem_append.mp ha with word | last
    · obtain ⟨id, _, rfl⟩ := List.mem_map.mp word
      exact sorts_word id
    · rw [List.mem_singleton.mp last, sorts_goalTerm]
  rw [conjunction]
  split
  · exact sorts_goalTerm p
  · simpa [Term.call, Term.sorts] using all

theorem Binds.sorts {b : WordId × Term} (bound : Binds p b) : b.2.sorts = [] := by
  cases bound with
  | assignment _ written => exact Assignment.sorts_term written
  | @skolem s _ =>
    have args : Term.sortsAll (s.2.map Term.word) = [] := by
      refine Term.sortsAll_eq_nil fun a ha => ?_
      obtain ⟨id, _, rfl⟩ := List.mem_map.mp ha
      exact sorts_word id
    simpa [skolemBinding, Term.sorts] using args

/-- Commands that run a script name no sort, and only some of them optimize. -/
theorem Runs.covered {command : Command} (form : Runs c p command) {allowed : NameSort → Prop} :
    command.Covered allowed (Features.ofProgram p) := by
  have optimizing : p.objectives ≠ [] → (Features.ofProgram p).needs .optimization = true := by
    intro some
    simpa [Features.needs, Features.ofProgram] using some
  cases form with
  | echo | push | pop | checkSat | getValue => exact Command.covered_of_none rfl rfl
  | getObjectives some => exact ⟨by simp [Command.sorts], by rintro _ ⟨⟩; exact optimizing some⟩
  | @objective o listed =>
    have needed := optimizing (List.ne_nil_of_mem listed)
    rw [Objective.command]
    split <;> exact ⟨by simp [Command.sorts], by rintro _ ⟨⟩; exact needed⟩

/-- The features of a program cover the commands of its queries. -/
theorem Writes.covered (distinct : (p.words.map Prod.fst).Nodup) {command : Command}
    (form : Writes c p command) :
    command.Covered ((Features.ofProgram p).Allows (p.tables ≠ [] ∨ p.arrays ≠ []))
      (Features.ofProgram p) := by
  have kinds := fun k => Features.mem_kinds_ofProgram distinct (k := k)
  have declared := Features.declared_of_kinds fun k hk => (kinds k).mpr (.inr hk)
  have words : ∀ w ∈ p.words, w.2 ∈ (Features.ofProgram p).kinds :=
    fun w hw => (kinds w.2).mpr (.inl (List.mem_map_of_mem hw))
  simp only [Program.words, List.mem_append, List.mem_map] at words
  have inputs : ∀ i ∈ p.inputs, i.var.kind ∈ (Features.ofProgram p).kinds :=
    fun i hi => words _ (.inl (.inl ⟨i, hi, rfl⟩))
  have universals : ∀ x ∈ universalsOf p.quantifier p.inputs,
      x.kind ∈ (Features.ofProgram p).kinds := by
    intro x hx
    obtain ⟨i, hi, _, rfl⟩ := (mem_universalsOf p.quantifier).mp hx
    exact inputs i hi
  cases form with
  | models | timeout | option | priority | logic => exact Command.covered_of_none rfl rfl
  | sort listed => exact SortDecl.covered_command (declared.sorts _ listed) (closed_ofProgram p)
  | input listed => exact Variable.covered_command (inputs _ listed)
  | skolem listed known =>
    exact Variable.covered_skolemCommand (inputs _ listed) fun u hu => universals u (known u hu)
  | constant listed => exact covered_constantCommand (words _ (.inl (.inr ⟨_, listed, rfl⟩)))
  | table listed =>
    exact Table.covered_command (declared.tables _ listed) (.inl (List.ne_nil_of_mem listed))
  | array listed written =>
    exact ArrayDecl.covered_command (declared.arrays _ listed) (.inr (List.ne_nil_of_mem listed))
      written
  | function listed => exact FunctionDecl.covered_command (declared.functions _ listed)
  | definition listed written =>
    exact Assignment.covered_command (words _ (.inr ⟨_, listed, rfl⟩))
      (Assignment.sorts_term written)
  | entry _ written => exact Table.covered_entryCommand written
  | @constraint id _ => exact Command.covered_of_none (sorts_word id) rfl
  | goal => exact Command.covered_of_none (sorts_goalTerm p) rfl
  | runs form => exact form.covered
  | @quantified some bindings bound =>
    constructor
    · intro sort member
      simp only [Command.sorts, sorts_conjunction, List.append_nil, List.mem_append, List.mem_map,
        List.mem_flatMap] at member
      rcases member with ⟨b, ⟨u, hu, rfl⟩, rfl⟩ | ⟨b, inside, member⟩
      · exact universals u hu
      · rw [(bound b inside).sorts] at member
        cases member
    · rintro feature ⟨⟩
      obtain ⟨x, hx⟩ := List.exists_mem_of_ne_nil _ some
      obtain ⟨i, hi, all, _⟩ := (mem_universalsOf p.quantifier).mp hx
      exact List.any_eq_true.mpr ⟨i, hi, by simpa using all⟩

/-- A query declares the logic of its configuration or the inferred one. -/
theorem Writes.logic_eq {logic : String} (form : Writes c p (.setLogic logic)) :
    logic = c.logic.getD (inferLogic p (Features.ofProgram p)) := by
  generalize same : Command.setLogic logic = command at form
  cases form with
  | logic => exact Command.setLogic.inj same
  | array _ written =>
    obtain rfl | ⟨_, _, rfl⟩ := ArrayDecl.command_eq_ok written <;> cases same
  | entry _ written =>
    obtain ⟨_, _, _, rfl⟩ := Table.entryCommand_eq_ok written
    cases same
  | runs form =>
    cases form with
    | @objective o _ =>
      rw [Objective.command] at same
      split at same <;> cases same
    | _ => cases same
  | _ => cases same

/-- A logic of bit vectors is inferred when there are only truth values and words, and
nothing that is an array. -/
theorem inferLogic_bits {f : Features}
    (bits : inferLogic p f = "QF_BV" ∨ inferLogic p f = "BV") :
    (∀ k ∈ f.kinds, k = .bool ∨ k.isBits = true) ∧ p.tables = [] ∧ p.arrays = [] := by
  rw [inferLogic] at bits
  split at bits
  · next only =>
    simp only [Features.onlyBits, Bool.and_eq_true, List.all_eq_true, Bool.or_eq_true,
      decide_eq_true_eq, List.isEmpty_iff] at only
    exact ⟨only.1.1.1.1, only.1.1.1.2, only.1.1.2⟩
  · simp at bits

theorem quantified_of_inferLogic {f : Features} (logic : inferLogic p f = "QF_BV") :
    f.quantified = false := by
  rw [inferLogic] at logic
  split at logic
  · cases quantified : f.quantified with
    | false => rfl
    | true => simp [quantified] at logic
  · simp at logic

/-- Whatever a query or a fragment names or does that needs a feature, its solver supports
that feature. Where the logic of a query is inferred to be one of bit vectors, its sorts
are those of truth values and of words, and without quantifiers in the logic there are
none in the query. -/
theorem supported_of_written :
    (∀ (c : Config) (p : Program) (s : Script), (p.words.map Prod.fst).Nodup →
      query c p = .ok s →
        (∀ command ∈ s.commands, ∀ f ∈ command.features, c.capabilities.supports f = true) ∧
        (c.logic = none → ∀ logic, .setLogic logic ∈ s.commands →
          (logic = "QF_BV" ∨ logic = "BV" → ∀ command ∈ s.commands, ∀ sort ∈ command.sorts,
            ∃ kind, sort = .value kind ∧ (kind = .bool ∨ kind.isBits = true)) ∧
          (logic = "QF_BV" → ∀ command ∈ s.commands, .quantifiers ∉ command.features))) ∧
    ∀ (solver : Capabilities) (session : Session) (d : Delta) (script : Script) (next : Session),
      session.fragment solver d = .ok (script, next) →
        ∀ command ∈ script.commands, ∀ f ∈ command.features, solver.supports f = true := by
  constructor
  · intro c p s distinct written
    obtain ⟨passed, _⟩ := query_eq_ok written
    have forms := writes_of_mem written
    have covered := fun command member => (forms command member).covered distinct
    refine ⟨fun command member => Features.supports_of_covered passed (closed_ofProgram p)
      (covered command member), ?_⟩
    intro unset logic declared
    have inferred : inferLogic p (Features.ofProgram p) = logic := by
      have same := (forms _ declared).logic_eq
      rw [unset] at same
      exact same.symm
    rw [← inferred]
    constructor
    · intro bits command member sort named
      obtain ⟨kinds, tables, arrays⟩ := inferLogic_bits bits
      have allowed := (covered command member).sorts sort named
      cases sort with
      | value kind => exact ⟨kind, rfl, kinds kind allowed⟩
      | array index elem => exact absurd allowed.2.2 (by simp [tables, arrays])
    · intro free command member quantifies
      have none := quantified_of_inferLogic free
      rcases List.mem_append.mp quantifies with own | named
      · have needed := (covered command member).feature .quantifiers (by simpa using own)
        rw [Features.needs, none] at needed
        cases needed
      · obtain ⟨kind, _, feature⟩ := List.mem_filterMap.mp named
        cases kind <;> cases feature
  · intro solver session d script next written
    obtain ⟨_, passed, written⟩ := Except.bind_eq_ok.mp written
    obtain ⟨w, built, same⟩ := Except.bind_eq_ok.mp written
    cases same
    intro command member
    rw [commands_ofCommands] at member
    exact Features.supports_of_covered (Except.mapError_eq_ok.mp passed) d.closed_features
      (Delta.covered_commands (Except.mapError_eq_ok.mp built) command member)

/-- Whether a byte has a successor that is zero. -/
def successor : Program where
  polarity := .satisfy
  sorts := []
  inputs := [⟨.exist, ⟨⟨0⟩, "x", .word 8⟩⟩]
  constants := [(⟨1⟩, .ofWord 8 1), (⟨2⟩, .ofWord 8 0)]
  tables := []
  arrays := []
  functions := []
  assumptions := []
  assignments := [⟨⟨3⟩, .word 8, .plus, [⟨0⟩, ⟨1⟩]⟩, ⟨⟨4⟩, .bool, .equal, [⟨3⟩, ⟨2⟩]⟩]
  constraints := []
  output := ⟨4⟩
  objectives := []
  style := .lexicographic

/-- The query is one of bit vectors without quantifiers, and the fragment has integers. -/
theorem supported_of_written_successor :
    (successor.words.map Prod.fst).Nodup ∧
    (∃ s, query .standard successor = .ok s ∧ .setLogic "QF_BV" ∈ s.commands ∧
      (∀ command ∈ s.commands, ∀ sort ∈ command.sorts,
        ∃ kind, sort = .value kind ∧ (kind = .bool ∨ kind.isBits = true)) ∧
      ∀ command ∈ s.commands, .quantifiers ∉ command.features) ∧
    ∃ r, Session.start.fragment Config.standard.capabilities Session.pieces.delta = .ok r ∧
      ∀ command ∈ r.1.commands, ∀ f ∈ command.features,
        Config.standard.capabilities.supports f = true := by
  have distinct : (successor.words.map Prod.fst).Nodup := by decide
  obtain ⟨s, written, logic⟩ :
      ∃ s, query .standard successor = .ok s ∧ .setLogic "QF_BV" ∈ s.commands :=
    ⟨_, rfl, .tail _ (.head _)⟩
  obtain ⟨⟨script, next⟩, fragment⟩ :
      ∃ r, Session.start.fragment Config.standard.capabilities Session.pieces.delta = .ok r :=
    ⟨_, rfl⟩
  obtain ⟨bits, free⟩ := (supported_of_written.1 _ _ _ distinct written).2 rfl _ logic
  exact ⟨distinct, ⟨s, written, logic, bits (.inl rfl), free rfl⟩, (script, next), fragment,
    supported_of_written.2 _ _ _ _ _ fragment⟩

end Script

end SmtDialogue
