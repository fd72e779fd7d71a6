import SmtDialogue.Proofs.Models
import SmtDialogue.Proofs.Tables

/-!
# The truth of a program

Definitions outside, the values of the inputs inside and the definitions inside give
every word the value that the program gives it. So the assertions of a script hold
for all universal inputs exactly when the goal of the program holds for all values
that follow the functions of the script, and such functions exist exactly when the
program is true.
-/

namespace SmtDialogue

universe u

open Script (universalsOf skolemsOf innerInputs inputWords)

namespace Program.Layout

variable {p : Program} {ds : List Definition}

/-- What is defined outside every quantifier. -/
def outerDefs (p : Program) (ds : List Definition) : List (WordId × Term) :=
  p.constantDefs ++ (ds.filter Definition.closed).map Definition.binding

/-- What is bound inside the quantified assertion. -/
def innerDefs (ds : List Definition) : List (WordId × Term) :=
  (ds.filter fun d => !d.closed).map Definition.binding

theorem bodies (layout : p.Layout ds) : ∀ d ∈ ds, p.body? d.assignment = some d.body := by
  refine layout.follow.body? fun w member => ?_
  rw [← layout.words_eq] at member
  exact wordKind?_of_mem layout.distinct member

theorem ordered_constants {known : List WordId} {constants : List (WordId × Value)}
    (distinct : (known ++ constants.map Prod.fst).Nodup) {rest : List (WordId × Term)}
    (ordered : Ordered (known ++ constants.map Prod.fst) rest) :
    Ordered known (constants.map (fun k => (k.1, Term.literal k.2)) ++ rest) := by
  induction constants generalizing known with
  | nil => simpa using ordered
  | cons k constants ih =>
    have fresh : k.1 ∉ known := fun member =>
      (List.nodup_append.mp distinct).2.2 _ member _ List.mem_cons_self rfl
    refine ⟨by simp [Term.Over], fresh, ih ?_ ?_⟩
    · simpa using distinct
    · simpa using ordered

/-- All definitions of a program, each over the words before it. -/
theorem ordered (layout : p.Layout ds) :
    Ordered ((inputWords p.inputs).map Prod.fst)
      (p.constantDefs ++ ds.map Definition.binding) := by
  have names : p.constantWords.map Prod.fst = p.constants.map Prod.fst := by
    simp [constantWords]
  have later := layout.follow.ordered
  have distinct := layout.distinct
  rw [layout.words_eq, List.map_append] at distinct
  have outer := (List.nodup_append.mp distinct).1
  rw [List.map_append, names] at later outer
  exact ordered_constants outer later

theorem names_eq (layout : p.Layout ds) :
    (inputWords p.inputs).map Prod.fst ++
        (p.constantDefs ++ ds.map Definition.binding).map Prod.fst = p.words.map Prod.fst := by
  rw [layout.words_eq]
  simp [constantDefs, constantWords, Definition.binding, Definition.word, Function.comp_def]

theorem outer_sublist (p : Program) (ds : List Definition) :
    (outerDefs p ds).Sublist (p.constantDefs ++ ds.map Definition.binding) :=
  (List.Sublist.refl _).append ((List.filter_sublist).map _)

theorem inner_sublist (p : Program) (ds : List Definition) :
    (innerDefs ds).Sublist (p.constantDefs ++ ds.map Definition.binding) :=
  ((List.filter_sublist).map _).trans (List.sublist_append_right _ _)

/-- Nothing outside is of a word of the inside, or uses one. -/
theorem outer_apart (layout : p.Layout ds) :
    ∀ b ∈ outerDefs p ds, b.1 ∉ innerWords p ds ∧ b.2.Over (· ∉ innerWords p ds) := by
  intro b member
  rcases List.mem_append.mp member with constant | closed
  · obtain ⟨k, hk, rfl⟩ := List.mem_map.mp constant
    refine ⟨fun inside => ?_, by simp [Term.Over]⟩
    have word : k.1 ∈ p.constantWords.map Prod.fst :=
      List.mem_map.mpr ⟨(k.1, k.2.kind), List.mem_map_of_mem hk, rfl⟩
    have distinct := layout.distinct
    rw [layout.words_eq, List.map_append, List.map_append] at distinct
    rcases List.mem_append.mp inside with input | opened
    · have apart := (List.nodup_append.mp (List.nodup_append.mp distinct).1).2.2
      exact apart _ (innerInputs_known _ _ _ input) _ word rfl
    · refine layout.follow.opened_fresh _ opened ?_
      rw [List.map_append]
      exact List.mem_append_right _ word
  · obtain ⟨d, hd, rfl⟩ := List.mem_map.mp closed
    obtain ⟨listed, outside⟩ := List.mem_filter.mp hd
    exact layout.follow.closed_apart (innerInputs_outer p) d listed outside

end Program.Layout

namespace Reading

open Program.Layout (outerDefs innerDefs innerWords)

variable {U : Type u} {R : Reading U} {p : Program} {ds : List Definition}

theorem Agree.trans {X Y Z : Env U} {words : WordId → Prop} (first : Agree X Y words)
    (second : Agree Y Z words) : Agree X Z words :=
  ⟨fun id h => (first.word id h).trans (second.word id h),
    fun n h => (first.other n h).trans (second.other n h)⟩

theorem Agree.mono {X Y : Env U} {words fewer : WordId → Prop} (agree : Agree X Y words)
    (h : ∀ id, fewer id → words id) : Agree X Y fewer :=
  ⟨fun id member => agree.word id (h id member), agree.other⟩

variable (R) in
/-- The environment at the universal inputs' values, once all words are bound. -/
def inside (p : Program) (ds : List Definition) (env : Env U) (us : List U) : Env U :=
  R.defineAll
    (R.defineAll
      (setAll (R.defineAll env (outerDefs p ds)) (universalsOf p.quantifier p.inputs) us)
      ((skolemsOf p.quantifier [] p.inputs).map Script.skolemBinding))
    (innerDefs ds)

/-- What is outside stays as it is inside. -/
theorem inside_agree_outer (p : Program) (ds : List Definition) (env : Env U) (us : List U) :
    Agree (R.inside p ds env us) (R.defineAll env (outerDefs p ds)) (· ∉ innerWords p ds) := by
  have opened : (innerDefs ds).map Prod.fst = Definition.opened ds := by
    simp [innerDefs, Definition.opened, Definition.binding, Function.comp_def]
  have skolems : ((skolemsOf p.quantifier [] p.inputs).map Script.skolemBinding).map Prod.fst =
      (skolemsOf p.quantifier [] p.inputs).map Prod.fst := by
    simp [Script.skolemBinding, Function.comp_def]
  have defined := agree_defineAll (R := R)
    (R.defineAll (setAll (R.defineAll env (outerDefs p ds))
      (universalsOf p.quantifier p.inputs) us)
      ((skolemsOf p.quantifier [] p.inputs).map Script.skolemBinding)) (innerDefs ds)
  have bound := agree_defineAll (R := R)
    (setAll (R.defineAll env (outerDefs p ds)) (universalsOf p.quantifier p.inputs) us)
    ((skolemsOf p.quantifier [] p.inputs).map Script.skolemBinding)
  have set : Agree
      (setAll (R.defineAll env (outerDefs p ds)) (universalsOf p.quantifier p.inputs) us)
      (R.defineAll env (outerDefs p ds))
      (· ∉ (universalsOf p.quantifier p.inputs).map Variable.id) := by
    refine ⟨fun id absent => ?_, fun n other => setAll_of_ne _ (fun x _ => other x.id) us _⟩
    rw [setAll_of_ne _ fun x hx same => absent ?_]
    exact List.mem_map.mpr ⟨x, hx, (Name.word.inj same).symm⟩
  rw [opened] at defined
  rw [skolems] at bound
  have apart : ∀ id, id ∉ innerWords p ds → id ∉ Definition.opened ds ∧
      id ∉ (skolemsOf p.quantifier [] p.inputs).map Prod.fst ∧
      id ∉ (universalsOf p.quantifier p.inputs).map Variable.id := by
    intro id absent
    rw [innerWords, List.mem_append, not_or, Script.mem_innerInputs, not_or] at absent
    exact ⟨absent.2, absent.1.2, absent.1.1⟩
  exact (defined.mono fun id h => (apart id h).1).trans
    ((bound.mono fun id h => (apart id h).2.1).trans (set.mono fun id h => (apart id h).2.2))

/-- All definitions are true inside, wherever they were made. -/
theorem solves_inside (layout : p.Layout ds) (env : Env U) (us : List U) :
    R.Solves (R.inside p ds env us) (p.constantDefs ++ ds.map Definition.binding) := by
  have settled := layout.ordered.settled
  have outer := solves_defineAll (R := R)
    (settled.sublist (Program.Layout.outer_sublist p ds)) env
  have agree := inside_agree_outer (R := R) p ds env us
  have closed : ∀ b ∈ outerDefs p ds, R.inside p ds env us (.word b.1) [] =
      R.eval (R.inside p ds env us) b.2 := by
    intro b member
    obtain ⟨name, mentions⟩ := layout.outer_apart b member
    rw [agree.word b.1 name, eval_congr agree mentions]
    exact outer b member
  have inner : R.Solves (R.inside p ds env us) (innerDefs ds) :=
    solves_defineAll (settled.sublist (Program.Layout.inner_sublist p ds)) _
  intro b member
  rcases List.mem_append.mp member with constant | defined
  · exact closed b (List.mem_append_left _ constant)
  · obtain ⟨d, hd, rfl⟩ := List.mem_map.mp defined
    cases outside : d.closed with
    | true =>
      refine closed _ (List.mem_append_right _ (List.mem_map_of_mem ?_))
      exact List.mem_filter.mpr ⟨hd, outside⟩
    | false =>
      refine inner _ (List.mem_map_of_mem ?_)
      exact List.mem_filter.mpr ⟨hd, by simp [outside]⟩

/-- Inside the assertion every word has the value that the program gives it at values of
the inputs that follow the functions they were declared with. -/
theorem inside_agree_values (layout : p.Layout ds) {env : Env U}
    (names : ∀ n : Name, (∀ id, n ≠ .word id) → env n = R.name n) {v : Valuation U}
    (follows : R.Follows p.quantifier env v [] p.inputs) :
    Agree
      (R.inside p ds env ((universalsOf p.quantifier p.inputs).map fun x => v x.id))
      (R.env (p.values R v)) (· ∈ p.words.map Prod.fst) := by
  have inputs : (inputWords p.inputs).map Prod.fst = p.inputs.map fun i => i.var.id := by
    simp [inputWords]
  have distinct := Program.distinct_inputs layout.distinct
  have apart := layout.ordered.notMem
  rw [inputs] at apart
  have untouched : ∀ i ∈ p.inputs, ∀ (defs : List (WordId × Term)),
      defs.Sublist (p.constantDefs ++ ds.map Definition.binding) → ∀ start : Env U,
        R.defineAll start defs (.word i.var.id) = start (.word i.var.id) := by
    intro i hi defs sublist start
    refine defineAll_of_ne (fun id member same => ?_) start
    cases same
    exact apart _ ((sublist.map _).subset member) (List.mem_map.mpr ⟨i, hi, rfl⟩)
  have values := p.env_values R layout.assignments layout.bodies v
  have start : Agree
      (R.inside p ds env ((universalsOf p.quantifier p.inputs).map fun x => v x.id))
      (R.env (p.values R v)) (· ∈ (inputWords p.inputs).map Prod.fst) := by
    refine ⟨fun id member => ?_, fun n other => ?_⟩
    · rw [inputs] at member
      obtain ⟨i, hi, rfl⟩ := List.mem_map.mp member
      have followed := inside_follows distinct follows (R.defineAll env (outerDefs p ds))
        (fun j hj => untouched j hj _ (Program.Layout.outer_sublist p ds) env) i hi
      rw [inside, untouched i hi _ (Program.Layout.inner_sublist p ds), followed, values,
        untouched i hi _ (List.Sublist.refl _)]
      rfl
    · rw [(inside_agree_outer p ds env _).other n other, values,
        defineAll_of_ne (fun id _ => other id) env, names n other,
        defineAll_of_ne (fun id _ => other id) (R.env v)]
      cases n with
      | word id => exact absurd rfl (other id)
      | _ => rfl
  have program : R.Solves (R.env (p.values R v))
      (p.constantDefs ++ ds.map Definition.binding) := by
    rw [values]
    exact solves_defineAll layout.ordered.settled _
  have whole := agree_of_solves layout.ordered start (solves_inside layout env _) program
  rwa [layout.names_eq] at whole

theorem goal_congr {X Y : Env U} (agree : Agree X Y (· ∈ p.words.map Prod.fst))
    (known : ∀ id ∈ p.constraints ++ [p.output], id ∈ p.words.map Prod.fst) :
    R.Goal p X ↔ R.Goal p Y := by
  have constraints : ∀ id ∈ p.constraints, X (.word id) [] = Y (.word id) [] :=
    fun id member => agree.word id (known id (List.mem_append_left _ member))
  have output : p.output ∈ p.words.map Prod.fst := known _ (by simp)
  have goal : R.eval X (Script.goalTerm p) = R.eval Y (Script.goalTerm p) := by
    refine eval_congr agree ?_
    rw [Script.goalTerm]
    split <;> simpa using output
  rw [Goal]
  rw [goal]
  refine and_congr_left fun _ => forall₂_congr fun id member => ?_
  rw [constraints id member]

/-- Without universal inputs nothing is bound inside. -/
theorem innerDefs_eq_nil (layout : p.Layout ds)
    (none : universalsOf p.quantifier p.inputs = []) : innerDefs ds = [] := by
  have nothing := (List.append_eq_nil_iff.mp (layout.innerWords_eq_nil none)).2
  rw [innerDefs, List.map_eq_nil_iff.mp nothing, List.map_nil]

/-- Behind the declarations, a script says that the goal holds for all values that follow
the declared functions. -/
theorem hasModel_definitions (layout : p.Layout ds)
    (known : ∀ id ∈ p.constraints ++ [p.output], id ∈ p.words.map Prod.fst)
    {o : Script.Opening} (universals : o.universals = universalsOf p.quantifier p.inputs)
    (skolems : o.skolems = skolemsOf p.quantifier [] p.inputs) {env : Env U}
    (names : ∀ n : Name, (∀ id, n ≠ .word id) → env n = R.name n) (start : Valuation U) :
    R.HasModel env (p.constants.map (fun k => constantCommand k.1 k.2) ++
        ((ds.filter Definition.closed).map (fun d => d.assignment.command d.body) ++
          Script.assertions p o (innerDefs ds))) ↔
      R.Outcome p.quantifier (fun v => R.Goal p (R.env (p.values R v))) [] p.inputs
        (fun _ => start) env := by
  have bare : o.universals = [] → o.skolems = [] ∧ innerDefs ds = [] := by
    intro none
    rw [universals] at none
    exact ⟨by rw [skolems, Script.skolemsOf_eq_nil _ none], innerDefs_eq_nil layout none⟩
  have distinct := Program.distinct_inputs layout.distinct
  rw [hasModel_define (fun k : WordId × Value => constantCommand k.1 k.2)
      (fun k => (k.1, Term.literal k.2)) (fun k => ⟨_, _, rfl⟩),
    hasModel_define (fun d : Definition => d.assignment.command d.body) Definition.binding
      (fun d => ⟨_, _, rfl⟩),
    hasModel_assertions bare, ← defineAll_append, universals, skolems]
  constructor
  · intro goal us values v _ follows
    obtain rfl := List.forall₂_nil_right_iff.mp values
    have agree := inside_agree_values layout names follows
    exact (goal_congr agree known).mp (goal _ (R.valuesOf_follows follows))
  · intro outcome us values
    obtain ⟨v, same, follows, given⟩ := R.exists_follows distinct env start [] us values
    have agree := inside_agree_values layout names follows
    rw [given] at agree
    exact (goal_congr agree known).mpr (outcome [] .nil v same follows)

/-- A script has a model exactly when its goal holds under the quantifiers of the inputs. -/
theorem hasModel_iff_quantified {c : Config} {f : Features} {s : Script} (plain : p.Plain)
    (written : Script.body c p f = .ok s) :
    R.HasModel R.name s.commands ↔
      R.Quantified p.quantifier (fun v => R.Goal p (R.env (p.values R v))) p.inputs
        fun id => R.name (.word id) [] := by
  obtain ⟨ds, layout, known, o, universals, skolems, commands⟩ :=
    Script.layout_of_body plain written
  have distinct := Program.distinct_inputs layout.distinct
  have strategies := R.quantified_iff_strategies p.quantifier
    (P := fun v => R.Goal p (R.env (p.values R v))) distinct []
    (fun _ id => R.name (.word id) []) R.name
  rw [commands, hasModel_silent (Script.silent_header c p f), hasModel_declarations]
  refine (strategies_congr R fun next others => ?_).trans (strategies.symm.trans ?_)
  · refine hasModel_definitions layout known universals skolems (fun n other => ?_) _
    exact others n fun i _ => other i.var.id
  · constructor
    · intro holds
      exact holds [] .nil
    · intro holds us _
      exact holds

end Reading

/-- A script that is written to be satisfied has a model exactly when all constraints and
the output of its program hold under the quantifiers of the inputs, and one written for a
proof has none exactly when the constraints imply the output under them. -/
theorem Script.hasModel_iff {U : Type u} (R : Reading U) {c : Config} {p : Program} {s : Script}
    (plain : p.Plain) (written : ofProgram c p = .ok s) :
    (p.polarity = .satisfy →
      (R.HasModel R.name s.commands ↔
        p.Prenex R fun v => (∀ id ∈ p.constraints, R.holds (v id)) ∧ R.holds (v p.output))) ∧
    (p.polarity = .prove →
      (¬R.HasModel R.name s.commands ↔
        p.Prenex R fun v => (∀ id ∈ p.constraints, R.holds (v id)) → R.holds (v p.output))) := by
  obtain ⟨_, _, written⟩ := Except.bind_eq_ok.mp written
  have model := Reading.hasModel_iff_quantified (R := R) plain (Except.mapError_eq_ok.mp written)
  constructor
  · intro satisfy
    have quantifier : p.quantifier = Input.quantifier := by
      funext i
      simp [Program.quantifier, satisfy]
    rw [model, quantifier]
    refine R.quantified_congr _ (fun v => ?_) _ _
    simp [Reading.Goal, goalTerm, satisfy, Term.word, Reading.eval, Reading.env]
  · intro prove
    have quantifier : p.quantifier = fun i => (Input.quantifier i).flip := by
      funext i
      simp [Program.quantifier, prove]
    rw [model, quantifier, R.not_quantified_flip]
    refine R.quantified_congr _ (fun v => ?_) _ _
    simp [Reading.Goal, goalTerm, prove, Term.word, Term.call, Reading.eval, Reading.evalArgs,
      Reading.env, R.holds_not]

/-- Truth values with their usual operators. -/
def Reading.boolean : Reading Bool where
  carrier _ _ := True
  inhabited _ := ⟨true, trivial⟩
  operator
    | .builtIn "and", us => us.all id
    | .builtIn "or", us => us.any id
    | .builtIn "not", us => !us.headD false
    | .builtIn "=", us => us.head? = us.getLast?
    | _, _ => false
  literal v := v.bool?.getD false
  name _ _ := false
  holds u := u = true
  holds_and us := by simp
  holds_not u := by simp

/-- For some value that is not true, every value has an equal one. -/
def Program.matching : Program where
  polarity := .satisfy
  sorts := []
  inputs := [⟨.exist, ⟨⟨0⟩, "x", .bool⟩⟩, ⟨.all, ⟨⟨1⟩, "y", .bool⟩⟩, ⟨.exist, ⟨⟨2⟩, "z", .bool⟩⟩]
  constants := []
  tables := []
  arrays := []
  functions := []
  assumptions := []
  assignments := [⟨⟨3⟩, .bool, .not, [⟨0⟩]⟩, ⟨⟨4⟩, .bool, .equal, [⟨1⟩, ⟨2⟩]⟩]
  constraints := [⟨3⟩]
  output := ⟨4⟩
  objectives := []
  style := .lexicographic

theorem Script.hasModel_matching :
    Program.matching.Plain ∧ ∃ s, ofProgram Config.standard Program.matching = .ok s ∧
      Reading.boolean.HasModel Reading.boolean.name s.commands := by
  have plain : Program.matching.Plain := ⟨rfl, rfl, rfl, rfl, rfl, rfl, by decide⟩
  obtain ⟨s, written⟩ : ∃ s, ofProgram Config.standard Program.matching = .ok s := ⟨_, rfl⟩
  refine ⟨plain, s, written, ?_⟩
  rw [(hasModel_iff Reading.boolean plain written).1 rfl]
  refine ⟨false, trivial, fun u _ => ⟨u, trivial, ?_, ?_⟩⟩
  · intro id member
    obtain rfl := List.mem_singleton.mp member
    cases u <;> rfl
  · cases u <;> rfl

end SmtDialogue
