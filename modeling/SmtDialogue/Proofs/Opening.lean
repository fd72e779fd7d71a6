import SmtDialogue.Proofs.Scoping
import SmtDialogue.Proofs.Strategies

/-!
# The inputs of a script

Universal inputs are bound by the quantified assertion, and every other input is
declared as a function of the universal ones before it. So the declarations have a
model exactly when there are strategies for the inputs, and inside the assertion
each input has a value that follows these.
-/

namespace SmtDialogue

universe u

namespace Script

variable (quantifier : Input → Quantifier)

/-- The universal inputs. -/
def universalsOf (inputs : List Input) : List Variable :=
  (inputs.filter fun i => quantifier i = .all).map Input.var

/-- The declarations of inputs behind these universal ones. -/
def declarations : List Variable → List Input → List Command
  | _, [] => []
  | before, i :: rest =>
    match quantifier i with
    | .all => declarations (before ++ [i.var]) rest
    | .exist =>
      (if before.isEmpty then i.var.command else i.var.skolemCommand before) ::
        declarations before rest

/-- The inputs behind universal ones, each with the universal ones before it. -/
def skolemsOf : List Variable → List Input → List (WordId × List WordId)
  | _, [] => []
  | before, i :: rest =>
    match quantifier i with
    | .all => skolemsOf (before ++ [i.var]) rest
    | .exist =>
      (if before.isEmpty then [] else [(i.var.id, before.map Variable.id)]) ++
        skolemsOf before rest

/-- The inputs that are not outside. -/
def innerInputs : List Variable → List Input → List WordId
  | _, [] => []
  | before, i :: rest =>
    match quantifier i with
    | .all => i.var.id :: innerInputs (before ++ [i.var]) rest
    | .exist => Scope.innerOf i.var.id before.isEmpty ++ innerInputs before rest

theorem universalsOf_cons (i : Input) (rest : List Input) :
    universalsOf quantifier (i :: rest) =
      (if quantifier i = .all then [i.var] else []) ++ universalsOf quantifier rest := by
  by_cases all : quantifier i = .all <;> simp [universalsOf, all]

theorem mem_universalsOf {inputs : List Input} {x : Variable} :
    x ∈ universalsOf quantifier inputs ↔ ∃ i ∈ inputs, quantifier i = .all ∧ i.var = x := by
  simp [universalsOf, and_assoc]

/-- The inner inputs are the universal ones and those under them. -/
theorem mem_innerInputs {before : List Variable} {inputs : List Input} {id : WordId} :
    id ∈ innerInputs quantifier before inputs ↔
      id ∈ (universalsOf quantifier inputs).map Variable.id ∨
        id ∈ (skolemsOf quantifier before inputs).map Prod.fst := by
  induction inputs generalizing before with
  | nil => simp [innerInputs, universalsOf, skolemsOf]
  | cons i rest ih =>
    rw [universalsOf_cons]
    cases prefixed : quantifier i with
    | all => simp [innerInputs, skolemsOf, prefixed, ih, or_assoc]
    | exist =>
      cases before with
      | nil => simp [innerInputs, skolemsOf, prefixed, ih, Scope.innerOf]
      | cons x others =>
        simp only [innerInputs, skolemsOf, prefixed, Scope.innerOf, List.isEmpty_cons,
          Bool.false_eq_true, reduceCtorEq, if_false, List.mem_append, List.mem_singleton, ih,
          List.nil_append, List.map_append, List.map_cons, List.map_nil]
        exact or_left_comm

theorem mem_skolemsOf {before : List Variable} {inputs : List Input}
    {s : WordId × List WordId} (h : s ∈ skolemsOf quantifier before inputs) :
    (∃ i ∈ inputs, quantifier i = .exist ∧ i.var.id = s.1) ∧
      ∀ id ∈ s.2, id ∈ before.map Variable.id ∨
        id ∈ (universalsOf quantifier inputs).map Variable.id := by
  induction inputs generalizing before with
  | nil => simp [skolemsOf] at h
  | cons i rest ih =>
    rw [universalsOf_cons]
    cases prefixed : quantifier i with
    | all =>
      simp only [skolemsOf, prefixed] at h
      obtain ⟨⟨j, hj, exist, name⟩, args⟩ := ih h
      refine ⟨⟨j, List.mem_cons_of_mem i hj, exist, name⟩, fun id arg => ?_⟩
      simpa [or_assoc] using args id arg
    | exist =>
      simp only [skolemsOf, prefixed] at h
      rcases List.mem_append.mp h with here | later
      · split at here
        · simp at here
        · obtain rfl := List.mem_singleton.mp here
          exact ⟨⟨i, List.mem_cons_self, prefixed, rfl⟩, fun id arg => .inl arg⟩
      · obtain ⟨⟨j, hj, exist, name⟩, args⟩ := ih later
        refine ⟨⟨j, List.mem_cons_of_mem i hj, exist, name⟩, fun id arg => ?_⟩
        simpa using args id arg

/-- An input is declared as a constant or as a function of universal inputs. -/
theorem mem_declarations {before : List Variable} {inputs : List Input} {c : Command}
    (h : c ∈ declarations quantifier before inputs) :
    ∃ i ∈ inputs, c = i.var.command ∨ ∃ universals : List Variable,
      (∀ x ∈ universals, x ∈ before ∨ x ∈ universalsOf quantifier inputs) ∧
        c = i.var.skolemCommand universals := by
  induction inputs generalizing before with
  | nil => cases h
  | cons i rest ih =>
    rw [universalsOf_cons]
    cases prefixed : quantifier i with
    | all =>
      simp only [declarations, prefixed] at h
      obtain ⟨j, hj, declared⟩ := ih h
      refine ⟨j, List.mem_cons_of_mem i hj, declared.imp id ?_⟩
      rintro ⟨universals, known, same⟩
      refine ⟨universals, fun x hx => ?_, same⟩
      simpa [or_assoc] using known x hx
    | exist =>
      simp only [declarations, prefixed] at h
      rcases List.mem_cons.mp h with rfl | later
      · refine ⟨i, List.mem_cons_self, ?_⟩
        split
        · exact .inl rfl
        · exact .inr ⟨before, fun x hx => .inl hx, rfl⟩
      · obtain ⟨j, hj, declared⟩ := ih later
        refine ⟨j, List.mem_cons_of_mem i hj, declared.imp id ?_⟩
        rintro ⟨universals, known, same⟩
        exact ⟨universals, by simpa using known, same⟩

/-- Without universal inputs no input is under one. -/
theorem skolemsOf_eq_nil {inputs : List Input} (none : universalsOf quantifier inputs = []) :
    skolemsOf quantifier [] inputs = [] := by
  induction inputs with
  | nil => rfl
  | cons i rest ih =>
    rw [universalsOf_cons] at none
    cases prefixed : quantifier i with
    | all => simp [prefixed] at none
    | exist => simpa [skolemsOf, prefixed] using ih (List.append_eq_nil_iff.mp none).2

theorem sublist_skolemsOf (before : List Variable) (inputs : List Input) :
    ((skolemsOf quantifier before inputs).map Prod.fst).Sublist
      (inputs.map fun i => i.var.id) := by
  induction inputs generalizing before with
  | nil => simp [skolemsOf]
  | cons i rest ih =>
    cases prefixed : quantifier i with
    | all =>
      simp only [skolemsOf, prefixed, List.map_cons]
      exact (ih _).cons _
    | exist =>
      simp only [skolemsOf, prefixed, List.map_cons, List.map_append]
      split
      · exact (ih _).cons _
      · exact (ih _).cons_cons _

/-- A universal input is not under another one. -/
theorem notMem_skolemsOf {inputs : List Input}
    (distinct : (inputs.map fun i => i.var.id).Nodup) (before : List Variable) {id : WordId}
    (universal : id ∈ (universalsOf quantifier inputs).map Variable.id) :
    id ∉ (skolemsOf quantifier before inputs).map Prod.fst := by
  intro member
  obtain ⟨x, hx, rfl⟩ := List.mem_map.mp universal
  obtain ⟨i, hi, all, rfl⟩ := (mem_universalsOf quantifier).mp hx
  obtain ⟨s, hs, name⟩ := List.mem_map.mp member
  obtain ⟨⟨j, hj, exist, name'⟩, _⟩ := mem_skolemsOf quantifier hs
  obtain rfl := List.inj_on_of_nodup_map distinct hi hj (name.symm.trans name'.symm)
  rw [all] at exist
  cases exist

/-- What the inputs of a program introduce. -/
theorem foldl_add (p : Program) (inputs : List Input) (o : Opening) :
    (inputs.foldl (Opening.add p) o).commands =
        o.commands ++ declarations p.quantifier o.universals inputs ∧
      (inputs.foldl (Opening.add p) o).universals =
        o.universals ++ universalsOf p.quantifier inputs ∧
      (inputs.foldl (Opening.add p) o).skolems =
        o.skolems ++ skolemsOf p.quantifier o.universals inputs := by
  induction inputs generalizing o with
  | nil => simp [declarations, universalsOf, skolemsOf]
  | cons i rest ih =>
    obtain ⟨commands, universals, skolems⟩ := ih (Opening.add p o i)
    rw [List.foldl_cons, commands, universals, skolems, universalsOf_cons]
    cases prefixed : p.quantifier i with
    | all => simp [Opening.add, prefixed, declarations, skolemsOf]
    | exist =>
      cases empty : o.universals.isEmpty <;>
        simp [Opening.add, prefixed, declarations, skolemsOf, empty]

theorem opening_eq (p : Program) :
    (opening p).commands = declarations p.quantifier [] p.inputs ∧
      (opening p).universals = universalsOf p.quantifier p.inputs ∧
      (opening p).skolems = skolemsOf p.quantifier [] p.inputs := by
  have introduced := foldl_add p p.inputs ⟨[], [], [], []⟩
  simp only [List.nil_append] at introduced
  exact introduced

/-- The words of inputs with their kinds. -/
def inputWords (inputs : List Input) : List (WordId × Kind) :=
  inputs.map fun i => (i.var.id, i.var.kind)

theorem holds_foldl_add (p : Program) {inputs : List Input} {o : Opening}
    {words : List (WordId × Kind)} {inner : List WordId} (holds : o.scope.Holds words inner)
    (distinct : ((words ++ inputWords inputs).map Prod.fst).Nodup) :
    (inputs.foldl (Opening.add p) o).scope.Holds (words ++ inputWords inputs)
      (inner ++ innerInputs p.quantifier o.universals inputs) := by
  induction inputs generalizing o words inner with
  | nil => simpa [inputWords, innerInputs] using holds
  | cons i rest ih =>
    have fresh : i.var.id ∉ words.map Prod.fst := by
      intro member
      rw [List.map_append] at distinct
      exact (List.nodup_append.mp distinct).2.2 _ member _ List.mem_cons_self rfl
    have remaining :
        (((words ++ [(i.var.id, i.var.kind)]) ++ inputWords rest).map Prod.fst).Nodup := by
      simpa [inputWords] using distinct
    have split : words ++ inputWords (i :: rest) =
        (words ++ [(i.var.id, i.var.kind)]) ++ inputWords rest := by simp [inputWords]
    rw [List.foldl_cons, split]
    cases prefixed : p.quantifier i with
    | all =>
      have declared := holds.declare fresh i.var.kind false
      have whole := ih (o := Opening.add p o i) (by simpa [Opening.add, prefixed] using declared)
        remaining
      simpa [Opening.add, prefixed, innerInputs, Scope.innerOf] using whole
    | exist =>
      have declared := holds.declare fresh i.var.kind o.universals.isEmpty
      cases empty : o.universals.isEmpty with
      | true =>
        rw [empty] at declared
        have whole := ih (o := Opening.add p o i)
          (by simpa [Opening.add, prefixed, empty] using declared) remaining
        simpa [Opening.add, prefixed, innerInputs, Scope.innerOf, empty] using whole
      | false =>
        rw [empty] at declared
        have whole := ih (o := Opening.add p o i)
          (by simpa [Opening.add, prefixed, empty] using declared) remaining
        simpa [Opening.add, prefixed, innerInputs, Scope.innerOf, empty] using whole

end Script

namespace Reading

open Script (declarations universalsOf skolemsOf innerInputs)

variable {U : Type u} (R : Reading U) (quantifier : Input → Quantifier)

/-- The declarations of inputs are met by strategies for them. -/
theorem hasModel_declarations (rest : List Command) (before : List Variable)
    (inputs : List Input) (env : Env U) :
    R.HasModel env (declarations quantifier before inputs ++ rest) ↔
      R.Strategies quantifier (fun next => R.HasModel next rest) before inputs env := by
  induction inputs generalizing before env with
  | nil => rfl
  | cons i inputs ih =>
    cases prefixed : quantifier i with
    | all => simp only [declarations, Strategies, prefixed, ih]
    | exist =>
      have declared : ∀ more, R.HasModel env
          ((if before.isEmpty then i.var.command else i.var.skolemCommand before) :: more) ↔
          ∃ f, R.Maps (before.map fun x => .value x.kind) (.value i.var.kind) f ∧
            R.HasModel (Function.update env (.word i.var.id) f) more := by
        intro more
        cases before with
        | nil => exact Iff.rfl
        | cons x others => exact Iff.rfl
      simp only [declarations, Strategies, prefixed, List.cons_append, declared, ih]

end Reading

end SmtDialogue
