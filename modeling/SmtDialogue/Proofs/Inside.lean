import SmtDialogue.Proofs.Opening

/-!
# Inputs inside the quantified assertion

Inside the assertion the universal inputs have any values, and each input under them
is bound to what its function makes of these. These are exactly the values that
follow the strategies by which the inputs were declared.
-/

namespace SmtDialogue

universe u

namespace Reading

open Script (universalsOf skolemsOf innerInputs)

variable {U : Type u} (R : Reading U) {quantifier : Input → Quantifier}

/-- Gives values to variables. -/
def setAll (env : Env U) : List Variable → List U → Env U
  | x :: vars, u :: us => setAll (env.setWord x.id u) vars us
  | _, _ => env

theorem forAll_iff {P : Env U → Prop} {vars : List Variable} {env : Env U} :
    R.ForAll P (vars.map fun x => (x.id, x.kind)) env ↔
      ∀ us, R.ValuesOf us vars → P (setAll env vars us) := by
  induction vars generalizing env with
  | nil =>
    constructor
    · intro holds us values
      obtain rfl := List.forall₂_nil_right_iff.mp values
      exact holds
    · intro holds
      exact holds [] .nil
  | cons x vars ih =>
    simp only [List.map_cons, ForAll, ih]
    constructor
    · intro holds us values
      obtain ⟨u, rest, fits, others, rfl⟩ := List.forall₂_cons_right_iff.mp values
      exact holds u fits rest others
    · intro holds u fits us values
      exact holds (u :: us) (.cons fits values)

theorem setAll_of_ne {n : Name} (vars : List Variable) (h : ∀ x ∈ vars, n ≠ .word x.id)
    (us : List U) (env : Env U) : setAll env vars us n = env n := by
  induction vars generalizing us env with
  | nil => rfl
  | cons x vars ih =>
    cases us with
    | nil => rfl
    | cons u us =>
      rw [setAll, ih fun y hy => h y (List.mem_cons_of_mem x hy)]
      exact Env.setWord_of_ne (h x List.mem_cons_self) u

theorem setAll_values {v : Valuation U} {id : WordId} {vars : List Variable}
    (h : id ∈ vars.map Variable.id) (env : Env U) :
    setAll env vars (vars.map fun x => v x.id) (.word id) [] = v id := by
  induction vars generalizing env with
  | nil => simp at h
  | cons x vars ih =>
    rw [List.map_cons, setAll]
    by_cases later : id ∈ vars.map Variable.id
    · exact ih later _
    · obtain rfl : id = x.id := by
        rcases List.mem_cons.mp h with same | member
        · exact same
        · exact absurd member later
      rw [setAll_of_ne vars, Env.setWord_self]
      intro y hy same
      exact later (List.mem_map.mpr ⟨y, hy, (Name.word.inj same).symm⟩)

theorem evalArgs_words (env : Env U) (ids : List WordId) :
    R.evalArgs env (ids.map Term.word) = ids.map fun id => env (.word id) [] := by
  induction ids with
  | nil => rfl
  | cons id rest ih => simp only [List.map_cons, evalArgs, ih, Term.word, eval]

/-- Every input under universal ones is bound to what its function makes of these. -/
theorem defineAll_skolems {skolems : List (WordId × List WordId)}
    (distinct : (skolems.map Prod.fst).Nodup)
    (apart : ∀ s ∈ skolems, ∀ id ∈ s.2, id ∉ skolems.map Prod.fst) (env : Env U) :
    ∀ s ∈ skolems, R.defineAll env (skolems.map Script.skolemBinding) (.word s.1) [] =
      env (.word s.1) (s.2.map fun id => env (.word id) []) := by
  induction skolems generalizing env with
  | nil => simp
  | cons s rest ih =>
    rw [List.map_cons, List.nodup_cons] at distinct
    have value : R.eval env (Script.skolemBinding s).2 =
        env (.word s.1) (s.2.map fun id => env (.word id) []) := by
      simp only [Script.skolemBinding, eval, evalArgs_words]
    have step : R.defineAll env ((s :: rest).map Script.skolemBinding) =
        R.defineAll (env.setWord s.1 (R.eval env (Script.skolemBinding s).2))
          (rest.map Script.skolemBinding) := rfl
    have names : (rest.map Script.skolemBinding).map Prod.fst = rest.map Prod.fst := by
      simp [Script.skolemBinding]
    intro t ht
    rw [step, value]
    rcases List.mem_cons.mp ht with rfl | ht
    · rw [defineAll_of_ne, Env.setWord_self]
      intro id member same
      rw [names] at member
      exact distinct.1 (Name.word.inj same ▸ member)
    · have others : ∀ id ∈ t.2, id ≠ s.1 := by
        intro id arg same
        exact apart t (List.mem_cons_of_mem s ht) id arg (same ▸ List.mem_cons_self)
      have later := ih distinct.2 (fun r hr id arg member =>
        apart r (List.mem_cons_of_mem s hr) id arg (List.mem_cons_of_mem _ member))
        (env.setWord s.1 (env (.word s.1) (s.2.map fun id => env (.word id) []))) t ht
      have name : t.1 ≠ s.1 := fun same => distinct.1 (List.mem_map.mpr ⟨t, ht, same⟩)
      rw [later, Env.setWord_of_ne (by simpa using name)]
      congr 1
      refine List.map_congr_left fun id arg => ?_
      rw [Env.setWord_of_ne (by simpa using others id arg)]

/-- Values that follow strategies are of their kinds where the inputs are universal. -/
theorem valuesOf_follows {env : Env U} {v : Valuation U} {us : List U} {inputs : List Input}
    (follows : R.Follows quantifier env v us inputs) :
    R.ValuesOf ((universalsOf quantifier inputs).map fun x => v x.id)
      (universalsOf quantifier inputs) := by
  induction inputs generalizing us with
  | nil => exact .nil
  | cons i rest ih =>
    rw [Script.universalsOf_cons]
    cases prefixed : quantifier i with
    | all =>
      simp only [Follows, prefixed] at follows
      exact .cons follows.1 (ih follows.2)
    | exist =>
      simp only [Follows, prefixed] at follows
      simpa using ih follows.2

/-- All values of the universal inputs can be followed. -/
theorem exists_follows {inputs : List Input} (distinct : (inputs.map fun i => i.var.id).Nodup)
    (env : Env U) (start : Valuation U) (before us : List U)
    (values : R.ValuesOf us (universalsOf quantifier inputs)) :
    ∃ v : Valuation U, (∀ id, (∀ i ∈ inputs, id ≠ i.var.id) → v id = start id) ∧
      R.Follows quantifier env v before inputs ∧
      (universalsOf quantifier inputs).map (fun x => v x.id) = us := by
  induction inputs generalizing start before us with
  | nil =>
    obtain rfl := List.forall₂_nil_right_iff.mp values
    exact ⟨start, fun _ _ => rfl, trivial, rfl⟩
  | cons i rest ih =>
    rw [List.map_cons, List.nodup_cons] at distinct
    have fresh : ∀ j ∈ rest, i.var.id ≠ j.var.id := by
      intro j hj same
      exact distinct.1 (List.mem_map.mpr ⟨j, hj, same.symm⟩)
    -- the value of the first input is fixed in the start of the others
    have settled : ∀ (u : U) (v : Valuation U),
        (∀ id, (∀ j ∈ rest, id ≠ j.var.id) → v id = Function.update start i.var.id u id) →
          v i.var.id = u ∧ ∀ id, (∀ j ∈ i :: rest, id ≠ j.var.id) → v id = start id := by
      intro u v same
      refine ⟨by rw [same _ fresh, Function.update_self], fun id others => ?_⟩
      rw [same id fun j hj => others j (List.mem_cons_of_mem i hj),
        Function.update_of_ne (others i List.mem_cons_self)]
    rw [Script.universalsOf_cons] at values ⊢
    cases prefixed : quantifier i with
    | all =>
      simp only [prefixed, if_true, List.cons_append, List.nil_append] at values ⊢
      obtain ⟨u, others, fits, remaining, rfl⟩ := List.forall₂_cons_right_iff.mp values
      obtain ⟨v, same, follows, given⟩ :=
        ih distinct.2 (Function.update start i.var.id u) (before ++ [u]) others remaining
      obtain ⟨value, outside⟩ := settled u v same
      refine ⟨v, outside, ?_, by rw [List.map_cons, value, given]⟩
      simp only [Follows, prefixed]
      rw [value]
      exact ⟨fits, follows⟩
    | exist =>
      simp only [prefixed, reduceCtorEq, if_false, List.nil_append] at values ⊢
      obtain ⟨v, same, follows, given⟩ := ih distinct.2
        (Function.update start i.var.id (env (.word i.var.id) before)) before us values
      obtain ⟨value, outside⟩ := settled _ v same
      refine ⟨v, outside, ?_, given⟩
      simp only [Follows, prefixed]
      exact ⟨value, follows⟩

section

variable {R} {env : Env U} {v : Valuation U} (before : List Variable) {inputs : List Input}

/-- A skolem input has the value that its function has at the inputs before it. -/
theorem follows_skolem
    (follows : R.Follows quantifier env v (before.map fun x => v x.id) inputs) :
    ∀ s ∈ skolemsOf quantifier before inputs, v s.1 = env (.word s.1) (s.2.map v) := by
  induction inputs generalizing before with
  | nil => simp [skolemsOf]
  | cons i rest ih =>
    cases prefixed : quantifier i with
    | all =>
      simp only [Follows, prefixed] at follows
      simp only [skolemsOf, prefixed]
      exact ih _ (by simpa using follows.2)
    | exist =>
      simp only [Follows, prefixed] at follows
      simp only [skolemsOf, prefixed]
      intro s hs
      rcases List.mem_append.mp hs with here | later
      · split at here
        · simp at here
        · obtain rfl := List.mem_singleton.mp here
          simpa [Function.comp_def] using follows.1
      · exact ih _ follows.2 s later

/-- An existential input outside is a constant. -/
theorem follows_outer
    (follows : R.Follows quantifier env v (before.map fun x => v x.id) inputs) :
    ∀ i ∈ inputs, i.var.id ∉ innerInputs quantifier before inputs →
      v i.var.id = env (.word i.var.id) [] := by
  induction inputs generalizing before with
  | nil => simp
  | cons i rest ih =>
    cases prefixed : quantifier i with
    | all =>
      simp only [Follows, prefixed] at follows
      simp only [innerInputs, prefixed, List.mem_cons, not_or]
      intro j hj outside
      rcases hj with rfl | hj
      · exact absurd rfl outside.1
      · exact ih _ (by simpa using follows.2) j hj outside.2
    | exist =>
      simp only [Follows, prefixed] at follows
      simp only [innerInputs, prefixed, List.mem_append, not_or]
      intro j hj outside
      rcases List.mem_cons.mp hj with rfl | hj
      · cases before with
        | nil => exact follows.1
        | cons x others => simp [Scope.innerOf] at outside
      · exact ih _ follows.2 j hj outside.2

/-- Inside the assertion the inputs have the values that follow their functions. -/
theorem inside_follows (distinct : (inputs.map fun i => i.var.id).Nodup)
    (follows : R.Follows quantifier env v [] inputs) (outer : Env U)
    (same : ∀ i ∈ inputs, outer (.word i.var.id) = env (.word i.var.id)) :
    ∀ i ∈ inputs,
      R.defineAll
        (setAll outer (universalsOf quantifier inputs)
          ((universalsOf quantifier inputs).map fun x => v x.id))
        ((skolemsOf quantifier [] inputs).map Script.skolemBinding) (.word i.var.id) [] =
      v i.var.id := by
  have names : ((skolemsOf quantifier [] inputs).map Script.skolemBinding).map Prod.fst =
      (skolemsOf quantifier [] inputs).map Prod.fst := by
    simp [Script.skolemBinding]
  have universal : ∀ s ∈ skolemsOf quantifier [] inputs, ∀ id ∈ s.2,
      id ∈ (universalsOf quantifier inputs).map Variable.id := by
    intro s hs id arg
    simpa using (Script.mem_skolemsOf quantifier hs).2 id arg
  have unbound : ∀ id, id ∉ (skolemsOf quantifier [] inputs).map Prod.fst → ∀ start : Env U,
      R.defineAll start ((skolemsOf quantifier [] inputs).map Script.skolemBinding) (.word id) =
        start (.word id) := by
    intro id absent start
    refine defineAll_of_ne (fun other member name => absent ?_) start
    rw [names] at member
    exact Name.word.inj name ▸ member
  have unset : ∀ id, id ∉ (universalsOf quantifier inputs).map Variable.id → ∀ us,
      setAll outer (universalsOf quantifier inputs) us (.word id) = outer (.word id) := by
    intro id absent us
    refine setAll_of_ne _ (fun x hx name => absent ?_) us outer
    exact List.mem_map.mpr ⟨x, hx, (Name.word.inj name).symm⟩
  intro i hi
  by_cases all : i.var.id ∈ (universalsOf quantifier inputs).map Variable.id
  · rw [unbound _ (Script.notMem_skolemsOf quantifier distinct [] all)]
    exact setAll_values all outer
  · by_cases skolem : i.var.id ∈ (skolemsOf quantifier [] inputs).map Prod.fst
    · obtain ⟨s, hs, name⟩ := List.mem_map.mp skolem
      have apart : ∀ s ∈ skolemsOf quantifier [] inputs, ∀ id ∈ s.2,
          id ∉ (skolemsOf quantifier [] inputs).map Prod.fst := fun s hs id arg =>
        Script.notMem_skolemsOf quantifier distinct [] (universal s hs id arg)
      have unique := distinct.sublist (Script.sublist_skolemsOf quantifier [] inputs)
      have arguments : ∀ id ∈ s.2, setAll outer (universalsOf quantifier inputs)
          ((universalsOf quantifier inputs).map fun x => v x.id) (.word id) [] = v id :=
        fun id arg => setAll_values (universal s hs id arg) outer
      rw [← name, defineAll_skolems R unique apart _ s hs, List.map_congr_left arguments, name,
        unset _ all, same i hi, ← name]
      exact (follows_skolem [] follows s hs).symm
    · have outside : i.var.id ∉ innerInputs quantifier [] inputs := by
        rw [Script.mem_innerInputs]
        exact fun member => member.elim all skolem
      rw [unbound _ skolem, unset _ all, same i hi]
      exact (follows_outer [] follows i hi outside).symm

end

end Reading

end SmtDialogue
