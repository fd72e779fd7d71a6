import SmtDialogue.Proofs.Meaning

/-!
# Strategies for quantified inputs

Inputs that are quantified one after the other hold when there is a function for
every existential input, of the universal ones before it, such that all values that
follow these functions do. Scripts are written with such functions.
-/

namespace SmtDialogue

universe u

namespace Reading

variable {U : Type u} (R : Reading U) (quantifier : Input → Quantifier)

theorem not_quantified_flip (P : Valuation U → Prop) (inputs : List Input) (v : Valuation U) :
    ¬R.Quantified (fun i => (quantifier i).flip) P inputs v ↔
      R.Quantified quantifier (fun v => ¬P v) inputs v := by
  induction inputs generalizing v with
  | nil => rfl
  | cons i rest ih =>
    cases prefixed : quantifier i with
    | exist => simp [Quantified, prefixed, Quantifier.flip, ← ih]
    | all => simp [Quantified, prefixed, Quantifier.flip, ← ih]

theorem quantified_congr {P Q : Valuation U → Prop} (same : ∀ v, P v ↔ Q v)
    (inputs : List Input) (v : Valuation U) :
    R.Quantified quantifier P inputs v ↔ R.Quantified quantifier Q inputs v := by
  have equal : P = Q := funext fun v => propext (same v)
  rw [equal]

/-- Values of these variables. -/
def ValuesOf (us : List U) (vars : List Variable) : Prop :=
  List.Forall₂ (fun u (arg : NameSort) => R.carrier arg.text u) us
    (vars.map fun x => .value x.kind)

/-- Existential inputs are given functions of the universal ones before them, and what
follows holds. -/
def Strategies (P : Env U → Prop) : List Variable → List Input → Env U → Prop
  | _, [], env => P env
  | before, i :: rest, env =>
    match quantifier i with
    | .all => Strategies P (before ++ [i.var]) rest env
    | .exist =>
      ∃ f, R.Maps (before.map fun x => .value x.kind) (.value i.var.kind) f ∧
        Strategies P before rest (Function.update env (.word i.var.id) f)

/-- Values of inputs, where the universal ones are of their kinds and the others are what
their functions make of the universal ones before them. -/
def Follows (env : Env U) (v : Valuation U) : List U → List Input → Prop
  | _, [] => True
  | us, i :: rest =>
    match quantifier i with
    | .all => R.carrier i.var.kind.sortText (v i.var.id) ∧ Follows env v (us ++ [v i.var.id]) rest
    | .exist => v i.var.id = env (.word i.var.id) us ∧ Follows env v us rest

variable {quantifier}

/-- Only the functions of the inputs change on the way. -/
theorem strategies_congr {P Q : Env U → Prop} {before : List Variable} {inputs : List Input}
    {env : Env U}
    (same : ∀ next : Env U, (∀ n, (∀ i ∈ inputs, n ≠ .word i.var.id) → next n = env n) →
      (P next ↔ Q next)) :
    R.Strategies quantifier P before inputs env ↔ R.Strategies quantifier Q before inputs env := by
  induction inputs generalizing before env with
  | nil => exact same env fun _ _ => rfl
  | cons i rest ih =>
    cases prefixed : quantifier i with
    | all =>
      simp only [Strategies, prefixed]
      refine ih fun next others => same next fun n hn => ?_
      exact others n fun j hj => hn j (List.mem_cons_of_mem i hj)
    | exist =>
      simp only [Strategies, prefixed]
      refine exists_congr fun f => and_congr_right fun _ => ih fun next others => ?_
      refine same next fun n hn => ?_
      rw [others n fun j hj => hn j (List.mem_cons_of_mem i hj)]
      exact Function.update_of_ne (hn i List.mem_cons_self) f env

theorem valuesOf_concat {us : List U} {vars : List Variable} {x : Variable} :
    R.ValuesOf us (vars ++ [x]) ↔
      ∃ front u, us = front ++ [u] ∧ R.ValuesOf front vars ∧ R.carrier x.kind.sortText u := by
  constructor
  · intro values
    induction vars generalizing us with
    | nil =>
      obtain ⟨u, rest, fits, nothing, rfl⟩ := List.forall₂_cons_right_iff.mp values
      obtain rfl := List.forall₂_nil_right_iff.mp nothing
      exact ⟨[], u, rfl, .nil, fits⟩
    | cons y vars ih =>
      obtain ⟨w, rest, first, others, rfl⟩ := List.forall₂_cons_right_iff.mp values
      obtain ⟨front, u, rfl, later, fits⟩ := ih others
      exact ⟨w :: front, u, rfl, .cons first later, fits⟩
  · rintro ⟨front, u, rfl, values, fits⟩
    have last : List.Forall₂ (fun u (arg : NameSort) => R.carrier arg.text u) [u]
        ([x].map fun x => .value x.kind) := .cons fits .nil
    simpa [ValuesOf] using List.rel_append values last

/-- Everything that follows the functions holds, whatever the universal inputs before. -/
def Outcome (quantifier : Input → Quantifier) (P : Valuation U → Prop) (before : List Variable)
    (inputs : List Input) (start : List U → Valuation U) (env : Env U) : Prop :=
  ∀ us, R.ValuesOf us before → ∀ v : Valuation U,
    (∀ id, (∀ i ∈ inputs, id ≠ i.var.id) → v id = start us id) →
      R.Follows quantifier env v us inputs → P v

/-- A value for every choice of the inputs before is a function of these. -/
theorem exists_maps_iff {vars : List Variable} {x : Variable} {P : List U → U → Prop} :
    (∀ us, R.ValuesOf us vars → ∃ u, R.carrier x.kind.sortText u ∧ P us u) ↔
      ∃ f, R.Maps (vars.map fun x => .value x.kind) (.value x.kind) f ∧
        ∀ us, R.ValuesOf us vars → P us (f us) := by
  constructor
  · intro choose
    obtain ⟨default, _⟩ := R.inhabited x.kind.sortText
    have total : ∀ us, ∃ u, R.ValuesOf us vars → R.carrier x.kind.sortText u ∧ P us u := by
      intro us
      by_cases values : R.ValuesOf us vars
      · obtain ⟨u, hu⟩ := choose us values
        exact ⟨u, fun _ => hu⟩
      · exact ⟨default, fun given => absurd given values⟩
    obtain ⟨f, hf⟩ := Classical.skolem.mp total
    exact ⟨f, fun us values => (hf us values).1, fun us values => (hf us values).2⟩
  · rintro ⟨f, maps, holds⟩ us values
    exact ⟨f us, maps us values, holds us values⟩

/-- The start of the remaining inputs once a universal one has its value. -/
def extended (start : List U → Valuation U) (id : WordId) (us : List U) : Valuation U :=
  match us.getLast? with
  | some u => Function.update (start us.dropLast) id u
  | none => start us

/-- The start of the remaining inputs once an existential one has the value of its function. -/
def answered (start : List U → Valuation U) (id : WordId) (f : List U → U) (us : List U) :
    Valuation U :=
  Function.update (start us) id (f us)

theorem extended_concat (start : List U → Valuation U) (id : WordId) (us : List U) (u : U) :
    extended start id (us ++ [u]) = Function.update (start us) id u := by
  simp [extended]

section

variable {R} {P : Valuation U → Prop} {before : List Variable} {i : Input} {rest : List Input}
  {start : List U → Valuation U} {env : Env U}

theorem outcome_all (fresh : ∀ j ∈ rest, i.var.id ≠ j.var.id) (all : quantifier i = .all) :
    R.Outcome quantifier P (before ++ [i.var]) rest (extended start i.var.id) env ↔
      R.Outcome quantifier P before (i :: rest) start env := by
  constructor
  · intro outcome us values v same follows
    simp only [Follows, all] at follows
    refine outcome (us ++ [v i.var.id]) ?_ v ?_ follows.2
    · exact R.valuesOf_concat.mpr ⟨us, _, rfl, values, follows.1⟩
    · intro id others
      rw [extended_concat]
      by_cases here : id = i.var.id
      · subst here
        rw [Function.update_self]
      · rw [Function.update_of_ne here]
        refine same id fun j hj => ?_
        rcases List.mem_cons.mp hj with rfl | hj
        · exact here
        · exact others j hj
  · intro outcome us values v same follows
    obtain ⟨front, u, rfl, values, fits⟩ := R.valuesOf_concat.mp values
    have value : v i.var.id = u := by
      rw [same _ fresh, extended_concat, Function.update_self]
    refine outcome front values v ?_ ?_
    · intro id others
      rw [same id fun j hj => others j (List.mem_cons_of_mem i hj), extended_concat,
        Function.update_of_ne (others i List.mem_cons_self)]
    · simp only [Follows, all]
      rw [value]
      exact ⟨fits, follows⟩

theorem outcome_exist (fresh : ∀ j ∈ rest, i.var.id ≠ j.var.id) (exist : quantifier i = .exist) :
    R.Outcome quantifier P before rest (answered start i.var.id (env (.word i.var.id))) env ↔
      R.Outcome quantifier P before (i :: rest) start env := by
  constructor
  · intro outcome us values v same follows
    simp only [Follows, exist] at follows
    refine outcome us values v ?_ follows.2
    intro id others
    by_cases here : id = i.var.id
    · subst here
      rw [answered, Function.update_self, follows.1]
    · rw [answered, Function.update_of_ne here]
      refine same id fun j hj => ?_
      rcases List.mem_cons.mp hj with rfl | hj
      · exact here
      · exact others j hj
  · intro outcome us values v same follows
    have value := same _ fresh
    rw [answered, Function.update_self] at value
    refine outcome us values v ?_ ?_
    · intro id others
      rw [same id fun j hj => others j (List.mem_cons_of_mem i hj), answered,
        Function.update_of_ne (others i List.mem_cons_self)]
    · simp only [Follows, exist]
      exact ⟨value, follows⟩

end

variable (quantifier) in
/-- Quantified inputs hold exactly when there are functions all of whose outcomes do. -/
theorem quantified_iff_strategies {P : Valuation U → Prop} {inputs : List Input}
    (distinct : (inputs.map fun i => i.var.id).Nodup) (before : List Variable)
    (start : List U → Valuation U) (env : Env U) :
    (∀ us, R.ValuesOf us before → R.Quantified quantifier P inputs (start us)) ↔
      R.Strategies quantifier (R.Outcome quantifier P before inputs start) before inputs env := by
  induction inputs generalizing before start env with
  | nil =>
    simp only [Quantified, Strategies, Outcome, Follows]
    constructor
    · intro holds us values v same _
      have equal : v = start us := funext fun id => same id (by simp)
      exact equal ▸ holds us values
    · intro outcome us values
      exact outcome us values (start us) (fun _ _ => rfl) trivial
  | cons i rest ih =>
    rw [List.map_cons, List.nodup_cons] at distinct
    have fresh : ∀ j ∈ rest, i.var.id ≠ j.var.id := by
      intro j hj same
      exact distinct.1 (List.mem_map.mpr ⟨j, hj, same.symm⟩)
    cases prefixed : quantifier i with
    | all =>
      have later := ih distinct.2 (before ++ [i.var]) (extended start i.var.id) env
      simp only [Strategies, prefixed]
      rw [← strategies_congr R fun next _ => outcome_all fresh prefixed, ← later]
      simp only [Quantified, prefixed]
      constructor
      · intro holds us values
        obtain ⟨front, u, rfl, values, fits⟩ := R.valuesOf_concat.mp values
        rw [extended_concat]
        exact holds front values u fits
      · intro holds us values u fits
        have extension := holds (us ++ [u]) (R.valuesOf_concat.mpr ⟨us, u, rfl, values, fits⟩)
        rwa [extended_concat] at extension
    | exist =>
      simp only [Quantified, Strategies, prefixed]
      rw [exists_maps_iff]
      refine exists_congr fun f => and_congr_right fun _ => ?_
      have later := ih distinct.2 before (answered start i.var.id f)
        (Function.update env (.word i.var.id) f)
      refine later.trans (strategies_congr R fun next others => ?_)
      -- the function of this input is no longer replaced
      have kept : next (.word i.var.id) = f := by
        rw [others _ fun j hj same => fresh j hj (Name.word.inj same), Function.update_self]
      rw [← kept]
      exact outcome_exist fresh prefixed

end Reading

end SmtDialogue
