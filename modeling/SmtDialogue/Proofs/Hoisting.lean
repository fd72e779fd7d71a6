import SmtDialogue.Proofs.Contexts
import SmtDialogue.Proofs.Dependencies

/-!
# Words outside and the inputs they depend on

The gate looks backwards, from an objective to the inputs that its word depends on, and a
script is written forwards, word by word, each outside as soon as its arguments are. The two
agree: a word stands outside exactly when it depends on no input from the first universal
one on. So the gate refuses the objectives whose words are not outside, and behind it only
an objective over a word that nothing declares is left to fail.
-/

namespace SmtDialogue

namespace Definition

variable {words : List (WordId × Kind)} {inner : List WordId} {ds : List Definition}

/-- What holds of the inner words, and of a word with one of its arguments, holds of every
word that is bound inside. -/
theorem Follow.opened_induction {P : WordId → Prop} (follow : Follow words inner ds)
    (start : ∀ id ∈ inner, P id)
    (step : ∀ d ∈ ds, ∀ arg ∈ d.assignment.args, P arg → P d.assignment.id) :
    ∀ id ∈ inner ++ opened ds, P id := by
  induction ds generalizing words inner with
  | nil => simpa [opened] using start
  | cons d rest ih =>
    obtain ⟨fits, later⟩ := follow
    rw [opened_cons, ← List.append_assoc]
    refine ih later (fun id member => ?_) fun e he => step e (List.mem_cons_of_mem d he)
    rcases List.mem_append.mp member with old | new
    · exact start id old
    · cases closed : d.closed with
      | true => simp [Scope.innerOf, closed] at new
      | false =>
        -- a word inside has an argument inside, which came before it
        have inside : ¬∀ arg ∈ d.assignment.args, arg ∉ inner := fun none => by
          simp [fits.closed.mpr none] at closed
        push Not at inside
        obtain ⟨arg, listed, old⟩ := inside
        simp only [Scope.innerOf, closed, Bool.false_eq_true, if_false, List.mem_singleton] at new
        exact new ▸ step d List.mem_cons_self arg listed (start arg old)

/-- A word with an argument inside is bound inside. -/
theorem Follow.mem_opened (follow : Follow words inner ds) :
    ∀ d ∈ ds, ∀ arg ∈ d.assignment.args, arg ∈ inner ++ opened ds →
      d.assignment.id ∈ opened ds := by
  induction ds generalizing words inner with
  | nil => simp
  | cons d rest ih =>
    have fresh := follow.opened_fresh
    obtain ⟨fits, later⟩ := follow
    intro e he arg listed inside
    rcases List.mem_cons.mp he with rfl | he
    · rcases List.mem_append.mp inside with old | new
      · have opens : e.closed = false := by
          by_contra closed
          exact fits.closed.mp (by simpa using closed) arg listed old
        rw [opened_cons, Scope.innerOf, opens]
        exact List.mem_append_left _ (by simp)
      · -- the arguments of a definition are known before it
        exact absurd (fits.known arg listed) (fresh arg new)
    · rw [opened_cons, ← List.append_assoc] at inside
      rw [opened_cons]
      exact List.mem_append_right _ (ih later e he arg listed inside)

end Definition

namespace Program

open Layout (innerWords)

variable {p : Program} {ds : List Definition} {id : WordId}

theorem Layout.uses_iff (layout : p.Layout ds) {arg : WordId} :
    p.Uses id arg ↔ ∃ d ∈ ds, d.assignment.id = id ∧ arg ∈ d.assignment.args := by
  rw [Program.uses_iff layout.distinct, ← layout.assignments]
  simp

/-- The words inside are those that depend on an input from the first universal one on. -/
theorem Layout.mem_innerWords (layout : p.Layout ds) :
    id ∈ innerWords p ds ↔ ∃ i ∈ p.inputDependencies id, i ∈ Features.varyingInputs p := by
  simp only [Script.mem_varyingInputs, mem_inputDependencies]
  constructor
  · refine layout.follow.opened_induction (P := fun id => ∃ i,
      (i ∈ p.inputs.map (fun i => i.var.id) ∧ Relation.ReflTransGen p.Uses id i) ∧
        i ∈ Script.innerInputs p.quantifier [] p.inputs) (fun other inner => ?_)
      (fun d listed arg used found => ?_) id
    · have names : (Script.inputWords p.inputs).map Prod.fst =
          p.inputs.map fun i => i.var.id := by
        simp [Script.inputWords]
      have input := Layout.innerInputs_known p.quantifier p.inputs other inner
      exact ⟨other, ⟨names ▸ input, .refl⟩, inner⟩
    · obtain ⟨i, ⟨input, path⟩, inner⟩ := found
      exact ⟨i, ⟨input, .head (layout.uses_iff.mpr ⟨d, listed, rfl, used⟩) path⟩, inner⟩
  · rintro ⟨i, ⟨_, path⟩, inner⟩
    induction path using Relation.ReflTransGen.head_induction_on with
    | refl => exact List.mem_append_left _ inner
    | head edge _ inside =>
      obtain ⟨d, listed, rfl, used⟩ := layout.uses_iff.mp edge
      exact List.mem_append_right _ (layout.follow.mem_opened d listed _ used inside)

/-- A word without assignment depends on inputs only by being one. -/
theorem inputDependencies_of_notMem (missing : id ∉ p.words.map Prod.fst) :
    p.inputDependencies id = [] := by
  refine List.eq_nil_iff_forall_not_mem.mpr fun i member => ?_
  obtain ⟨input, path⟩ := mem_inputDependencies.mp member
  rcases Relation.ReflTransGen.cases_head path with rfl | ⟨arg, ⟨a, found, _⟩, _⟩
  · refine missing ?_
    simp only [words, List.map_append, List.map_map]
    exact List.mem_append_left _ (List.mem_append_left _ input)
  · have listed := List.mem_reverse.mp (List.mem_of_find?_eq_some found)
    have same : a.id = id := by simpa using List.find?_some found
    refine missing ?_
    simp only [words, List.map_append, List.map_map]
    exact List.mem_append_right _ (List.mem_map.mpr ⟨a, listed, same⟩)

end Program

namespace Script

open Program.Layout (innerWords)

variable {p : Program}

/-- Whether a word of the program is not outside in a scope. -/
def insideOf (p : Program) (scope : Scope) (id : WordId) : Bool :=
  decide (id ∈ p.words.map Prod.fst) && !scope.isTop id

/-- The gate and the emitter agree on the words outside. When the assignments of a program
of distinct words have been written, a word stands outside exactly when it is a word of the
program and depends on no input from the first universal one on. The objectives that the
gate objects to are, in order, those over words of the program that are not outside; and
once it passes, an objective is refused as undeclared only when its word is introduced
nowhere. -/
theorem isTop_iff_inputDependencies {d : Definitions} (distinct : (p.words.map Prod.fst).Nodup)
    (defined : definitions (outerScope p) p.assignments = .ok d) :
    (∀ id, d.scope.isTop id = true ↔ id ∈ p.words.map Prod.fst ∧
      ∀ i ∈ p.inputDependencies id, i ∉ Features.varyingInputs p) ∧
    (Features.ofProgram p).universalObjectives =
      (p.objectives.filter fun o => insideOf p d.scope o.id).map Objective.name ∧
    ∀ solver, (Features.ofProgram p).check solver = .ok () → ∀ o ∈ p.objectives,
      d.scope.requireTop o.id =
        if o.id ∈ p.words.map Prod.fst then .ok () else .error (.undeclared o.id) := by
  obtain ⟨ds, layout, arranged⟩ :=
    @Parts.exists_arranged p ⟨[], d, []⟩ defined distinct
  have top : ∀ id, d.scope.isTop id = true ↔ id ∈ p.words.map Prod.fst ∧
      ∀ i ∈ p.inputDependencies id, i ∉ Features.varyingInputs p := by
    intro id
    rw [arranged.scope.top id, layout.mem_innerWords]
    push Not
    exact Iff.rfl
  have varies : ∀ o : Objective, Features.varies p o = insideOf p d.scope o.id := by
    intro o
    by_cases known : o.id ∈ p.words.map Prod.fst
    · have outside := top o.id
      rw [Bool.eq_iff_iff, Features.varies, insideOf, List.any_eq_true]
      simp only [known, true_and, decide_true, Bool.true_and, Bool.not_eq_true',
        ← Bool.not_eq_true, List.contains_iff_mem] at outside ⊢
      rw [outside]
      push Not
      exact Iff.rfl
    · simp [Features.varies, insideOf, known, Program.inputDependencies_of_notMem known]
  have objections : (Features.ofProgram p).universalObjectives =
      (p.objectives.filter fun o => insideOf p d.scope o.id).map Objective.name := by
    simp only [Features.ofProgram, funext varies]
  refine ⟨top, objections, fun solver passed o listed => ?_⟩
  have none : (Features.ofProgram p).universalObjectives = [] := by
    rw [Features.check] at passed
    split at passed
    · cases passed
    · split at passed
      · next empty => exact List.isEmpty_iff.mp empty
      · cases passed
  rw [objections, List.map_eq_nil_iff, List.filter_eq_nil_iff] at none
  have outside := none o listed
  rw [Scope.requireTop]
  by_cases known : o.id ∈ p.words.map Prod.fst
  · rw [if_pos known, if_pos (by simpa [insideOf, known] using outside)]
  · rw [if_neg known, if_neg fun isTop => known ((top o.id).mp isTop).1]

/-- A program that is to be proved, with an input on each side of one that then is
universal, and a word over each of them. -/
def staggered (objectives : List Objective) : Program where
  polarity := .prove
  sorts := []
  inputs := [⟨.all, ⟨⟨0⟩, "x", .word 8⟩⟩, ⟨.exist, ⟨⟨1⟩, "y", .word 8⟩⟩,
    ⟨.all, ⟨⟨2⟩, "z", .word 8⟩⟩]
  constants := []
  tables := []
  arrays := []
  functions := []
  assumptions := []
  assignments := [⟨⟨3⟩, .word 8, .plus, [⟨0⟩, ⟨0⟩]⟩, ⟨⟨4⟩, .word 8, .plus, [⟨3⟩, ⟨2⟩]⟩,
    ⟨⟨5⟩, .bool, .lessEq, [⟨4⟩, ⟨1⟩]⟩]
  constraints := []
  output := ⟨5⟩
  objectives
  style := .lexicographic

/-- The gate objects to the word over the last input. Without it the gate passes, and of the
other two objectives the one over no word of the program is refused. -/
theorem isTop_iff_inputDependencies_staggered :
    (Features.ofProgram (staggered [⟨"low", ⟨3⟩, .minimize⟩, ⟨"mixed", ⟨4⟩, .minimize⟩,
      ⟨"lost", ⟨9⟩, .minimize⟩])).universalObjectives = ["mixed"] ∧
    (Features.ofProgram (staggered [⟨"low", ⟨3⟩, .minimize⟩, ⟨"lost", ⟨9⟩, .minimize⟩])).check
      (.full "solver") = .ok () ∧
    ∃ d, definitions (outerScope (staggered [])) (staggered []).assignments = .ok d ∧
      (∀ i ∈ (staggered []).inputDependencies ⟨3⟩, i ∉ Features.varyingInputs (staggered [])) ∧
      d.scope.requireTop ⟨3⟩ = .ok () ∧ d.scope.requireTop ⟨9⟩ = .error (.undeclared ⟨9⟩) := by
  have distinct : ∀ os, ((staggered os).words.map Prod.fst).Nodup := by
    intro os
    have words : (staggered os).words.map Prod.fst = [⟨0⟩, ⟨1⟩, ⟨2⟩, ⟨3⟩, ⟨4⟩, ⟨5⟩] := rfl
    rw [words]
    decide
  obtain ⟨d, first⟩ : ∃ d,
      definitions (outerScope (staggered [])) (staggered []).assignments = .ok d := ⟨_, rfl⟩
  have defined : ∀ os,
      definitions (outerScope (staggered os)) (staggered os).assignments = .ok d :=
    fun _ => first
  have scope : (definitions (outerScope (staggered [])) (staggered []).assignments).map
      Definitions.scope = .ok [⟨⟨0⟩, .word 8, true⟩, ⟨⟨1⟩, .word 8, false⟩,
        ⟨⟨2⟩, .word 8, false⟩, ⟨⟨3⟩, .word 8, true⟩, ⟨⟨4⟩, .word 8, false⟩,
        ⟨⟨5⟩, .bool, false⟩] := rfl
  rw [first] at scope
  have scope := Except.ok.inj scope
  have agree := fun os => isTop_iff_inputDependencies (distinct os) (defined os)
  have objections := fun os => (agree os).2.1
  have passed : (Features.ofProgram (staggered [⟨"low", ⟨3⟩, .minimize⟩,
      ⟨"lost", ⟨9⟩, .minimize⟩])).check (.full "solver") = .ok () := by
    have none : (Features.ofProgram (staggered [⟨"low", ⟨3⟩, .minimize⟩,
        ⟨"lost", ⟨9⟩, .minimize⟩])).universalObjectives = [] := by
      rw [objections, scope]
      rfl
    rw [Features.check, none]
    rfl
  have required := (agree _).2.2 _ passed
  refine ⟨?_, passed, d, first, ?_, required ⟨"low", ⟨3⟩, .minimize⟩ (by simp [staggered]),
    required ⟨"lost", ⟨9⟩, .minimize⟩ (by simp [staggered])⟩
  · rw [objections, scope]
    rfl
  · refine (((agree []).1 ⟨3⟩).mp ?_).2
    rw [scope]
    rfl

end Script

end SmtDialogue
