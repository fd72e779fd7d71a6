import SmtDialogue.Proofs.Dependencies

/-!
# The search for dependencies

A program may define a word several times, in terms of itself, in terms of words that nothing
introduces, and it may define an input. Of all definitions of a word the last one counts, and
the input dependencies of a word are the inputs that are reached through the definitions that
count. The search ends because the words that wait and the arguments of the definitions that
were not followed yet become fewer with every turn, also where the stack becomes longer.
-/

namespace SmtDialogue.Program

variable {defs : List (WordId × List WordId)} {id : WordId}

/-- The turns that a search can still take: one for each word that waits, and one for each
argument of a definition that was not followed yet. -/
def turnsLeft (defs : List (WordId × List WordId)) (stack : List WordId) : Nat :=
  stack.length + (defs.map fun d => d.2.length).sum

theorem sum_remove_le (id : WordId) (defs : List (WordId × List WordId)) :
    ((Keyed.remove Prod.fst id defs).map fun d => d.2.length).sum ≤
      (defs.map fun d => d.2.length).sum := by
  have kept : (Keyed.remove Prod.fst id defs).Sublist defs := List.filter_sublist
  exact (kept.map _).sum_le_sum fun _ _ => Nat.zero_le _

theorem sum_remove_add_le {d : WordId × List WordId}
    (found : Keyed.get? Prod.fst id defs = some d) :
    ((Keyed.remove Prod.fst id defs).map fun d => d.2.length).sum + d.2.length ≤
      (defs.map fun d => d.2.length).sum := by
  induction defs with
  | nil => cases found
  | cons e rest ih =>
    by_cases same : e.1 = id
    · have here : Keyed.get? Prod.fst id (e :: rest) = some e :=
        List.find?_cons_of_pos (by simpa using same)
      have gone : Keyed.remove Prod.fst id (e :: rest) = Keyed.remove Prod.fst id rest :=
        List.filter_cons_of_neg (by simpa using same)
      obtain rfl : e = d := Option.some.inj (here.symm.trans found)
      have others := sum_remove_le id rest
      rw [gone, List.map_cons, List.sum_cons]
      omega
    · have behind : Keyed.get? Prod.fst id (e :: rest) = Keyed.get? Prod.fst id rest :=
        List.find?_cons_of_neg (by simpa using same)
      have kept : Keyed.remove Prod.fst id (e :: rest) = e :: Keyed.remove Prod.fst id rest :=
        List.filter_cons_of_pos (by simpa using same)
      have others := ih (behind.symm.trans found)
      rw [kept, List.map_cons, List.map_cons, List.sum_cons, List.sum_cons]
      omega

/-- A turn that follows a definition takes a word from the stack and puts its arguments there. -/
theorem turnsLeft_followed {d : WordId × List WordId}
    (found : Keyed.get? Prod.fst id defs = some d) (rest : List WordId) :
    turnsLeft (Keyed.remove Prod.fst id defs) (d.2 ++ rest) < turnsLeft defs (id :: rest) := by
  have fewer := sum_remove_add_le found
  simp only [turnsLeft, List.length_append, List.length_cons]
  omega

theorem turnsLeft_passed (defs : List (WordId × List WordId)) (id : WordId)
    (rest : List WordId) : turnsLeft defs rest < turnsLeft defs (id :: rest) := by
  simp only [turnsLeft, List.length_cons]
  omega

/-- Every turn puts one word on the list of those reached, so this is a bound on the turns. -/
theorem length_reach_le (defs : List (WordId × List WordId)) (stack reached : List WordId) :
    (reach defs stack reached).length ≤ reached.length + turnsLeft defs stack := by
  induction defs, stack, reached using reach.induct with
  | case1 defs reached =>
    rw [reach]
    omega
  | case2 defs reached id rest d found ih =>
    have fewer := turnsLeft_followed found rest
    rw [reach_some found]
    rw [List.length_cons] at ih
    omega
  | case3 defs reached id rest missing ih =>
    have fewer := turnsLeft_passed defs id rest
    rw [reach_none missing]
    rw [List.length_cons] at ih
    omega

variable {p : Program}

/-- The assignment defines its word and no later one does. -/
def Defines (p : Program) (a : Assignment) : Prop :=
  ∃ earlier later, p.assignments = earlier ++ a :: later ∧ ∀ b ∈ later, b.id ≠ a.id

/-- The words that are reached from a word through arguments of the definitions that count. -/
inductive Reaches (p : Program) (id : WordId) : WordId → Prop
  | self : Reaches p id id
  | argument {a : Assignment} {arg : WordId} (reached : Reaches p id a.id)
    (defines : p.Defines a) (used : arg ∈ a.args) : Reaches p id arg

theorem assignment?_eq_some_iff {a : Assignment} :
    p.assignment? id = some a ↔ p.Defines a ∧ a.id = id := by
  rw [assignment?, List.find?_eq_some_iff_append]
  constructor
  · rintro ⟨same, later, earlier, reversed, others⟩
    have same : a.id = id := by simpa using same
    refine ⟨⟨earlier.reverse, later.reverse, ?_, ?_⟩, same⟩
    · have turned := congrArg List.reverse reversed
      simpa using turned
    · intro b member
      simpa [same] using others b (List.mem_reverse.mp member)
  · rintro ⟨⟨earlier, later, split, others⟩, same⟩
    refine ⟨by simpa using same, later.reverse, earlier.reverse, by simp [split], ?_⟩
    intro b member
    simpa [same] using others b (List.mem_reverse.mp member)

theorem reaches_iff {other : WordId} :
    p.Reaches id other ↔ Relation.ReflTransGen p.Uses id other := by
  constructor
  · intro reached
    induction reached with
    | self => exact .refl
    | argument _ defines used ih =>
      exact ih.tail ⟨_, assignment?_eq_some_iff.mpr ⟨defines, rfl⟩, used⟩
  · intro path
    induction path with
    | refl => exact .self
    | tail _ edge ih =>
      obtain ⟨a, found, used⟩ := edge
      obtain ⟨defines, rfl⟩ := assignment?_eq_some_iff.mp found
      exact .argument ih defines used

/-- Whatever the assignments of a program are, the search ends after one turn and at most one
more for each argument of an assignment, and the inputs it finds are exactly those that are
reached, in ascending order. -/
theorem mem_inputDependencies_iff_reaches (p : Program) (id : WordId) :
    (∀ other, other ∈ p.inputDependencies id ↔
      (∃ input ∈ p.inputs, input.var.id = other) ∧ p.Reaches id other) ∧
    (p.inputDependencies id).Pairwise (fun a b => a.index < b.index) ∧
    (p.dependencies id).length ≤ 1 + (p.assignments.map fun a => a.args.length).sum := by
  refine ⟨?_, Keyed.ascending_ofList _, ?_⟩
  · intro other
    rw [mem_inputDependencies, reaches_iff, List.mem_map]
  · have turns := length_reach_le (p.assignments.reverse.map fun a => (a.id, a.args)) [id] []
    have arguments : ((p.assignments.reverse.map fun a => (a.id, a.args)).map
        fun d => d.2.length).sum = (p.assignments.map fun a => a.args.length).sum := by
      rw [List.map_map, List.map_reverse, List.sum_reverse]
      rfl
    rw [turnsLeft, arguments, List.length_nil, Nat.zero_add, List.length_singleton] at turns
    exact turns

end SmtDialogue.Program
