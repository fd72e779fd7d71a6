import SmtDialogue.Proofs.Tables

/-!
# What a word depends on

The search for the dependencies of a word follows each definition once and removes it then,
so it ends also where definitions go round in circles. It finds exactly the words that are
reached through arguments, where the last definition of a word is the one that counts.
-/

namespace SmtDialogue

namespace Keyed

variable {α : Type} {key : α → WordId} {id other : WordId}

theorem get?_remove_self (id : WordId) (xs : List α) : get? key id (remove key id xs) = none := by
  simp [get?, remove]

theorem get?_remove_of_ne (h : other ≠ id) (xs : List α) :
    get? key other (remove key id xs) = get? key other xs := by
  induction xs with
  | nil => rfl
  | cons x rest ih =>
    by_cases gone : key x = id
    · have kept : ¬key x = other := fun same => h (same.symm.trans gone)
      simp only [remove, get?] at ih
      simp only [remove, get?]
      rw [List.filter_cons_of_neg (by simpa using gone), ih,
        List.find?_cons_of_neg (by simpa using kept)]
    · simp only [remove, get?] at ih
      simp only [remove, get?]
      rw [List.filter_cons_of_pos (by simpa using gone), List.find?_cons, List.find?_cons, ih]

theorem mem_ofList_self {ids : List WordId} :
    id ∈ ofList (fun x => x) ids ↔ id ∈ ids := by
  constructor
  · exact mem_of_mem_ofList
  · intro member
    have listed : id ∈ ids.filter fun x => x = id := by simpa using member
    obtain ⟨last, found⟩ := Option.isSome_iff_exists.mp
      (List.getLast?_isSome.mpr (List.ne_nil_of_mem listed))
    have same : last = id := by simpa using (List.mem_filter.mp (List.mem_of_getLast? found)).2
    rw [← get?_ofList, same] at found
    exact List.mem_of_find?_eq_some found

end Keyed

namespace Program

variable {defs : List (WordId × List WordId)} {id other : WordId} {stack reached : List WordId}

/-- One word is defined by the other. -/
def Follows (defs : List (WordId × List WordId)) (id arg : WordId) : Prop :=
  ∃ d, Keyed.get? Prod.fst id defs = some d ∧ arg ∈ d.2

theorem Follows.of_remove {arg : WordId}
    (follows : Follows (Keyed.remove Prod.fst other defs) id arg) : Follows defs id arg := by
  obtain ⟨d, found, listed⟩ := follows
  by_cases same : id = other
  · subst same
    rw [Keyed.get?_remove_self] at found
    cases found
  · exact ⟨d, (Keyed.get?_remove_of_ne same defs).symm.trans found, listed⟩

theorem Follows.remove {arg : WordId} (follows : Follows defs id arg) (differs : id ≠ other) :
    Follows (Keyed.remove Prod.fst other defs) id arg := by
  obtain ⟨d, found, listed⟩ := follows
  exact ⟨d, (Keyed.get?_remove_of_ne differs defs).trans found, listed⟩

/-- A definition is removed when it is followed. -/
theorem reach_some {d : WordId × List WordId} (found : Keyed.get? Prod.fst id defs = some d)
    (rest reached : List WordId) : reach defs (id :: rest) reached =
      reach (Keyed.remove Prod.fst id defs) (d.2 ++ rest) (id :: reached) := by
  rw [reach]
  split
  · next same =>
    rw [found] at same
    cases same
    rfl
  · next none => simp [found] at none

theorem reach_none (missing : Keyed.get? Prod.fst id defs = none) (rest reached : List WordId) :
    reach defs (id :: rest) reached = reach defs rest (id :: reached) := by
  rw [reach]
  split
  · next found => simp [missing] at found
  · rfl

/-- Nothing is found that is not reached from the stack. -/
theorem reachable_of_mem_reach (found : other ∈ reach defs stack reached) :
    other ∈ reached ∨ ∃ id ∈ stack, Relation.ReflTransGen (Follows defs) id other := by
  induction defs, stack, reached using reach.induct with
  | case1 defs reached =>
    rw [reach] at found
    exact .inl found
  | case2 defs reached id rest d here ih =>
    rw [reach_some here] at found
    rcases ih found with old | ⟨s, listed, path⟩
    · rcases List.mem_cons.mp old with rfl | old
      · exact .inr ⟨other, List.mem_cons_self, .refl⟩
      · exact .inl old
    · have whole := Relation.ReflTransGen.mono (fun _ _ => Follows.of_remove) _ _ path
      rcases List.mem_append.mp listed with arg | listed
      · exact .inr ⟨id, List.mem_cons_self, .head ⟨d, here, arg⟩ whole⟩
      · exact .inr ⟨s, List.mem_cons_of_mem id listed, whole⟩
  | case3 defs reached id rest missing ih =>
    rw [reach_none missing] at found
    rcases ih found with old | ⟨s, listed, path⟩
    · rcases List.mem_cons.mp old with rfl | old
      · exact .inr ⟨other, List.mem_cons_self, .refl⟩
      · exact .inl old
    · exact .inr ⟨s, List.mem_cons_of_mem id listed, path⟩

/-- What was reached and what stands on the stack is found. -/
theorem mem_reach_of_mem (waiting : other ∈ stack ++ reached) :
    other ∈ reach defs stack reached := by
  induction defs, stack, reached using reach.induct with
  | case1 defs reached =>
    rw [reach]
    exact waiting
  | case2 defs reached id rest d here ih =>
    rw [reach_some here]
    refine ih ?_
    simp only [List.cons_append, List.mem_cons, List.mem_append] at waiting ⊢
    tauto
  | case3 defs reached id rest missing ih =>
    rw [reach_none missing]
    refine ih ?_
    simp only [List.cons_append, List.mem_cons, List.mem_append] at waiting ⊢
    tauto

/-- With a word that the search has come to, all that defines it is found. -/
theorem reach_closed (found : id ∈ reach defs stack reached) :
    id ∈ reached ∨ ∀ arg, Follows defs id arg → arg ∈ reach defs stack reached := by
  induction defs, stack, reached using reach.induct with
  | case1 defs reached =>
    rw [reach] at found
    exact .inl found
  | case2 defs reached first rest d here ih =>
    rw [reach_some here] at found ⊢
    by_cases same : id = first
    · subst same
      refine .inr fun arg ⟨e, there, listed⟩ => mem_reach_of_mem ?_
      rw [here] at there
      cases there
      exact List.mem_append_left _ (List.mem_append_left _ listed)
    · rcases ih found with old | closed
      · exact .inl ((List.mem_cons.mp old).resolve_left same)
      · exact .inr fun arg follows => closed arg (follows.remove same)
  | case3 defs reached first rest missing ih =>
    rw [reach_none missing] at found ⊢
    by_cases same : id = first
    · subst same
      refine .inr fun arg ⟨e, there, _⟩ => ?_
      rw [missing] at there
      cases there
    · rcases ih found with old | closed
      · exact .inl ((List.mem_cons.mp old).resolve_left same)
      · exact .inr closed

/-- The search finds exactly what is reached from its first word. -/
theorem mem_reach_iff :
    other ∈ reach defs [id] [] ↔ Relation.ReflTransGen (Follows defs) id other := by
  constructor
  · intro found
    rcases reachable_of_mem_reach found with old | ⟨s, listed, path⟩
    · cases old
    · rwa [← List.mem_singleton.mp listed]
  · intro path
    induction path with
    | refl => exact mem_reach_of_mem (by simp)
    | tail _ edge found => exact (reach_closed found).resolve_left List.not_mem_nil _ edge

/-- The assignment that counts for a word is its last one. -/
def assignment? (p : Program) (id : WordId) : Option Assignment :=
  p.assignments.reverse.find? fun a => a.id = id

/-- One word is an argument of the definition of the other. -/
def Uses (p : Program) (id arg : WordId) : Prop :=
  ∃ a, p.assignment? id = some a ∧ arg ∈ a.args

variable {p : Program}

theorem follows_iff_uses {arg : WordId} :
    Follows (p.assignments.reverse.map fun a => (a.id, a.args)) id arg ↔ p.Uses id arg := by
  rw [Follows, Uses, Keyed.get?, List.find?_map, assignment?]
  constructor
  · rintro ⟨d, found, listed⟩
    obtain ⟨a, here, rfl⟩ := Option.map_eq_some_iff.mp found
    exact ⟨a, here, listed⟩
  · rintro ⟨a, here, listed⟩
    exact ⟨(a.id, a.args), Option.map_eq_some_iff.mpr ⟨a, here, rfl⟩, listed⟩

/-- A word depends on the words that are reached through the arguments of assignments. -/
theorem mem_dependencies :
    other ∈ p.dependencies id ↔ Relation.ReflTransGen p.Uses id other := by
  have same : Follows (p.assignments.reverse.map fun a => (a.id, a.args)) = p.Uses := by
    funext id arg
    exact propext follows_iff_uses
  rw [dependencies, mem_reach_iff, same]

/-- The input dependencies of a word are the inputs among these. -/
theorem mem_inputDependencies : other ∈ p.inputDependencies id ↔
    other ∈ p.inputs.map (fun i => i.var.id) ∧ Relation.ReflTransGen p.Uses id other := by
  rw [inputDependencies, Keyed.mem_ofList_self, List.mem_filter, List.contains_iff_mem,
    mem_dependencies]

/-- Where each word is introduced once, its one assignment counts. -/
theorem uses_iff {arg : WordId} (distinct : (p.words.map Prod.fst).Nodup) :
    p.Uses id arg ↔ ∃ a ∈ p.assignments, a.id = id ∧ arg ∈ a.args := by
  have apart : (p.assignments.map Assignment.id).Nodup := by
    simp only [words, List.map_append, List.map_map] at distinct
    exact (List.nodup_append.mp distinct).2.1
  constructor
  · rintro ⟨a, found, listed⟩
    have member := List.mem_reverse.mp (List.mem_of_find?_eq_some found)
    exact ⟨a, member, by simpa using List.find?_some found, listed⟩
  · rintro ⟨a, member, rfl, listed⟩
    have some : (p.assignment? a.id).isSome = true :=
      List.find?_isSome.mpr ⟨a, List.mem_reverse.mpr member, by simp⟩
    obtain ⟨b, found⟩ := Option.isSome_iff_exists.mp some
    have other := List.mem_reverse.mp (List.mem_of_find?_eq_some found)
    have same : b.id = a.id := by simpa using List.find?_some found
    obtain rfl := List.inj_on_of_nodup_map apart other member same
    exact ⟨b, found, listed⟩

end Program

end SmtDialogue
