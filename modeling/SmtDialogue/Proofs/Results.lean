import Mathlib

/-!
# Computations that succeed

What a chain of computations did, step by step, when none of them failed.
-/

/-- Each item on the right stands across from one on the left. -/
theorem List.Forall₂.exists_of_mem_right {α β : Type} {R : α → β → Prop} {xs : List α}
    {ys : List β} (h : List.Forall₂ R xs ys) {y : β} (member : y ∈ ys) : ∃ x ∈ xs, R x y := by
  induction h with
  | nil => cases member
  | @cons x z xs ys related _ ih =>
    rcases List.mem_cons.mp member with rfl | member
    · exact ⟨x, List.mem_cons_self, related⟩
    · obtain ⟨w, inside, related⟩ := ih member
      exact ⟨w, List.mem_cons_of_mem x inside, related⟩

namespace Except

variable {ε ε' α β : Type}

theorem bind_eq_ok {x : Except ε α} {f : α → Except ε β} {b : β} :
    x >>= f = .ok b ↔ ∃ a, x = .ok a ∧ f a = .ok b := by
  cases x with
  | error e => simp [bind, Except.bind]
  | ok a => simp [bind, Except.bind]

theorem map_eq_ok {x : Except ε α} {f : α → β} {b : β} :
    x.map f = .ok b ↔ ∃ a, x = .ok a ∧ f a = b := by
  cases x with
  | error e => simp [Except.map]
  | ok a => simp [Except.map]

theorem mapError_eq_ok {x : Except ε α} {f : ε → ε'} {a : α} :
    x.mapError f = .ok a ↔ x = .ok a := by
  cases x with
  | error e => simp [Except.mapError]
  | ok a => simp [Except.mapError]

theorem map_eq_error {x : Except ε α} {f : α → β} {e : ε} :
    x.map f = .error e ↔ x = .error e := by
  cases x with
  | error e' => simp [Except.map]
  | ok a => simp [Except.map]

theorem map_inj {x y : Except ε α} {f : α → β} (injective : Function.Injective f) :
    x.map f = y.map f ↔ x = y := by
  cases x <;> cases y <;> simp [Except.map, injective.eq_iff]

theorem mapError_eq_error {x : Except ε α} {f : ε → ε'} {e : ε'} :
    x.mapError f = .error e ↔ ∃ e', x = .error e' ∧ f e' = e := by
  cases x with
  | error e' => simp [Except.mapError]
  | ok a => simp [Except.mapError]

/-- A list of computations succeeds when each of them does. -/
theorem mapM_eq_ok {f : α → Except ε β} {xs : List α} {ys : List β} :
    xs.mapM f = .ok ys ↔ List.Forall₂ (fun x y => f x = .ok y) xs ys := by
  induction xs generalizing ys with
  | nil => simp [pure, Except.pure, eq_comm]
  | cons x rest ih =>
    rw [List.mapM_cons, bind_eq_ok, List.forall₂_cons_left_iff]
    constructor
    · rintro ⟨y, first, others⟩
      obtain ⟨zs, later, same⟩ := bind_eq_ok.mp others
      cases same
      exact ⟨y, zs, first, ih.mp later, rfl⟩
    · rintro ⟨y, zs, first, later, rfl⟩
      exact ⟨y, first, bind_eq_ok.mpr ⟨zs, ih.mpr later, rfl⟩⟩

theorem exists_mapM_eq_ok {f : α → Except ε β} {xs : List α} :
    (∃ ys, xs.mapM f = .ok ys) ↔ ∀ x ∈ xs, ∃ y, f x = .ok y := by
  simp only [mapM_eq_ok]
  induction xs with
  | nil => simp
  | cons x rest ih =>
    rw [List.forall_mem_cons, ← ih]
    constructor
    · rintro ⟨_, related⟩
      cases related with
      | cons first others => exact ⟨⟨_, first⟩, _, others⟩
    · rintro ⟨⟨y, first⟩, ys, others⟩
      exact ⟨y :: ys, .cons first others⟩

/-- A list of computations fails with the error of the first one that does. -/
theorem mapM_eq_error {f : α → Except ε β} {xs : List α} {e : ε} :
    xs.mapM f = .error e ↔ ∃ before x after, xs = before ++ x :: after ∧
      (∀ y ∈ before, ∃ b, f y = .ok b) ∧ f x = .error e := by
  induction xs with
  | nil => simp [pure, Except.pure]
  | cons x rest ih =>
    rw [List.mapM_cons]
    cases first : f x with
    | error e' =>
      constructor
      · rintro same
        cases same
        exact ⟨[], x, rest, rfl, by simp, first⟩
      · rintro ⟨before, y, after, split, succeed, fails⟩
        cases before with
        | nil =>
          cases split
          rw [first] at fails
          cases fails
          rfl
        | cons z before =>
          cases split
          obtain ⟨b, ok⟩ := succeed x List.mem_cons_self
          rw [first] at ok
          cases ok
    | ok b =>
      have later : (Except.ok b >>= fun b => rest.mapM f >>= fun bs => pure (b :: bs)) =
          .error e ↔ rest.mapM f = .error e := by
        cases rest.mapM f <;> simp [bind, Except.bind, pure, Except.pure]
      rw [later, ih]
      constructor
      · rintro ⟨before, y, after, rfl, succeed, fails⟩
        exact ⟨x :: before, y, after, rfl, List.forall_mem_cons.mpr ⟨⟨b, first⟩, succeed⟩, fails⟩
      · rintro ⟨before, y, after, split, succeed, fails⟩
        cases before with
        | nil =>
          cases split
          rw [first] at fails
          cases fails
        | cons z before =>
          cases split
          exact ⟨before, y, after, rfl, (List.forall_mem_cons.mp succeed).2, fails⟩

/-- Steps that compute a part each and then add it can compute all parts first. -/
theorem foldlM_eq_map {σ : Type} {f : σ → α → Except ε σ} {part : α → Except ε β}
    {add : σ → β → σ} (step : ∀ s x, f s x = (part x).map (add s)) (xs : List α) (s : σ) :
    xs.foldlM f s = (xs.mapM part).map fun parts => parts.foldl add s := by
  induction xs generalizing s with
  | nil => rfl
  | cons x rest ih =>
    rw [List.foldlM_cons, List.mapM_cons, step]
    cases part x with
    | error e => rfl
    | ok b =>
      simp only [Except.map, bind, Except.bind, ih]
      cases rest.mapM part <;> rfl

/-- What the first state has and every step keeps, the last state has. -/
@[elab_as_elim]
theorem foldlM_induction {σ : Type} {f : σ → α → Except ε σ} {P : σ → Prop} {xs : List α}
    {s last : σ} (done : xs.foldlM f s = .ok last) (start : P s)
    (step : ∀ x ∈ xs, ∀ s next, f s x = .ok next → P s → P next) : P last := by
  have runs : SatisfiesM P (xs.foldlM f s) := by
    refine List.satisfiesM_foldlM start fun s holds x member => ?_
    exact SatisfiesM_Except_eq.mpr fun next taken => step x member s next taken holds
  exact SatisfiesM_Except_eq.mp runs last done

theorem forM_eq_ok {f : α → Except ε Unit} {xs : List α} :
    xs.forM f = .ok () ↔ ∀ x ∈ xs, f x = .ok () := by
  induction xs with
  | nil => simp [List.forM, pure, Except.pure]
  | cons x rest ih =>
    change (f x >>= fun _ => rest.forM f) = .ok () ↔ _
    rw [bind_eq_ok, List.forall_mem_cons, ← ih]
    constructor
    · rintro ⟨_, first, others⟩
      exact ⟨first, others⟩
    · rintro ⟨first, others⟩
      exact ⟨(), first, others⟩

end Except
