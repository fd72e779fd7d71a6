import SmtDialogue.Proofs.Terms

/-!
# Words defined one after the other

Where every word is defined by a term over earlier words, the values of the words
are the only ones that solve the definitions. So it makes no difference whether
definitions are read in program order or some of them ahead of the others.
-/

namespace SmtDialogue

universe u

variable {U : Type u}

namespace Env

@[simp] theorem setWord_self (env : Env U) (id : WordId) (u : U) :
    env.setWord id u (.word id) = fun _ => u := by
  simp [setWord]

theorem setWord_of_ne {env : Env U} {id : WordId} {n : Name} (h : n ≠ .word id) (u : U) :
    env.setWord id u n = env n :=
  Function.update_of_ne h _ env

end Env

/-- Each word is defined once, by a term over the words known before it. -/
def Ordered : List WordId → List (WordId × Term) → Prop
  | _, [] => True
  | known, (id, t) :: rest =>
    t.Over (· ∈ known) ∧ id ∉ known ∧ Ordered (known ++ [id]) rest

/-- Each word is defined once, by a term that uses neither it nor a later word. -/
def Settled : List (WordId × Term) → Prop
  | [] => True
  | (id, t) :: rest =>
    t.Over (· ∉ id :: rest.map Prod.fst) ∧ id ∉ rest.map Prod.fst ∧ Settled rest

theorem Ordered.notMem {known : List WordId} {defs : List (WordId × Term)}
    (ordered : Ordered known defs) : ∀ id ∈ defs.map Prod.fst, id ∉ known := by
  induction defs generalizing known with
  | nil => simp
  | cons b rest ih =>
    obtain ⟨id, t⟩ := b
    obtain ⟨_, fresh, later⟩ := ordered
    intro other member
    rcases List.mem_cons.mp member with rfl | member
    · exact fresh
    · have absent := ih later other member
      exact fun known => absent (List.mem_append_left _ known)

theorem Ordered.settled {known : List WordId} {defs : List (WordId × Term)}
    (ordered : Ordered known defs) : Settled defs := by
  induction defs generalizing known with
  | nil => trivial
  | cons b rest ih =>
    obtain ⟨id, t⟩ := b
    have absent := ordered.notMem
    obtain ⟨mentions, _, later⟩ := ordered
    refine ⟨mentions.mono fun word known member => absent word member known, ?_, ih later⟩
    intro member
    exact later.notMem id member (List.mem_append_right _ List.mem_cons_self)

theorem Settled.sublist {defs more : List (WordId × Term)} (settled : Settled more)
    (sublist : defs.Sublist more) : Settled defs := by
  induction sublist with
  | slnil => trivial
  | cons b _ ih => exact ih settled.2.2
  | cons_cons b shorter ih =>
    obtain ⟨id, t⟩ := b
    obtain ⟨mentions, fresh, later⟩ := settled
    have names := (shorter.map Prod.fst).subset
    refine ⟨mentions.mono fun word absent member => absent ?_, fun member => fresh (names member),
      ih later⟩
    rcases List.mem_cons.mp member with rfl | member
    · exact List.mem_cons_self
    · exact List.mem_cons_of_mem _ (names member)

namespace Reading

variable (R : Reading U)

/-- An environment in which every definition is true. -/
def Solves (env : Env U) (defs : List (WordId × Term)) : Prop :=
  ∀ b ∈ defs, env (.word b.1) [] = R.eval env b.2

variable {R}

theorem defineAll_of_ne {defs : List (WordId × Term)} {n : Name}
    (h : ∀ id ∈ defs.map Prod.fst, n ≠ .word id) (env : Env U) :
    R.defineAll env defs n = env n := by
  induction defs generalizing env with
  | nil => rfl
  | cons b rest ih =>
    have others := ih (fun id hid => h id (List.mem_cons_of_mem _ hid))
      (env.setWord b.1 (R.eval env b.2))
    rw [defineAll, List.foldl_cons, ← defineAll, others]
    exact Env.setWord_of_ne (h b.1 List.mem_cons_self) _

theorem agree_defineAll (env : Env U) (defs : List (WordId × Term)) :
    Agree (R.defineAll env defs) env (· ∉ defs.map Prod.fst) where
  word id absent := by
    rw [defineAll_of_ne]
    intro other member same
    cases same
    exact absent member
  other n others := defineAll_of_ne (fun id _ => others id) env

/-- Definitions that are made one after the other are true in the end. -/
theorem solves_defineAll {defs : List (WordId × Term)} (settled : Settled defs) (env : Env U) :
    R.Solves (R.defineAll env defs) defs := by
  induction defs generalizing env with
  | nil => simp [Solves]
  | cons b rest ih =>
    obtain ⟨id, t⟩ := b
    obtain ⟨mentions, fresh, later⟩ := settled
    intro c hc
    have step : R.defineAll env ((id, t) :: rest) =
        R.defineAll (env.setWord id (R.eval env t)) rest := rfl
    rw [step]
    rcases List.mem_cons.mp hc with rfl | hc
    · have first : Agree (env.setWord id (R.eval env t)) env (· ≠ id) :=
        ⟨fun other ne => by rw [Env.setWord_of_ne (by simpa using ne)],
          fun n other => Env.setWord_of_ne (other id) _⟩
      have others := agree_defineAll (R := R) (env.setWord id (R.eval env t)) rest
      have kept : R.eval (R.defineAll (env.setWord id (R.eval env t)) rest) t = R.eval env t := by
        rw [eval_congr others (mentions.mono fun word absent => fun member =>
          absent (List.mem_cons_of_mem _ member))]
        exact eval_congr first (mentions.mono fun word absent => fun same =>
          absent (same ▸ List.mem_cons_self))
      rw [others.word id fresh, Env.setWord_self, kept]
    · exact ih later _ c hc

/-- Definitions over known words have no more than one solution. -/
theorem agree_of_solves {known : List WordId} {defs : List (WordId × Term)}
    (ordered : Ordered known defs) {X Y : Env U} (agree : Agree X Y (· ∈ known))
    (solvesX : R.Solves X defs) (solvesY : R.Solves Y defs) :
    Agree X Y (· ∈ known ++ defs.map Prod.fst) := by
  induction defs generalizing known with
  | nil => simpa using agree
  | cons b rest ih =>
    obtain ⟨id, t⟩ := b
    obtain ⟨mentions, _, later⟩ := ordered
    have value : X (.word id) [] = Y (.word id) [] := by
      rw [solvesX _ List.mem_cons_self, solvesY _ List.mem_cons_self]
      exact eval_congr agree mentions
    have further : Agree X Y (· ∈ known ++ [id]) := by
      refine ⟨fun word member => ?_, agree.other⟩
      rcases List.mem_append.mp member with old | new
      · exact agree.word word old
      · rw [List.mem_singleton.mp new]
        exact value
    have whole := ih later further (fun c hc => solvesX c (List.mem_cons_of_mem _ hc))
      (fun c hc => solvesY c (List.mem_cons_of_mem _ hc))
    simpa using whole

end Reading

end SmtDialogue
