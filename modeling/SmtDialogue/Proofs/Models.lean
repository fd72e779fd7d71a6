import SmtDialogue.Proofs.Inside
import SmtDialogue.Proofs.Layout

/-!
# Scripts mean what their programs say

The script of a program that has nothing but inputs, constants and defined words has
a model exactly when the program is true under the quantifiers of its inputs, or for
a proof, exactly when the program is refuted.
-/

namespace SmtDialogue

universe u

namespace Script

/-- The commands of a program of inputs, constants and defined words. -/
theorem body_eq_ok_of_plain {c : Config} {p : Program} {f : Features} {s : Script}
    (plain : p.Plain) (written : body c p f = .ok s) :
    ∃ parts : Parts p, parts.Written ∧
      s.commands = (header c p f).commands ++ ((opening p).commands ++
        (p.constants.map (fun k => constantCommand k.1 k.2) ++
          (parts.definitions.commands ++
            assertions p (opening p) parts.definitions.bindings))) := by
  obtain ⟨sorts, tables, arrays, functions, assumptions, objectives, _⟩ := plain
  obtain ⟨parts, shape, _, commands⟩ := body_eq_ok written
  have noArrays : parts.arrays = [] := List.forall₂_nil_left_iff.mp (arrays ▸ shape.arrays)
  have noEntries : parts.entries = [] := List.forall₂_nil_left_iff.mp (tables ▸ shape.entries)
  refine ⟨parts, shape, ?_⟩
  rw [commands]
  simp [sorts, tables, noArrays, functions, noEntries, objectives, sharedObjectives]

end Script

namespace Reading

open Script (universalsOf skolemsOf innerInputs)

variable {U : Type u} {R : Reading U}

theorem hasModel_silent {cs : List Command} (silent : ∀ c ∈ cs, Script.Silent c)
    (rest : List Command) (env : Env U) : R.HasModel env (cs ++ rest) ↔ R.HasModel env rest := by
  induction cs with
  | nil => rfl
  | cons c cs ih =>
    have others := ih fun d hd => silent d (List.mem_cons_of_mem c hd)
    have first := silent c List.mem_cons_self
    cases c with
    | setOption name value => exact others
    | setLogic logic => exact others
    | _ => exact absurd first id

/-- Definitions give their values to their words. -/
theorem hasModel_define {α : Type} (command : α → Command) (binding : α → WordId × Term)
    (defines : ∀ x, ∃ sort remark,
      command x = .define (.word (binding x).1) sort (binding x).2 remark)
    (xs : List α) (rest : List Command) (env : Env U) :
    R.HasModel env (xs.map command ++ rest) ↔
      R.HasModel (R.defineAll env (xs.map binding)) rest := by
  induction xs generalizing env with
  | nil => rfl
  | cons x xs ih =>
    obtain ⟨sort, remark, same⟩ := defines x
    rw [List.map_cons, List.cons_append, same, HasModel, ih]
    rfl

theorem defineAll_append (env : Env U) (first second : List (WordId × Term)) :
    R.defineAll env (first ++ second) = R.defineAll (R.defineAll env first) second := by
  simp [defineAll]

variable (R) in
/-- What a program asserts: its constraints, and its output as the polarity has it. -/
def Goal (p : Program) (env : Env U) : Prop :=
  (∀ id ∈ p.constraints, R.holds (env (.word id) [])) ∧ R.holds (R.eval env (Script.goalTerm p))

theorem holds_conjunction (ids : List WordId) (t : Term) (env : Env U) :
    R.holds (R.eval env (.call "and" (ids.map Term.word ++ [t]))) ↔
      (∀ id ∈ ids, R.holds (env (.word id) [])) ∧ R.holds (R.eval env t) := by
  have args : R.evalArgs env (ids.map Term.word ++ [t]) =
      ids.map (fun id => env (.word id) []) ++ [R.eval env t] := by
    induction ids with
    | nil => rfl
    | cons id rest ih => simp [evalArgs, ih, Term.word, eval]
  simp only [Term.call, eval, args, R.holds_and, List.mem_append, List.mem_map,
    List.mem_singleton]
  constructor
  · intro all
    exact ⟨fun id member => all _ (.inl ⟨id, member, rfl⟩), all _ (.inr rfl)⟩
  · rintro ⟨constraints, goal⟩ u (⟨id, member, rfl⟩ | rfl)
    · exact constraints id member
    · exact goal

/-- Without universal inputs the assertions are made one by one. -/
theorem hasModel_asserts (ids : List WordId) (t : Term) (env : Env U) :
    R.HasModel env (ids.map (fun id => Command.assert (.word id)) ++ [Command.assert t]) ↔
      (∀ id ∈ ids, R.holds (env (.word id) [])) ∧ R.holds (R.eval env t) := by
  induction ids with
  | nil => simp [HasModel]
  | cons id rest ih =>
    rw [List.map_cons, List.cons_append, HasModel, ih]
    simp [Term.word, eval, and_assoc]

/-- The assertions hold when the goal does, whatever values the universal inputs have. -/
theorem hasModel_assertions {p : Program} {o : Script.Opening} {bindings : List (WordId × Term)}
    (bare : o.universals = [] → o.skolems = [] ∧ bindings = []) (env : Env U) :
    R.HasModel env (Script.assertions p o bindings) ↔
      ∀ us, R.ValuesOf us o.universals →
        R.Goal p (R.defineAll
          (R.defineAll (setAll env o.universals us) (o.skolems.map Script.skolemBinding))
          bindings) := by
  rw [Script.assertions]
  cases empty : o.universals.isEmpty with
  | true =>
    have none := List.isEmpty_iff.mp empty
    obtain ⟨noSkolems, noBindings⟩ := bare none
    rw [if_pos rfl, hasModel_asserts, none, noSkolems, noBindings]
    constructor
    · intro goal us values
      obtain rfl := List.forall₂_nil_right_iff.mp values
      exact goal
    · intro goal
      exact goal [] .nil
  | false =>
    have body : ∀ inner : Env U, R.holds (R.eval inner
        (if p.constraints.isEmpty then Script.goalTerm p
          else .call "and" (p.constraints.map Term.word ++ [Script.goalTerm p]))) ↔
        R.Goal p inner := by
      intro inner
      split
      · next nothing => simp [Goal, List.isEmpty_iff.mp nothing]
      · exact holds_conjunction p.constraints (Script.goalTerm p) inner
    simp only [Bool.false_eq_true, if_false, HasModel, and_true, forAll_iff, defineAll_append, body]

theorem env_update (v : Valuation U) (id : WordId) (u : U) :
    R.env (Function.update v id u) = (R.env v).setWord id u := by
  funext n us
  cases n with
  | word other =>
    by_cases here : other = id
    · subst here
      simp [env]
    · rw [Env.setWord_of_ne (by simpa using here)]
      simp [env, here]
  | _ => rfl

theorem env_foldl {α : Type} (id : α → WordId) (value : Valuation U → α → U)
    (binding : α → WordId × Term) (xs : List α)
    (same : ∀ x ∈ xs, (binding x).1 = id x ∧ ∀ v, value v x = R.eval (R.env v) (binding x).2)
    (v : Valuation U) :
    R.env (xs.foldl (fun v x => Function.update v (id x) (value v x)) v) =
      R.defineAll (R.env v) (xs.map binding) := by
  induction xs generalizing v with
  | nil => rfl
  | cons x rest ih =>
    obtain ⟨name, term⟩ := same x List.mem_cons_self
    rw [List.foldl_cons, ih (fun y hy => same y (List.mem_cons_of_mem x hy)), env_update,
      List.map_cons, term v, ← name]
    rfl

end Reading

namespace Program

variable {U : Type u} (R : Reading U) (p : Program)

/-- The constants of a program as definitions. -/
def constantDefs : List (WordId × Term) :=
  p.constants.map fun k => (k.1, .literal k.2)

/-- The values of a program are those of its definitions. -/
theorem env_values {ds : List Definition}
    (assignments : ds.map Definition.assignment = p.assignments)
    (bodies : ∀ d ∈ ds, p.body? d.assignment = some d.body) (v : Valuation U) :
    R.env (p.values R v) =
      R.defineAll (R.env v) (p.constantDefs ++ ds.map Definition.binding) := by
  have defined := Reading.env_foldl (R := R) (fun d : Definition => d.assignment.id)
    (fun v d => p.wordValue R v d.assignment) Definition.binding ds
    (fun d hd => ⟨rfl, fun v => by rw [wordValue, bodies d hd]; rfl⟩)
  have constants := Reading.env_foldl (R := R) (fun k : WordId × Value => k.1)
    (fun _ k => R.literal k.2) (fun k => (k.1, .literal k.2)) p.constants
    (fun k _ => ⟨rfl, fun _ => rfl⟩) v
  rw [values, ← assignments, List.foldl_map, Reading.defineAll_append, constantDefs, ← constants]
  exact defined _

end Program

/-- What is written for a program of inputs, constants and defined words. -/
theorem Script.layout_of_body {c : Config} {p : Program} {f : Features} {s : Script}
    (plain : p.Plain) (written : body c p f = .ok s) :
    ∃ ds, p.Layout ds ∧ (∀ id ∈ p.constraints ++ [p.output], id ∈ p.words.map Prod.fst) ∧
      ∃ o : Opening, o.universals = universalsOf p.quantifier p.inputs ∧
        o.skolems = skolemsOf p.quantifier [] p.inputs ∧
        s.commands = (header c p f).commands ++ (declarations p.quantifier [] p.inputs ++
          (p.constants.map (fun k => constantCommand k.1 k.2) ++
            ((ds.filter Definition.closed).map (fun d => d.assignment.command d.body) ++
              assertions p o ((ds.filter fun d => !d.closed).map Definition.binding)))) := by
  obtain ⟨parts, shape, commands⟩ := body_eq_ok_of_plain plain written
  obtain ⟨ds, layout, arranged⟩ := shape.layout plain.distinct
  obtain ⟨declared, universals, skolems⟩ := opening_eq p
  refine ⟨ds, layout, arranged.known shape, opening p, universals, skolems, ?_⟩
  rw [commands, arranged.commands, arranged.bindings, declared]

end SmtDialogue
