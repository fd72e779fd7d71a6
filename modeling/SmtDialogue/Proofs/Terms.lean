import SmtDialogue.Proofs.Ingredients
import SmtDialogue.Proofs.Meaning

/-!
# The words of a term

A term that is written for an operation uses the words of its operands as values,
and no others. So its meaning depends on these words only, and a list of words
that are defined one after the other is settled by the words defined before.
-/

namespace SmtDialogue

universe u

namespace Term

mutual

/-- Every word in the term stands for a value, and for one of these. -/
def Over (words : WordId → Prop) : Term → Prop
  | .name (.word id) => words id
  | .name _ => True
  | .literal _ => True
  | .apply (.declared (.word _)) _ => False
  | .apply _ args => OverAll words args

def OverAll (words : WordId → Prop) : List Term → Prop
  | [] => True
  | t :: rest => Over words t ∧ OverAll words rest

end

variable {words : WordId → Prop}

theorem overAll_iff {ts : List Term} : OverAll words ts ↔ ∀ t ∈ ts, t.Over words := by
  induction ts with
  | nil => simp [OverAll]
  | cons t rest ih => simp [OverAll, ih]

@[simp] theorem over_word (id : WordId) : (word id).Over words ↔ words id := by
  simp [word, Over]

@[simp] theorem over_literal (v : Value) : (literal v).Over words := by
  simp [Over]

@[simp] theorem over_call (name : String) (args : List Term) :
    (call name args).Over words ↔ ∀ t ∈ args, t.Over words := by
  simp [call, Over, overAll_iff]

@[simp] theorem over_rounded (name : String) (args : List Term) :
    (apply (.rounded name) args).Over words ↔ ∀ t ∈ args, t.Over words := by
  simp [Over, overAll_iff]

@[simp] theorem over_extract (high low : Nat) (args : List Term) :
    (apply (.extract high low) args).Over words ↔ ∀ t ∈ args, t.Over words := by
  simp [Over, overAll_iff]

mutual

theorem Over.mono {more : WordId → Prop} (h : ∀ id, words id → more id) :
    ∀ {t : Term}, t.Over words → t.Over more
  | .name (.word id), mentions => by
    simp only [Over] at mentions ⊢
    exact h id mentions
  | .name (.table _), _ | .name (.array _), _ | .name (.function _), _ => by simp [Over]
  | .literal _, _ => by simp [Over]
  | .apply (.declared (.word _)) _, mentions => by simp [Over] at mentions
  | .apply (.declared (.table _)) _, mentions | .apply (.declared (.array _)) _, mentions
  | .apply (.declared (.function _)) _, mentions | .apply (.builtIn _) _, mentions
  | .apply (.rounded _) _, mentions | .apply (.extract _ _) _, mentions
  | .apply (.everywhere _) _, mentions => by
    simp only [Over] at mentions ⊢
    exact OverAll.mono h mentions

theorem OverAll.mono {more : WordId → Prop} (h : ∀ id, words id → more id) :
    ∀ {ts : List Term}, OverAll words ts → OverAll more ts
  | [], _ => by simp [OverAll]
  | _ :: _, mentions => by
    simp only [OverAll] at mentions ⊢
    exact ⟨Over.mono h mentions.1, OverAll.mono h mentions.2⟩

end

/-- A term that is put together from others has only their words. -/
theorem Built.over {base : Term → Prop} {names : Name → Prop} {t : Term}
    (built : t.Built base names) (each : ∀ a, base a → a.Over words)
    (apart : ∀ id, ¬names (.word id)) : t.Over words := by
  induction built with
  | base given => exact each _ given
  | bits | zero => simp
  | @name n given =>
    cases n with
    | word id => exact absurd given (apart id)
    | _ => simp [Over]
  | call _ _ ih => simpa using ih
  | rounded _ _ ih => simpa using ih
  | extract high low _ ih => simpa using ih
  | @declared n args given _ ih =>
    cases n with
    | word id => exact absurd given (apart id)
    | _ => simpa [Over, overAll_iff] using ih

end Term

namespace Op

variable {t : Term}

/-- Whatever an operation is written with, its operands bring in all the words. -/
theorem over_term {op : Op} {result : Kind} {operands : List (WordId × Kind)}
    (written : op.term result operands = .ok t) :
    t.Over fun id => id ∈ operands.map Prod.fst := by
  refine Term.Built.over (built_term written) ?_ ?_
  · rintro a ⟨o, member, rfl⟩
    simpa using ⟨o.2, member⟩
  · intro id names
    cases op <;> cases names

end Op

theorem Scope.kind_eq_ok {scope : Scope} {id : WordId} {kind : Kind} :
    scope.kind id = .ok kind ↔ scope.kind? id = some kind := by
  rw [Scope.kind]
  cases scope.kind? id <;> simp

/-- Operands are the arguments with the kinds they have in scope. -/
theorem Scope.operands_eq_ok {scope : Scope} {args : List WordId}
    {operands : List (WordId × Kind)}
    (found : List.Forall₂ (fun id o => (do return (id, ← scope.kind id)) = Except.ok o) args
      operands) :
    operands.map Prod.fst = args ∧ ∀ o ∈ operands, scope.kind? o.1 = some o.2 := by
  induction found with
  | nil => simp
  | cons first _ ih =>
    obtain ⟨kind, known, same⟩ := Except.bind_eq_ok.mp first
    cases same
    refine ⟨by rw [List.map_cons, ih.1], ?_⟩
    intro o ho
    rcases List.mem_cons.mp ho with rfl | ho
    · exact kind_eq_ok.mp known
    · exact ih.2 o ho

/-- An assignment is written when all its arguments are in scope, at their kinds there. -/
theorem Assignment.term_eq_ok {a : Assignment} {scope : Scope} {t : Term}
    (written : a.term scope = .ok t) :
    ∃ operands, operands.map Prod.fst = a.args ∧
      (∀ o ∈ operands, scope.kind? o.1 = some o.2) ∧ a.op.term a.kind operands = .ok t := by
  obtain ⟨operands, each, written⟩ := Except.bind_eq_ok.mp written
  obtain ⟨args, kinds⟩ := Scope.operands_eq_ok (Except.mapM_eq_ok.mp each)
  exact ⟨operands, args, kinds, written⟩

namespace Reading

variable {U : Type u} (R : Reading U)

/-- Environments that differ in the words only, and not in these. -/
structure Agree (X Y : Env U) (words : WordId → Prop) : Prop where
  word : ∀ id, words id → X (.word id) [] = Y (.word id) []
  other : ∀ n : Name, (∀ id, n ≠ .word id) → X n = Y n

variable {R} {X Y : Env U} {words : WordId → Prop}

mutual

theorem eval_congr (agree : Agree X Y words) :
    ∀ {t : Term}, t.Over words → R.eval X t = R.eval Y t
  | .name (.word id), mentions => by
    simp only [Term.Over] at mentions
    simpa only [eval] using agree.word id mentions
  | .name (.table n), _ => by simp only [eval, agree.other (.table n) (by simp)]
  | .name (.array n), _ => by simp only [eval, agree.other (.array n) (by simp)]
  | .name (.function n), _ => by simp only [eval, agree.other (.function n) (by simp)]
  | .literal _, _ => by simp only [eval]
  | .apply (.declared (.word _)) _, mentions => by simp [Term.Over] at mentions
  | .apply (.declared (.table n)) _, mentions => by
    simp only [Term.Over] at mentions
    simp only [eval, agree.other (.table n) (by simp), evalArgs_congr agree mentions]
  | .apply (.declared (.array n)) _, mentions => by
    simp only [Term.Over] at mentions
    simp only [eval, agree.other (.array n) (by simp), evalArgs_congr agree mentions]
  | .apply (.declared (.function n)) _, mentions => by
    simp only [Term.Over] at mentions
    simp only [eval, agree.other (.function n) (by simp), evalArgs_congr agree mentions]
  | .apply (.builtIn _) _, mentions | .apply (.rounded _) _, mentions
  | .apply (.extract _ _) _, mentions | .apply (.everywhere _) _, mentions => by
    simp only [Term.Over] at mentions
    simp only [eval, evalArgs_congr agree mentions]

theorem evalArgs_congr (agree : Agree X Y words) :
    ∀ {ts : List Term}, Term.OverAll words ts → R.evalArgs X ts = R.evalArgs Y ts
  | [], _ => by simp only [evalArgs]
  | _ :: _, mentions => by
    simp only [Term.OverAll] at mentions
    simp only [evalArgs, eval_congr agree mentions.1, evalArgs_congr agree mentions.2]

end

end Reading

end SmtDialogue
