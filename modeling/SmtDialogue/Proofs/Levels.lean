import SmtDialogue.Proofs.Results
import SmtDialogue.Script.Session

/-!
# Levels of a session

What a session has in scope after a level was opened, used and closed again. The
words of the fragments in between are gone, whatever was refused and whatever
levels were opened inside. A word that was in scope before and declared once more
inside is gone as well, so the session is restored exactly when no fragment inside
declares a word that was in scope.
-/

namespace SmtDialogue

namespace Keyed

variable {α : Type}

/-- An entry that goes away again leaves the others as they were. -/
theorem filter_put {key : α → WordId} {x : α} {keep : α → Bool}
    (same : ∀ y, key y = key x → keep y = false) (xs : List α) :
    (put key x xs).filter keep = xs.filter keep := by
  have dropped : keep x = false := same x rfl
  induction xs with
  | nil => simp [put, dropped]
  | cons y rest ih =>
    simp only [put]
    split
    · simp [dropped]
    · split
      · next equal => simp [dropped, same y equal.symm]
      · simp [List.filter_cons, ih]

end Keyed

namespace Scope

/-- The scope without some words. -/
def without (s : Scope) (ids : List WordId) : Scope :=
  s.filter fun d => !ids.contains d.id

theorem without_nil (s : Scope) : s.without [] = s := by
  simp [without]

theorem without_append (s : Scope) (ids more : List WordId) :
    s.without (ids ++ more) = (s.without ids).without more := by
  simp only [without, List.filter_filter]
  congr 1
  funext d
  simp [Bool.and_comm]

theorem without_comm (s : Scope) (ids more : List WordId) :
    (s.without ids).without more = (s.without more).without ids := by
  simp only [without, List.filter_filter]
  congr 1
  funext d
  exact Bool.and_comm _ _

theorem without_cons (s : Scope) (id : WordId) (ids : List WordId) :
    s.without (id :: ids) = (s.forget id).without ids := by
  simp only [without, forget, Keyed.remove, List.filter_filter]
  congr 1
  funext d
  by_cases here : d.id = id <;> simp [here]

/-- Forgetting words one after the other. -/
theorem foldl_forget (ids : List WordId) (s : Scope) :
    ids.foldl forget s = s.without ids := by
  induction ids generalizing s with
  | nil => exact (without_nil s).symm
  | cons id rest ih => rw [List.foldl_cons, ih, ← without_cons]

theorem without_declare (s : Scope) {id : WordId} {ids : List WordId} (h : id ∈ ids)
    (kind : Kind) (top : Bool) : (s.declare id kind top).without ids = s.without ids := by
  apply Keyed.filter_put
  intro d same
  simp only at same
  simp [same, h]

/-- Declaring words one after the other changes nothing but what these words mean. -/
theorem without_foldl_declare {α : Type} (xs : List α) (id : α → WordId) (kind : α → Kind)
    {ids : List WordId} (h : ∀ x ∈ xs, id x ∈ ids) (s : Scope) :
    (xs.foldl (fun s x => s.declare (id x) (kind x) true) s).without ids = s.without ids := by
  induction xs generalizing s with
  | nil => rfl
  | cons x rest ih =>
    have first := without_declare s (h x List.mem_cons_self) (kind x) true
    have others := ih (fun y hy => h y (List.mem_cons_of_mem x hy)) (s.declare (id x) (kind x) true)
    rw [List.foldl_cons, others, first]

theorem kind?_eq_none_iff {s : Scope} {id : WordId} :
    s.kind? id = none ↔ ∀ d ∈ s, d.id ≠ id := by
  simp [kind?, find?, Keyed.get?]

/-- A scope is as before without some words exactly when it has none of them. -/
theorem without_eq_self_iff {s : Scope} {ids : List WordId} :
    s.without ids = s ↔ ∀ id ∈ ids, s.kind? id = none := by
  simp only [without, List.filter_eq_self, kind?_eq_none_iff]
  constructor
  · intro h id hid d hd same
    have absent := h d hd
    simp [same, hid] at absent
  · intro h d hd
    by_cases listed : d.id ∈ ids
    · exact absurd rfl (h d.id listed d hd)
    · simp [listed]

theorem kind?_without {s : Scope} {ids : List WordId} {id : WordId} (h : id ∈ ids) :
    (s.without ids).kind? id = none := by
  rw [kind?_eq_none_iff]
  intro d hd same
  have kept := (List.mem_filter.mp hd).2
  simp [same, h] at kept

end Scope

namespace Delta

theorem scope_foldlM_add {assignments : List Assignment} {w next : Written}
    (written : assignments.foldlM Written.add w = .ok next) {ids : List WordId}
    (h : ∀ a ∈ assignments, a.id ∈ ids) : next.scope.without ids = w.scope.without ids := by
  refine Except.foldlM_induction written rfl fun a member v next first same => ?_
  obtain ⟨body, _, added⟩ := Except.bind_eq_ok.mp first
  cases added
  exact (Scope.without_declare v.scope (h a member) a.kind true).trans same

/-- A fragment that is written changes the scope at its own words only. -/
theorem scope_commands {d : Delta} {scope : Scope} {w : Written}
    (written : d.commands scope = .ok w) : w.scope.without d.words = scope.without d.words := by
  have inputs : ∀ v ∈ d.inputs, v.id ∈ d.words := by
    intro v hv
    simp only [words, List.mem_append, List.mem_map]
    exact .inl (.inl ⟨v, hv, rfl⟩)
  have constants : ∀ k ∈ d.constants, k.1 ∈ d.words := by
    intro k hk
    simp only [words, List.mem_append, List.mem_map]
    exact .inl (.inr ⟨k, hk, rfl⟩)
  have assignments : ∀ a ∈ d.assignments, a.id ∈ d.words := by
    intro a ha
    simp only [words, List.mem_append, List.mem_map]
    exact .inr ⟨a, ha, rfl⟩
  obtain ⟨arrays, _, written⟩ := Except.bind_eq_ok.mp written
  obtain ⟨last, added, written⟩ := Except.bind_eq_ok.mp written
  obtain ⟨entries, _, written⟩ := Except.bind_eq_ok.mp written
  obtain ⟨_, _, written⟩ := Except.bind_eq_ok.mp written
  cases written
  have defined := scope_foldlM_add added assignments
  simp only at defined ⊢
  rw [defined, Scope.without_foldl_declare d.constants Prod.fst (fun k => k.2.kind) constants,
    Scope.without_foldl_declare d.inputs Variable.id Variable.kind inputs]

/-- A fragment that only asserts words. -/
def asserting (ids : List WordId) : Delta := ⟨[], [], [], [], [], [], [], ids⟩

end Delta

namespace Session

theorem fragment_eq_ok {solver : Capabilities} {s next : Session} {d : Delta} {script : Script}
    (h : s.fragment solver d = .ok (script, next)) :
    next.scope.without d.words = s.scope.without d.words ∧
      next.levels = record d.words s.levels := by
  obtain ⟨_, _, h⟩ := Except.bind_eq_ok.mp h
  obtain ⟨w, written, h⟩ := Except.bind_eq_ok.mp h
  cases h
  exact ⟨Delta.scope_commands (Except.mapError_eq_ok.mp written), rfl⟩

/-- A call that may change a session. -/
inductive Call where
  | fragment (d : Delta)
  | push
  | pop

/-- Calls in which every level that is opened is closed again, and none that was open before. -/
inductive Nested : List Call → Prop where
  | nil : Nested []
  | fragment (d : Delta) {calls : List Call} (rest : Nested calls) : Nested (.fragment d :: calls)
  | level {inner calls : List Call} (inside : Nested inner) (rest : Nested calls) :
      Nested (.push :: (inner ++ .pop :: calls))

/-- The session after a call. A fragment that is refused leaves it as it is. -/
def step (solver : Capabilities) (s : Session) : Call → Session
  | .fragment d =>
    match s.fragment solver d with
    | .ok (_, next) => next
    | .error _ => s
  | .push => s.push.2
  | .pop =>
    match s.pop with
    | some (_, next) => next
    | none => s

def run (solver : Capabilities) (s : Session) (calls : List Call) : Session :=
  calls.foldl (step solver) s

/-- The words that a call declares, none when it is refused. -/
def accepted (solver : Capabilities) (s : Session) : Call → List WordId
  | .fragment d =>
    match s.fragment solver d with
    | .ok _ => d.words
    | .error _ => []
  | .push | .pop => []

/-- The words that calls declare one after the other. -/
def declared (solver : Capabilities) : Session → List Call → List WordId
  | _, [] => []
  | s, call :: calls => accepted solver s call ++ declared solver (step solver s call) calls

section

variable (solver : Capabilities)

theorem run_append (s : Session) (calls more : List Call) :
    run solver s (calls ++ more) = run solver (run solver s calls) more := by
  simp [run]

theorem declared_append (s : Session) (calls more : List Call) :
    declared solver s (calls ++ more) =
      declared solver s calls ++ declared solver (run solver s calls) more := by
  induction calls generalizing s with
  | nil => rfl
  | cons call rest ih => simp [declared, run, ih (step solver s call)]

/-- What nested calls do inside an open level: words are added to the level, and
without these the scope is the earlier one without the words that were declared. -/
def Grows (s next : Session) (ids : List WordId) : Prop :=
  ∀ level rest, s.levels = level :: rest → ∃ more, next.levels = (level ++ more) :: rest ∧
    next.scope.without more = s.scope.without ids

theorem grows_refl (s : Session) : Grows s s [] :=
  fun level _ open' => ⟨[], by rw [List.append_nil, open'], rfl⟩

theorem Grows.trans {s middle next : Session} {ids more : List WordId}
    (first : Grows s middle ids) (second : Grows middle next more) :
    Grows s next (ids ++ more) := by
  intro level rest opened
  obtain ⟨added, levels, scope⟩ := first level rest opened
  obtain ⟨later, levels', scope'⟩ := second (level ++ added) rest levels
  refine ⟨added ++ later, by rw [levels', List.append_assoc], ?_⟩
  rw [Scope.without_append, Scope.without_comm, scope', Scope.without_comm, scope,
    Scope.without_append]

theorem grows_fragment (s : Session) (d : Delta) :
    Grows s (step solver s (.fragment d)) (accepted solver s (.fragment d)) := by
  cases answered : s.fragment solver d with
  | error e =>
    simp only [step, accepted, answered]
    exact grows_refl s
  | ok result =>
    obtain ⟨script, next⟩ := result
    obtain ⟨scope, levels⟩ := fragment_eq_ok answered
    simp only [step, accepted, answered]
    intro level rest opened
    exact ⟨d.words, by rw [levels, opened, record], scope⟩

/-- A level that grew from nothing takes all its words with it when it is closed. -/
theorem pop_of_grows {s inner : Session} {ids : List WordId} (grows : Grows s.push.2 inner ids) :
    step solver inner .pop = ⟨s.scope.without ids, s.levels⟩ := by
  obtain ⟨added, levels, scope⟩ := grows [] s.levels rfl
  simp only [step, pop, levels, List.nil_append, Scope.foldl_forget]
  rw [scope]
  rfl

theorem grows_level {s inner : Session} {ids : List WordId} (grows : Grows s.push.2 inner ids) :
    Grows s (step solver inner .pop) ids := by
  rw [pop_of_grows solver grows]
  intro level rest opened
  exact ⟨[], by rw [List.append_nil, opened], Scope.without_nil _⟩

theorem grows_run {calls : List Call} (nested : Nested calls) (s : Session) :
    Grows s (run solver s calls) (declared solver s calls) := by
  induction nested generalizing s with
  | nil => exact grows_refl s
  | fragment d _ ih => exact (grows_fragment solver s d).trans (ih _)
  | @level inner calls _ _ ihInside ihRest =>
    have inside := grows_level solver (ihInside s.push.2)
    have whole := inside.trans (ihRest (step solver (run solver s.push.2 inner) .pop))
    have calls_run : run solver s (.push :: (inner ++ .pop :: calls)) =
        run solver (step solver (run solver s.push.2 inner) .pop) calls := by
      rw [run, List.foldl_cons, ← run, run_append]
      rfl
    have words : declared solver s (.push :: (inner ++ .pop :: calls)) =
        declared solver s.push.2 inner ++
          declared solver (step solver (run solver s.push.2 inner) .pop) calls := by
      rw [declared, accepted, List.nil_append, declared_append, declared, accepted,
        List.nil_append]
      rfl
    rw [calls_run, words]
    exact whole

/-- A level that is opened, used and closed takes away the words declared meanwhile and
changes nothing else. -/
theorem run_level {calls : List Call} (nested : Nested calls) (s : Session) :
    run solver s (.push :: (calls ++ [.pop])) =
      ⟨s.scope.without (declared solver s.push.2 calls), s.levels⟩ := by
  rw [run, List.foldl_cons, ← run, run_append]
  exact pop_of_grows solver (grows_run solver nested s.push.2)

/-- What a session answers to a fragment: its text, or why it is refused. -/
def answer (solver : Capabilities) (s : Session) (d : Delta) : Except QueryError String :=
  (s.fragment solver d).map fun r => r.1.text

theorem check_asserting (ids : List WordId) :
    (Delta.asserting ids).features.check solver = .ok () :=
  rfl

/-- A word can be asserted exactly when it is in scope. -/
theorem answer_asserting (s : Session) (id : WordId) :
    answer solver s (.asserting [id]) =
      match s.scope.kind? id with
      | some _ => .ok (Script.ofCommands [.assert (.word id)]).text
      | none => .error (.emission (.undeclared id)) := by
  rw [answer, fragment, check_asserting]
  cases found : s.scope.kind? id with
  | none =>
    have refused : (Delta.asserting [id]).commands s.scope = .error (.undeclared id) := by
      simp [Delta.commands, Delta.asserting, Scope.kind, found, bind, Except.bind, pure,
        Except.pure]
      rfl
    rw [refused]
    rfl
  | some kind =>
    have written : (Delta.asserting [id]).commands s.scope =
        .ok ⟨[.assert (.word id)], s.scope⟩ := by
      simp [Delta.commands, Delta.asserting, Scope.kind, found, bind, Except.bind, pure,
        Except.pure]
      rfl
    rw [written]
    rfl

/-- A level that is opened, used and closed leaves the session as it was, and every
later fragment with the answer it would have had, exactly when no fragment inside
declares a word that was in scope. -/
theorem restored_iff {calls : List Call} (nested : Nested calls) (s : Session) :
    (run solver s (.push :: (calls ++ [.pop])) = s ↔
      ∀ id ∈ declared solver s.push.2 calls, s.scope.kind? id = none) ∧
    ((∀ d, answer solver (run solver s (.push :: (calls ++ [.pop]))) d = answer solver s d) ↔
      ∀ id ∈ declared solver s.push.2 calls, s.scope.kind? id = none) := by
  have whole : run solver s (.push :: (calls ++ [.pop])) = s ↔
      ∀ id ∈ declared solver s.push.2 calls, s.scope.kind? id = none := by
    rw [run_level solver nested, ← Scope.without_eq_self_iff]
    constructor
    · intro same
      exact congrArg Session.scope same
    · intro same
      rw [same]
  refine ⟨whole, ?_⟩
  constructor
  · intro same id hid
    have lost := same (.asserting [id])
    rw [run_level solver nested, answer_asserting, answer_asserting,
      Scope.kind?_without hid] at lost
    cases found : s.scope.kind? id with
    | none => rfl
    | some kind =>
      rw [found] at lost
      cases lost
  · intro fresh d
    rw [whole.mpr fresh]

end

/-- A fragment that declares one truth value. -/
def Call.declaring (id : WordId) : Call :=
  .fragment ⟨[], [⟨id, "x", .bool⟩], [], [], [], [], [], []⟩

/-- With a word in scope, another one can be declared inside a level without a trace. -/
theorem restored_iff_fresh :
    Nested [.declaring ⟨1⟩] ∧
      run Preset.z3.capabilities (run Preset.z3.capabilities start [.declaring ⟨0⟩])
        [.push, .declaring ⟨1⟩, .pop] =
      run Preset.z3.capabilities start [.declaring ⟨0⟩] := by
  have nested : Nested [.declaring ⟨1⟩] := .fragment _ .nil
  have fresh : ∀ id ∈ declared Preset.z3.capabilities
      (run Preset.z3.capabilities start [.declaring ⟨0⟩]).push.2 [.declaring ⟨1⟩],
      (run Preset.z3.capabilities start [.declaring ⟨0⟩]).scope.kind? id = none := by
    decide
  exact ⟨nested, (restored_iff Preset.z3.capabilities nested _).1.mpr fresh⟩

/-- A word that is in scope and declared once more inside a level is lost with it. -/
theorem redeclared_lost :
    ¬∀ (solver : Capabilities) (before calls : List Call), Nested calls → ∀ d,
      answer solver (run solver (run solver start before) (.push :: (calls ++ [.pop]))) d =
        answer solver (run solver start before) d := by
  intro restored
  have same := restored Preset.z3.capabilities [.declaring ⟨0⟩] [.declaring ⟨0⟩]
    (.fragment _ .nil) (.asserting [⟨0⟩])
  rw [answer_asserting, answer_asserting] at same
  cases same

end Session

end SmtDialogue
