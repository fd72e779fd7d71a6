import SmtDialogue.Proofs.Levels
import SmtDialogue.Proofs.Uses

/-!
# Words that are live in a session

A solver keeps what it is told level by level and forgets a level when it is closed. The
session beside it keeps a scope and a list of words for each open level. Its scope never
has a word that the solver has forgotten, so a fragment that is accepted uses only words
which commands in force introduce, or earlier commands of its own.
-/

namespace SmtDialogue

open Command (introducedBy)

/-- The commands that a solver was told and has not forgotten: those at the base, and
those of the open levels, innermost first. -/
structure Stack where
  base : List Command
  levels : List (List Command)

namespace Stack

def empty : Stack := ⟨[], []⟩

/-- Adds commands to the innermost level. -/
def add (t : Stack) (cs : List Command) : Stack :=
  match t.levels with
  | [] => { t with base := t.base ++ cs }
  | level :: outer => { t with levels := (level ++ cs) :: outer }

def receive (t : Stack) : Command → Stack
  | .push levels => { t with levels := List.replicate levels [] ++ t.levels }
  | .pop levels => { t with levels := t.levels.drop levels }
  | c => t.add [c]

/-- The commands in force, those of the outer levels first. -/
def inForce (t : Stack) : List Command :=
  t.base ++ t.levels.reverse.flatten

theorem add_add (t : Stack) (cs ds : List Command) : (t.add cs).add ds = t.add (cs ++ ds) := by
  obtain ⟨base, levels⟩ := t
  cases levels <;> simp [add]

theorem add_nil (t : Stack) : t.add [] = t := by
  obtain ⟨base, levels⟩ := t
  cases levels <;> simp [add]

/-- What only tells the solver something is added to the innermost level. -/
theorem foldl_receive {cs : List Command} (tells : ∀ c ∈ cs, c.Tells) (t : Stack) :
    cs.foldl receive t = t.add cs := by
  induction cs generalizing t with
  | nil => exact t.add_nil.symm
  | cons c rest ih =>
    have first : t.receive c = t.add [c] := by
      have told := tells c List.mem_cons_self
      cases c <;> first | rfl | exact absurd told id
    rw [List.foldl_cons, first, ih fun d hd => tells d (List.mem_cons_of_mem c hd), add_add]
    rfl

theorem introducedBy_level (base level : List Command) (outer : List (List Command)) :
    introducedBy (inForce ⟨base, level :: outer⟩) =
      introducedBy (inForce ⟨base, outer⟩) ++ introducedBy level := by
  simp [inForce, introducedBy]

theorem introducedBy_add (t : Stack) (cs : List Command) :
    introducedBy (t.add cs).inForce = introducedBy t.inForce ++ introducedBy cs := by
  obtain ⟨base, levels⟩ := t
  cases levels <;> simp [add, inForce, introducedBy]

end Stack

namespace Session

variable (solver : Capabilities)

/-- What the solver is told on a call, nothing when the call is refused. -/
def told (s : Session) : Call → List Command
  | .fragment d =>
    match s.fragment solver d with
    | .ok (script, _) => script.commands
    | .error _ => []
  | .push => [s.push.1]
  | .pop =>
    match s.pop with
    | some (command, _) => [command]
    | none => []

/-- What the solver is told on calls one after the other. -/
def transcript : Session → List Call → List Command
  | _, [] => []
  | s, call :: calls => told solver s call ++ transcript (step solver s call) calls

/-- The commands in force after calls of a new session. -/
def inForce (calls : List Call) : List Command :=
  ((transcript solver start calls).foldl Stack.receive .empty).inForce

/-- A session beside the stack of its solver: every level has the words that its commands
introduce, and words in scope are introduced by commands in force. -/
structure Mirrors (s : Session) (t : Stack) : Prop where
  levels : s.levels = t.levels.map introducedBy
  scope : s.scope.Within (introducedBy t.inForce)

variable {solver} {s : Session} {t : Stack}

theorem mirrors_start : start.Mirrors .empty where
  levels := rfl
  scope := by simp [Scope.Within, start]

/-- An accepted fragment, with what it uses and introduces. -/
theorem Mirrors.fragment (mirrors : s.Mirrors t) {d : Delta} {script : Script} {next : Session}
    (accepted : s.fragment solver d = .ok (script, next)) :
    ∃ cs, script = Script.ofCommands cs ∧ Command.Adds (introducedBy t.inForce) cs d.words ∧
      next.Mirrors (t.add cs) := by
  obtain ⟨_, _, accepted⟩ := Except.bind_eq_ok.mp accepted
  obtain ⟨w, written, accepted⟩ := Except.bind_eq_ok.mp accepted
  cases accepted
  obtain ⟨adds, scope⟩ := Delta.adds_commands (Except.mapError_eq_ok.mp written) mirrors.scope
  refine ⟨w.commands, rfl, adds, ?_, ?_⟩
  · obtain ⟨base, levels⟩ := t
    rw [mirrors.levels]
    cases levels with
    | nil => rfl
    | cons level outer => simp [record, Stack.add, introducedBy, ← adds.introduced]
  · rw [Stack.introducedBy_add, adds.introduced]
    exact scope

theorem Mirrors.push (mirrors : s.Mirrors t) : s.push.2.Mirrors (t.receive s.push.1) where
  levels := by simp [Session.push, Stack.receive, mirrors.levels, introducedBy]
  scope := by simpa [Session.push, Stack.receive, Stack.inForce] using mirrors.scope

/-- Closing a level takes its words out of the scope, and its commands out of force. -/
theorem Mirrors.pop (mirrors : s.Mirrors t) {command : Command} {next : Session}
    (closed : s.pop = some (command, next)) : next.Mirrors (t.receive command) := by
  obtain ⟨base, levels⟩ := t
  have lists := mirrors.levels
  rw [Session.pop] at closed
  cases levels with
  | nil =>
    simp only [lists, List.map_nil] at closed
    cases closed
  | cons level outer =>
    simp only [lists, List.map_cons] at closed
    cases closed
    refine ⟨by simp [Stack.receive], fun d hd => ?_⟩
    rw [Scope.foldl_forget] at hd
    obtain ⟨old, outside⟩ := List.mem_filter.mp hd
    have known := mirrors.scope d old
    rw [Stack.introducedBy_level] at known
    rcases List.mem_append.mp known with outer | inner
    · exact outer
    · simp [inner] at outside

theorem Mirrors.step (mirrors : s.Mirrors t) (call : Call) :
    (step solver s call).Mirrors ((told solver s call).foldl Stack.receive t) := by
  cases call with
  | fragment d =>
    cases answered : s.fragment solver d with
    | error e => simpa [Session.step, told, answered] using mirrors
    | ok result =>
      obtain ⟨cs, same, adds, next⟩ := mirrors.fragment answered
      simp only [Session.step, told, answered]
      rw [same, Script.commands_ofCommands, Stack.foldl_receive adds.tells]
      exact next
  | push => exact mirrors.push
  | pop =>
    cases closed : s.pop with
    | none => simpa [Session.step, told, closed] using mirrors
    | some result => simpa [Session.step, told, closed] using mirrors.pop closed

/-- The session stays beside its solver through all calls. -/
theorem Mirrors.run (mirrors : s.Mirrors t) (calls : List Call) :
    (run solver s calls).Mirrors ((transcript solver s calls).foldl Stack.receive t) := by
  induction calls generalizing s t with
  | nil => exact mirrors
  | cons call rest ih =>
    rw [transcript, List.foldl_append]
    exact ih (mirrors.step call)

def Call.isPush : Call → Bool
  | .push => true
  | _ => false

/-- Whether a call closes a level. -/
def closes (s : Session) : Call → Bool
  | .pop => s.pop.isSome
  | _ => false

variable (solver)

/-- The number of levels that calls close. -/
def closings : Session → List Call → Nat
  | _, [] => 0
  | s, call :: calls => (s.closes call).toNat + closings (step solver s call) calls

theorem pop_eq_none_iff : s.pop = none ↔ s.depth = 0 := by
  obtain ⟨scope, levels⟩ := s
  cases levels <;> simp [Session.pop, depth]

theorem depth_step (s : Session) (call : Call) :
    (step solver s call).depth + (s.closes call).toNat = s.depth + call.isPush.toNat := by
  cases call with
  | fragment d =>
    cases answered : s.fragment solver d with
    | error e => simp [step, answered, closes, Call.isPush]
    | ok result =>
      obtain ⟨script, next⟩ := result
      obtain ⟨_, levels⟩ := fragment_eq_ok answered
      cases opened : s.levels <;>
        simp [step, answered, closes, Call.isPush, depth, levels, opened, record]
  | push => simp [step, closes, Call.isPush, Session.push, depth]
  | pop =>
    obtain ⟨scope, levels⟩ := s
    cases levels <;> simp [step, closes, Call.isPush, Session.pop, depth]

theorem depth_run (s : Session) (calls : List Call) :
    (run solver s calls).depth + closings solver s calls = s.depth + calls.countP Call.isPush := by
  induction calls generalizing s with
  | nil => simp [run, closings]
  | cons call rest ih =>
    have first := depth_step solver s call
    have others := ih (step solver s call)
    have counted : (if call.isPush then 1 else 0) = call.isPush.toNat := by
      cases call.isPush <;> rfl
    rw [List.countP_cons, counted, closings, run, List.foldl_cons, ← run]
    omega

/-- Whatever calls came before, an accepted fragment uses words that commands in force or
its own earlier commands introduce, and a refused one changes nothing that follows. The
depth is the number of levels opened and not closed, and only the base cannot be closed. -/
theorem fragment_uses_live (solver : Capabilities) (calls : List Call) :
    (∀ d script next, (run solver start calls).fragment solver d = .ok (script, next) →
      ∃ cs, script = Script.ofCommands cs ∧ ∀ before c after, cs = before ++ c :: after →
        ∀ id ∈ c.words, id ∈ introducedBy before ∨ id ∈ introducedBy (inForce solver calls)) ∧
    (∀ d e, (run solver start calls).fragment solver d = .error e → ∀ more,
      run solver start (calls ++ .fragment d :: more) = run solver start (calls ++ more)) ∧
    (run solver start calls).depth + closings solver start calls = calls.countP Call.isPush ∧
    ((run solver start calls).pop = none ↔ (run solver start calls).depth = 0) := by
  refine ⟨?_, ?_, ?_, pop_eq_none_iff⟩
  · intro d script next accepted
    obtain ⟨cs, same, adds, _⟩ := (mirrors_start.run calls).fragment accepted
    refine ⟨cs, same, ?_⟩
    rintro before c after rfl id member
    exact (List.mem_append.mp (adds.chained.known_before id member)).symm
  · intro d e refused more
    rw [run_append, run_append]
    have unchanged :
        step solver (run solver start calls) (.fragment d) = run solver start calls := by
      simp only [step, refused]
    rw [run, List.foldl_cons, unchanged, ← run]
  · simpa [start, depth] using depth_run solver start calls

/-- Inside a level, after a word of its own and a fragment that was refused, both words
that are left can be asserted: one is introduced at the base, the other in the level. -/
theorem fragment_uses_live_level :
    ∃ script next,
      (run Preset.z3.capabilities start [.declaring ⟨0⟩, .push, .declaring ⟨1⟩,
        .fragment (.asserting [⟨1⟩, ⟨7⟩])]).fragment Preset.z3.capabilities
          (.asserting [⟨0⟩, ⟨1⟩]) = .ok (script, next) ∧
      ∃ cs, script = Script.ofCommands cs ∧ ∀ before c after, cs = before ++ c :: after →
        ∀ id ∈ c.words, id ∈ introducedBy before ∨
          id ∈ introducedBy (inForce Preset.z3.capabilities [.declaring ⟨0⟩, .push,
            .declaring ⟨1⟩, .fragment (.asserting [⟨1⟩, ⟨7⟩])]) := by
  refine ⟨_, _, rfl, ?_⟩
  exact (fragment_uses_live Preset.z3.capabilities [.declaring ⟨0⟩, .push, .declaring ⟨1⟩,
    .fragment (.asserting [⟨1⟩, ⟨7⟩])]).1 (.asserting [⟨0⟩, ⟨1⟩]) _ _ rfl

end Session

end SmtDialogue
