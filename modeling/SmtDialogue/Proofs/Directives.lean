import SmtDialogue.Proofs.Exchange
import SmtDialogue.Proofs.Queries
import SmtDialogue.Proofs.Separators

/-!
# The objectives at each check

The commands of a query are executed on an assertion stack that keeps the directives in
force. Directives stand among the commands of the program, or in the block of their own
objective, between a push and its pop. Either way each check is made under the objectives
it is about, one check for each expected model and the sentinel between two of them, and no
level is left open or closed twice.
-/

namespace SmtDialogue

namespace Command

/-- Whether a command asks for an optimum or adds a soft assertion. -/
def isDirective : Command → Bool
  | .minimize _ | .maximize _ | .assertSoft _ _ _ => true
  | _ => false

def isCheck : Command → Bool
  | .checkSat => true
  | _ => false

end Command

/-- What is seen of a run: each check with the directives in force, and each echo. -/
inductive Event where
  | check (active : List Command)
  | echo (text : String)

def Event.isCheck : Event → Bool
  | .check _ => true
  | .echo _ => false

/-- The directives in force, and those that were in force when the open levels were opened,
the innermost level first. -/
structure Assertions where
  active : List Command
  saved : List (List Command)

namespace Assertions

def start : Assertions := ⟨[], []⟩

def depth (s : Assertions) : Nat :=
  s.saved.length

/-- Closes levels, which must be open. -/
def pop? : Assertions → Nat → Option Assertions
  | s, 0 => some s
  | ⟨_, []⟩, _ + 1 => none
  | ⟨_, saved :: outer⟩, levels + 1 => pop? ⟨saved, outer⟩ levels

/-- The stack after a command, and what is seen of it. -/
def step (s : Assertions) (c : Command) : Option (Assertions × List Event) :=
  match c with
  | .checkSat => some (s, [.check s.active])
  | .echo text => some (s, [.echo text])
  | .push levels => some (⟨s.active, List.replicate levels s.active ++ s.saved⟩, [])
  | .pop levels => (s.pop? levels).map (·, [])
  | _ => some (if c.isDirective then ⟨s.active ++ [c], s.saved⟩ else s, [])

/-- The stack after some commands, unless they close a level that is not open. -/
def run (s : Assertions) : List Command → Option (Assertions × List Event)
  | [] => some (s, [])
  | c :: rest => do
    let (next, seen) ← s.step c
    let (last, later) ← next.run rest
    return (last, seen ++ later)

variable {s next last : Assertions} {cs ds : List Command} {seen later : List Event}

theorem run_cons {c : Command} (first : s.step c = some (next, seen))
    (rest : next.run cs = some (last, later)) : s.run (c :: cs) = some (last, seen ++ later) := by
  rw [run, first]
  dsimp only [Option.bind_eq_bind, Option.bind_some]
  rw [rest]
  rfl

theorem run_append (first : s.run cs = some (next, seen))
    (rest : next.run ds = some (last, later)) :
    s.run (cs ++ ds) = some (last, seen ++ later) := by
  induction cs generalizing s seen with
  | nil =>
    cases first
    exact rest
  | cons c cs ih =>
    simp only [run, Option.bind_eq_bind, Option.bind_eq_some_iff] at first
    obtain ⟨⟨middle, here⟩, step, ⟨last', there⟩, others, same⟩ := first
    cases same
    rw [List.append_assoc]
    exact run_cons step (ih others)

/-- What only tells the solver something leaves the directives as they are. -/
theorem run_tells (s : Assertions) (tells : ∀ c ∈ cs, c.Tells) : s.run cs = some (s, []) := by
  induction cs with
  | nil => rfl
  | cons c cs ih =>
    obtain ⟨first, others⟩ := List.forall_mem_cons.mp tells
    have step : s.step c = some (s, []) := by
      cases c <;> first | exact first.elim | rfl
    exact run_cons step (ih others)

theorem step_objective (s : Assertions) (o : Objective) :
    s.step o.command = some (⟨s.active ++ [o.command], s.saved⟩, []) := by
  rw [Objective.command]
  split <;> rfl

theorem run_objectives (os : List Objective) (s : Assertions) :
    s.run (os.map Objective.command) =
      some (⟨s.active ++ os.map Objective.command, s.saved⟩, []) := by
  induction os generalizing s with
  | nil => simp [run]
  | cons o rest ih =>
    have others := ih ⟨s.active ++ [o.command], s.saved⟩
    rw [List.append_assoc] at others
    exact run_cons (s.step_objective o) others

/-- Each check of a run is seen. -/
theorem countP_isCheck (ran : s.run cs = some (last, seen)) :
    cs.countP Command.isCheck = seen.countP Event.isCheck := by
  induction cs generalizing s seen with
  | nil =>
    cases ran
    rfl
  | cons c cs ih =>
    simp only [run, Option.bind_eq_bind, Option.bind_eq_some_iff] at ran
    obtain ⟨⟨middle, here⟩, step, ⟨last', there⟩, others, same⟩ := ran
    cases same
    have first : here.countP Event.isCheck = if c.isCheck then 1 else 0 := by
      cases c with
      | pop levels =>
        obtain ⟨_, _, same⟩ := Option.map_eq_some_iff.mp step
        cases same
        rfl
      | _ =>
        cases step
        rfl
    rw [List.countP_cons, ih others, List.countP_append, first, Nat.add_comm]

end Assertions

namespace Script

variable {p : Program}

theorem separated_eq (sentinel : String) (bs : List (List Command)) :
    separated sentinel bs = List.intercalate [.echo sentinel] bs := by
  induction bs with
  | nil => rfl
  | cons b rest ih =>
    cases rest with
    | nil => simp [separated]
    | cons next others =>
      have parts : separated sentinel (b :: next :: others) =
          b ++ [.echo sentinel] ++ separated sentinel (next :: others) := by simp [separated]
      rw [parts, ih, List.intercalate_cons_cons]

/-- The commands of one block: an objective with a block of its own is added on a level of
its own. -/
def block (p : Program) (k : Nat) : List Command :=
  if p.style = .independent then
    match p.objectives[k]? with
    | some o => [.push 1, o.command] ++ readback p ++ [.pop 1]
    | none => readback p
  else readback p

theorem blocks_eq (p : Program) : blocks p = (List.range p.expectedModels).map (block p) := by
  cases style : p.style with
  | lexicographic => simp [blocks, block, Program.expectedModels, style]
  | pareto fronts =>
    have same : block p = fun _ => readback p := by
      funext k
      simp [block, style]
    rw [same, List.map_const', List.length_range]
    simp [blocks, style]
  | independent =>
    cases empty : p.objectives with
    | nil => simp [blocks, block, Program.expectedModels, style, empty]
    | cons o rest =>
      refine List.ext_getElem ?_ fun k below _ => ?_
      · simp [blocks, Program.expectedModels, style, empty]
      · have listed : k < p.objectives.length := by
          simpa [blocks, style, empty] using below
        have nonempty : p.objectives.isEmpty = false := by simp [empty]
        have found : p.objectives[k]? = some p.objectives[k] := List.getElem?_eq_getElem listed
        simp [blocks, block, style, nonempty, found]

end Script

namespace Assertions

open Script (readback block separated sharedObjectives)

variable (p : Program)

/-- A model is read back with one check. -/
theorem run_readback (s : Assertions) : s.run (readback p) = some (s, [.check s.active]) := by
  rw [readback]
  cases p.objectives.isEmpty <;> cases p.modelInputs.isEmpty <;> rfl

/-- The check of a block is made under its objectives, and the block leaves what it found. -/
theorem run_block (k : Nat) : run ⟨sharedObjectives p, []⟩ (block p k) =
    some (⟨sharedObjectives p, []⟩, [.check ((p.reported k).map Objective.command)]) := by
  rw [block, sharedObjectives, Program.reported]
  split
  · cases found : p.objectives[k]? with
    | none => exact run_readback p ⟨[], []⟩
    | some o =>
      have pushed : step ⟨[], []⟩ (.push 1) = some (⟨[], [[]]⟩, []) := rfl
      have added : run ⟨[], [[]]⟩ [o.command] = some (⟨[o.command], [[]]⟩, []) :=
        run_objectives [o] ⟨[], [[]]⟩
      have opened := run_cons pushed added
      exact run_append (run_append opened (run_readback p _)) rfl
  · exact run_readback p _

theorem run_separated (sentinel : String) (ks : List Nat) :
    run ⟨sharedObjectives p, []⟩ (separated sentinel (ks.map (block p))) =
      some (⟨sharedObjectives p, []⟩, List.intercalate [.echo sentinel]
        (ks.map fun k => [.check ((p.reported k).map Objective.command)])) := by
  rw [Script.separated_eq]
  induction ks with
  | nil => rfl
  | cons k rest ih =>
    cases rest with
    | nil => simpa using run_block p k
    | cons next others =>
      simp only [List.map_cons, List.intercalate_cons_cons] at ih ⊢
      have echo : run ⟨sharedObjectives p, []⟩ [.echo sentinel] =
          some (⟨sharedObjectives p, []⟩, [.echo sentinel]) := rfl
      exact run_append (run_append (run_block p k) echo) ih

end Assertions

namespace Script

variable {c : Config} {p : Program} {s : Script}

/-- Without lines of the user a query is commands and comments. -/
theorem plain_query (written : query c p = .ok s) (none : p.assumptions = []) : s.Plain := by
  obtain ⟨_, script, built, rfl⟩ := query_eq_ok written
  obtain ⟨parts, _, whole, _⟩ := body_eq_ok built
  have front := Plain.front parts c (Features.ofProgram p)
  rw [whole, none]
  exact ((front.append (by simp [underHeading, Plain])).append (Plain.back parts)).append
    (.ofCommands _)

theorem countP_intercalate_check (sentinel : String) (actives : List (List Command)) :
    (List.intercalate [Event.echo sentinel] (actives.map fun active => [.check active])).countP
      Event.isCheck = actives.length := by
  induction actives with
  | nil => rfl
  | cons active rest ih =>
    cases rest with
    | nil => rfl
    | cons next others =>
      simp only [List.map_cons, List.intercalate_cons_cons, List.countP_append] at ih ⊢
      rw [ih, List.length_cons (a := active)]
      simp [Event.isCheck, Nat.add_comm]

/-- Every check of a query is made under the right objectives. Without lines of the user a
query is commands and comments only; its commands can be executed, since no level is closed
that is not open, and leave no level open; there is one check for each expected model; and
what is seen of them is each check under the objectives it reports on, all of them or for
independent ones the one of its place, with one echo of the sentinel between two checks. -/
theorem run_query (written : query c p = .ok s) (none : p.assumptions = []) :
    s.Plain ∧ s.commands.countP Command.isCheck = p.expectedModels ∧
      ∃ last, last.depth = 0 ∧
        Assertions.start.run s.commands = some (last,
          List.intercalate [.echo c.sentinel] ((List.range p.expectedModels).map fun k =>
            [.check (((if p.style = .independent then p.objectives[k]?.toList
              else p.objectives)).map Objective.command)])) := by
  have plain := plain_query written none
  obtain ⟨_, script, built, rfl⟩ := query_eq_ok written
  obtain ⟨front, commands, tells⟩ := tells_of_body built
  have shared : Assertions.start.run (sharedObjectives p) =
      some (⟨sharedObjectives p, []⟩, []) := by
    rw [sharedObjectives]
    split
    · rfl
    · exact Assertions.run_objectives p.objectives .start
  have blocks := Assertions.run_separated p c.sentinel (List.range p.expectedModels)
  rw [← blocks_eq] at blocks
  have whole := Assertions.run_append
    (Assertions.run_append (Assertions.run_tells .start tells) shared) blocks
  rw [commands_append, commands_ofCommands, commands]
  refine ⟨plain, ?_, _, rfl, whole⟩
  have checks := countP_intercalate_check c.sentinel
    ((List.range p.expectedModels).map fun k => (p.reported k).map Objective.command)
  rw [List.map_map, List.length_map, List.length_range] at checks
  exact (Assertions.countP_isCheck whole).trans checks

/-- Two independent objectives are checked one by one, and two fronts of one objective both
under it. -/
theorem run_query_extremes :
    (∃ s, query .standard .extremes = .ok s ∧ s.commands.countP Command.isCheck = 2 ∧
      ∃ last, last.depth = 0 ∧ Assertions.start.run s.commands = some (last,
        [.check [.minimize ⟨2⟩], .echo Config.standard.sentinel, .check [.maximize ⟨3⟩]])) ∧
    ∀ sentinel, ∃ s, query (.separatedBy sentinel) .fronts = .ok s ∧
      ∃ last, last.depth = 0 ∧ Assertions.start.run s.commands = some (last,
        [.check [.minimize ⟨0⟩], .echo sentinel, .check [.minimize ⟨0⟩]]) := by
  have passed : (Features.ofProgram .extremes).check Config.standard.capabilities = .ok () := by
    rw [Features.check, universalObjectives_eq_nil rfl]
    rfl
  obtain ⟨script, built⟩ : ∃ script,
      body Config.standard .extremes (Features.ofProgram .extremes) = .ok script := ⟨_, rfl⟩
  have written := query_of_body passed built
  obtain ⟨_, checks, ran⟩ := run_query written rfl
  refine ⟨⟨_, written, checks, ran⟩, fun sentinel => ?_⟩
  obtain ⟨s, written⟩ := query_fronts sentinel
  exact ⟨s, written, (run_query written rfl).2.2⟩

end Script

end SmtDialogue
