import SmtDialogue.Proofs.Commands

/-!
# Transcripts

What an idealised solver prints for the commands of a script. It keeps the objectives of
every level and answers from one solution until the next check; lines of the user are
not among the commands, and most commands print nothing. For a full query the transcript
holds one block for each expected model, with the sentinel between them.
-/

namespace SmtDialogue

/-- Whether a command only tells the solver something. -/
def Command.Tells : Command → Prop
  | .setOption _ _ | .setLogic _ | .declareSort _ _ | .declare _ _ _ _ | .define _ _ _ _
  | .assert _ | .assertForall _ _ _ => True
  | _ => False

def Command.isEcho : Command → Bool
  | .echo _ => true
  | _ => false

/-- What a solver keeps between two commands: the number of checks it has made, and the
words of the objectives that are active on every level, the innermost level first. -/
structure Standing where
  checks : Nat
  levels : List (List WordId)

namespace Standing

def start : Standing := ⟨0, [[]]⟩

/-- The active objectives, in order. -/
def active (s : Standing) : List WordId :=
  s.levels.headD []

def addObjective (s : Standing) (id : WordId) : Standing :=
  { s with levels := (s.active ++ [id]) :: s.levels.tail }

def after (s : Standing) : Command → Standing
  | .checkSat => { s with checks := s.checks + 1 }
  | .minimize id | .maximize id | .assertSoft id _ _ => s.addObjective id
  | .push levels => { s with levels := List.replicate levels s.active ++ s.levels }
  | .pop levels => { s with levels := s.levels.drop levels }
  | _ => s

end Standing

/-- The solutions a solver finds one after the other: in each one the values of the
words, and the values of the active objectives by their position. -/
structure Solutions where
  value : Nat → WordId → Value
  bound : Nat → Nat → Value

namespace Solutions

def pairText (id : WordId) (v : Value) : String :=
  "(" ++ id.text ++ " " ++ v.literal ++ ")"

def valueLine (s : Solutions) (k : Nat) (ids : List WordId) : String :=
  "(" ++ spaced (ids.map fun id => pairText id (s.value k id)) ++ ")"

def objectiveLine (s : Solutions) (k : Nat) (ids : List WordId) : String :=
  "(" ++ spaced ("objectives" :: ids.zipIdx.map fun x => pairText x.1 (s.bound k x.2)) ++ ")"

/-- The lines a command is answered with. Values are those of the last check. -/
def reply (s : Solutions) (standing : Standing) : Command → List String
  | .checkSat => ["sat"]
  | .getObjectives => [s.objectiveLine (standing.checks - 1) standing.active]
  | .getValue ids => [s.valueLine (standing.checks - 1) ids]
  | .echo text => [text]
  | _ => []

/-- The answered lines, each with the command it answers. -/
def exchange (s : Solutions) (standing : Standing) : List Command → List (Command × String)
  | [] => []
  | c :: rest => (s.reply standing c).map (c, ·) ++ s.exchange (standing.after c) rest

/-- The answer to a script, line by line. -/
def answer (s : Solutions) (script : Script) : List String :=
  (s.exchange .start script.commands).map Prod.snd

variable (s : Solutions)

theorem exchange_append (standing : Standing) (cs ds : List Command) :
    s.exchange standing (cs ++ ds) =
      s.exchange standing cs ++ s.exchange (cs.foldl Standing.after standing) ds := by
  induction cs generalizing standing with
  | nil => rfl
  | cons c cs ih => simp [exchange, ih]

/-- What only tells the solver something changes nothing here and is not answered. -/
theorem exchange_tells {cs : List Command} (tells : ∀ c ∈ cs, c.Tells) (standing : Standing) :
    cs.foldl Standing.after standing = standing ∧ s.exchange standing cs = [] := by
  induction cs with
  | nil => exact ⟨rfl, rfl⟩
  | cons c cs ih =>
    obtain ⟨same, silent⟩ := ih fun d hd => tells d (List.mem_cons_of_mem c hd)
    have first := tells c List.mem_cons_self
    have step : standing.after c = standing ∧ s.reply standing c = [] := by
      cases c <;> first | exact absurd first id | exact ⟨rfl, rfl⟩
    rw [List.foldl_cons, exchange, step.1, step.2]
    exact ⟨same, silent⟩

theorem after_objective (standing : Standing) (o : Objective) :
    standing.after o.command = standing.addObjective o.id ∧
      s.reply standing o.command = [] := by
  obtain ⟨name, id, goal⟩ := o
  cases goal <;> exact ⟨rfl, rfl⟩

/-- Objectives are added to the innermost level. -/
theorem exchange_objectives (os : List Objective) (checks : Nat) (active : List WordId)
    (outer : List (List WordId)) :
    (os.map Objective.command).foldl Standing.after ⟨checks, active :: outer⟩ =
        ⟨checks, (active ++ os.map Objective.id) :: outer⟩ ∧
      s.exchange ⟨checks, active :: outer⟩ (os.map Objective.command) = [] := by
  induction os generalizing active with
  | nil => simp [exchange]
  | cons o os ih =>
    obtain ⟨step, silent⟩ := s.after_objective ⟨checks, active :: outer⟩ o
    obtain ⟨others, rest⟩ := ih (active ++ [o.id])
    rw [List.map_cons, List.foldl_cons, exchange, step, silent]
    refine ⟨?_, rest⟩
    rw [Standing.addObjective]
    simpa [Standing.active] using others

end Solutions

namespace Script

theorem tells_header (c : Config) (p : Program) (f : Features) :
    ∀ command ∈ (header c p f).commands, command.Tells := by
  intro command member
  have silent := silent_header c p f command member
  cases command <;> trivial

theorem tells_opening (p : Program) : ∀ command ∈ (opening p).commands, command.Tells := by
  have step : ∀ (inputs : List Input) (o : Opening), (∀ c ∈ o.commands, c.Tells) →
      ∀ c ∈ (inputs.foldl (Opening.add p) o).commands, c.Tells := by
    intro inputs
    induction inputs with
    | nil => exact fun _ tells => tells
    | cons i rest ih =>
      intro o tells
      refine ih _ ?_
      rw [Opening.add]
      split
      · exact tells
      · split <;> simpa [or_imp, forall_and] using ⟨tells, trivial⟩
  exact step p.inputs _ (by simp)

theorem tells_definitions {assignments : List Assignment} {first last : Definitions}
    (tells : ∀ c ∈ first.commands, c.Tells)
    (defined : assignments.foldlM Definitions.add first = .ok last) :
    ∀ c ∈ last.commands, c.Tells := by
  refine Except.foldlM_induction defined tells fun a _ d next added tells => ?_
  obtain ⟨body, _, added⟩ := Except.bind_eq_ok.mp added
  dsimp only at added
  split at added
  · cases added
    simpa [or_imp, forall_and] using ⟨tells, trivial⟩
  · cases added
    exact tells

theorem tells_assertions (p : Program) (o : Opening) (bindings : List (WordId × Term)) :
    ∀ command ∈ assertions p o bindings, command.Tells := by
  rw [assertions]
  split
  · simp [or_imp, forall_and, Command.Tells]
  · simp [Command.Tells]

theorem tells_arrays {p : Program} {parts : Parts p} (shape : parts.Written) :
    ∀ command ∈ parts.arrays, command.Tells := by
  intro command member
  obtain ⟨a, _, written⟩ := shape.arrays.exists_of_mem_right member
  obtain rfl | ⟨_, _, rfl⟩ := ArrayDecl.command_eq_ok written <;> trivial

theorem tells_entries {p : Program} {parts : Parts p} (shape : parts.Written) :
    ∀ command ∈ parts.entries.flatten, command.Tells := by
  intro command member
  obtain ⟨t, _, _, _, written⟩ := Table.exists_of_mem_entries shape.entries member
  obtain ⟨_, _, _, rfl⟩ := Table.entryCommand_eq_ok written
  trivial

/-- Of what a program is written as, only its shared objectives do more than tell. -/
theorem tells_of_body {c : Config} {p : Program} {f : Features} {s : Script}
    (written : body c p f = .ok s) :
    ∃ front, s.commands = front ++ sharedObjectives p ∧ ∀ command ∈ front, command.Tells := by
  obtain ⟨parts, shape, _, commands⟩ := body_eq_ok written
  refine ⟨(header c p f).commands ++ (p.sorts.map SortDecl.command ++
    ((opening p).commands ++ (p.constants.map (fun k => constantCommand k.1 k.2) ++
      (p.tables.map Table.command ++ (parts.arrays ++
        (p.functions.map FunctionDecl.command ++ (parts.definitions.commands ++
          (parts.entries.flatten ++ assertions p (opening p) parts.definitions.bindings)))))))),
    by rw [commands]; simp only [List.append_assoc], ?_⟩
  intro command member
  simp only [List.mem_append, List.mem_map] at member
  rcases member with member | ⟨_, _, rfl⟩ | member | ⟨_, _, rfl⟩ | ⟨_, _, rfl⟩ | member |
    ⟨_, _, rfl⟩ | member | member | member
  · exact tells_header c p f command member
  · trivial
  · exact tells_opening p command member
  · trivial
  · trivial
  · exact tells_arrays shape command member
  · trivial
  · exact tells_definitions (by simp) shape.definitions command member
  · exact tells_entries shape command member
  · exact tells_assertions p _ _ command member

theorem length_blocks (p : Program) : (blocks p).length = p.expectedModels := by
  cases style : p.style with
  | lexicographic => simp [blocks, Program.expectedModels, style]
  | independent =>
    cases empty : p.objectives.isEmpty <;> simp [blocks, Program.expectedModels, style, empty]
  | pareto fronts => simp [blocks, style]

end Script

namespace Program

/-- The words of the objectives that stand outside every block. -/
def sharedWords (p : Program) : List WordId :=
  if p.style = .independent then [] else p.objectives.map Objective.id

/-- The objectives that are active in a block, counted from zero. -/
def reported (p : Program) (k : Nat) : List Objective :=
  if p.style = .independent then p.objectives[k]?.toList else p.objectives

end Program

namespace Solutions

open Script (readback blocks separated sharedObjectives)

variable (s : Solutions) {p : Program}

/-- What is said in one block. -/
def block (p : Program) (k : Nat) : List (Command × String) :=
  (Command.checkSat, "sat") ::
    ((if p.objectives.isEmpty then []
      else [(Command.getObjectives, s.objectiveLine k ((p.reported k).map Objective.id))]) ++
    (if p.modelInputs.isEmpty then []
      else [(Command.getValue p.modelInputs, s.valueLine k p.modelInputs)]))

/-- Reading a model back is one check. -/
theorem exchange_readback {k : Nat} {levels : List (List WordId)}
    (active : (Standing.mk k levels).active = (p.reported k).map Objective.id) :
    (readback p).foldl Standing.after ⟨k, levels⟩ = ⟨k + 1, levels⟩ ∧
      s.exchange ⟨k, levels⟩ (readback p) = s.block p k := by
  have next : (Standing.mk (k + 1) levels).active = (p.reported k).map Objective.id := active
  rw [readback, block]
  cases p.objectives.isEmpty <;> cases p.modelInputs.isEmpty <;>
    simp [exchange, reply, Standing.after, next]

/-- A block is answered with one model and leaves the levels as they are. -/
theorem exchange_block {k : Nat} {commands : List Command}
    (found : (blocks p)[k]? = some commands) :
    commands.foldl Standing.after ⟨k, [p.sharedWords]⟩ = ⟨k + 1, [p.sharedWords]⟩ ∧
      s.exchange ⟨k, [p.sharedWords]⟩ commands = s.block p k := by
  cases style : p.style with
  | lexicographic =>
    have same : commands = readback p := by
      simp only [blocks, style, List.getElem?_singleton] at found
      split at found <;> simp_all
    rw [same]
    refine s.exchange_readback ?_
    simp [Standing.active, Program.sharedWords, Program.reported, style]
  | pareto fronts =>
    have same : commands = readback p := by
      simp only [blocks, style] at found
      exact List.eq_of_mem_replicate (List.mem_of_getElem? found)
    rw [same]
    refine s.exchange_readback ?_
    simp [Standing.active, Program.sharedWords, Program.reported, style]
  | independent =>
    simp only [blocks, style] at found
    split at found
    · next empty =>
      have none := List.isEmpty_iff.mp empty
      have same : commands = readback p := by
        rw [List.getElem?_singleton] at found
        split at found <;> simp_all
      rw [same]
      refine s.exchange_readback ?_
      simp [Standing.active, Program.sharedWords, Program.reported, style, none]
    · -- the objective is added on a level of its own, which goes with it
      rw [List.getElem?_map] at found
      obtain ⟨o, here, rfl⟩ := Option.map_eq_some_iff.mp found
      have shared : p.sharedWords = [] := by simp [Program.sharedWords, style]
      obtain ⟨added, silent⟩ := s.after_objective ⟨k, [[], []]⟩ o
      have active : (Standing.mk k [[o.id], []]).active = (p.reported k).map Objective.id := by
        simp [Standing.active, Program.reported, style, here]
      obtain ⟨stands, said⟩ := s.exchange_readback active
      rw [shared]
      have opened : (Standing.mk k [[]]).after (.push 1) = ⟨k, [[], []]⟩ := rfl
      have inside : (Standing.mk k [[], []]).addObjective o.id = ⟨k, [[o.id], []]⟩ := rfl
      simp only [List.cons_append, List.nil_append, List.foldl_cons, List.foldl_append, opened,
        added, inside, stands, exchange, exchange_append, silent, said]
      exact ⟨rfl, by simp [reply]⟩

theorem exchange_separated (sentinel : String) {bs : List (List Command)} {k : Nat}
    (found : ∀ i commands, bs[i]? = some commands → (blocks p)[k + i]? = some commands) :
    s.exchange ⟨k, [p.sharedWords]⟩ (separated sentinel bs) =
      List.intercalate [(.echo sentinel, sentinel)]
        ((List.range' k bs.length).map (s.block p)) := by
  induction bs generalizing k with
  | nil => rfl
  | cons b rest ih =>
    obtain ⟨stands, said⟩ := s.exchange_block (found 0 b rfl)
    cases rest with
    | nil => simpa [separated] using said
    | cons c others =>
      have later := ih (k := k + 1) fun i commands h => by
        have shifted := found (i + 1) commands h
        rwa [← Nat.add_assoc, Nat.add_right_comm] at shifted
      have parts : separated sentinel (b :: c :: others) =
          b ++ (Command.echo sentinel :: separated sentinel (c :: others)) := by
        simp [separated]
      have echoed : s.exchange ⟨k + 1, [p.sharedWords]⟩
          (.echo sentinel :: separated sentinel (c :: others)) =
          (.echo sentinel, sentinel) ::
            s.exchange ⟨k + 1, [p.sharedWords]⟩ (separated sentinel (c :: others)) := rfl
      simp only [Nat.add_zero] at stands said
      rw [parts, exchange_append, said, stands, echoed, later]
      simp [List.range'_succ]

/-- The transcript of a query: one block for each expected model, with the sentinel
echoed between them. -/
theorem exchange_query {c : Config} {script : Script} (written : Script.query c p = .ok script) :
    s.exchange .start script.commands =
      List.intercalate [(.echo c.sentinel, c.sentinel)]
        ((List.range p.expectedModels).map (s.block p)) := by
  obtain ⟨program, composed, written⟩ := Except.bind_eq_ok.mp written
  cases written
  obtain ⟨_, _, composed⟩ := Except.bind_eq_ok.mp composed
  obtain ⟨front, commands, tells⟩ := Script.tells_of_body (Except.mapError_eq_ok.mp composed)
  have shared : (sharedObjectives p).foldl Standing.after .start = ⟨0, [p.sharedWords]⟩ ∧
      s.exchange .start (sharedObjectives p) = [] := by
    rw [sharedObjectives, Program.sharedWords]
    split
    · exact ⟨rfl, rfl⟩
    · exact s.exchange_objectives p.objectives 0 [] []
  have found : ∀ i commands, (blocks p)[i]? = some commands →
      (blocks p)[0 + i]? = some commands := by simp
  have all := s.exchange_separated c.sentinel found
  rw [Script.commands_append, Script.commands_ofCommands, commands, List.append_assoc,
    exchange_append, (s.exchange_tells tells _).1, (s.exchange_tells tells _).2, exchange_append,
    shared.1, shared.2, all, Script.length_blocks, List.range_eq_range']
  rfl

end Solutions

end SmtDialogue
