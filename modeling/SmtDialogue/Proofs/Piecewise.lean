import SmtDialogue.Proofs.Kinds
import SmtDialogue.Proofs.Uses

/-!
# Programs written as fragments

A program that only has existential inputs and nothing but words, tables, arrays and
functions can be told to a new session as one fragment. It needs the same features,
fails in the same way, and is written in the same lines, without the options and the
headings of a full script.
-/

namespace SmtDialogue

/-- What a program introduces and asserts, as one fragment. -/
def Program.delta (p : Program) : Delta where
  sorts := p.sorts
  inputs := p.inputs.map Input.var
  constants := p.constants
  tables := p.tables
  arrays := p.arrays
  functions := p.functions
  assignments := p.assignments
  assertions := p.constraints ++ [p.output]

/-- A program without universal inputs, lines of the user and objectives, in which no word
is introduced twice, and which is to be satisfied. -/
structure Program.Direct (p : Program) : Prop where
  polarity : p.polarity = .satisfy
  inputs : ∀ i ∈ p.inputs, i.quantifier = .exist
  assumptions : p.assumptions = []
  objectives : p.objectives = []
  distinct : (p.words.map Prod.fst).Nodup

theorem Program.Direct.exist {p : Program} (direct : p.Direct) :
    ∀ i ∈ p.inputs, p.quantifier i = .exist := by
  intro i member
  rw [Program.quantifier, direct.polarity]
  exact direct.inputs i member

namespace Features

/-- The gate looks at the kinds as a set. -/
theorem check_congr {f g : Features} (kinds : ∀ k, k ∈ f.kinds ↔ k ∈ g.kinds)
    (quantified : f.quantified = g.quantified) (optimizing : f.optimizing = g.optimizing)
    (sorts : f.sorts = g.sorts) (universal : f.universalObjectives = g.universalObjectives)
    (solver : Capabilities) : f.check solver = g.check solver := by
  have any : ∀ q : Kind → Bool, f.kinds.any q = g.kinds.any q := by
    intro q
    rw [Bool.eq_iff_iff]
    simp [kinds]
  have contains : ∀ k, f.kinds.contains k = g.kinds.contains k := by
    intro k
    rw [Bool.eq_iff_iff]
    simp [kinds]
  have needs : f.needs = g.needs := by
    funext feature
    cases feature <;> simp only [Features.needs, any, contains, quantified, optimizing, sorts]
  simp only [check, required, needs, universal]

/-- The kinds of words that are introduced once are those they are introduced with. -/
theorem mem_kinds_ofProgram {p : Program} (distinct : (p.words.map Prod.fst).Nodup) {k : Kind} :
    k ∈ (ofProgram p).kinds ↔ k ∈ p.words.map Prod.snd ∨
      k ∈ declaredKinds p.sorts p.tables p.arrays p.functions := by
  have same := ((Keyed.ofList_spec distinct).1.map Prod.snd).mem_iff (a := k)
  rw [ofProgram, Kind.mem_sorted, List.mem_append, Program.wordKinds, same]

theorem check_delta {p : Program} (direct : p.Direct) (solver : Capabilities) :
    p.delta.features.check solver = (ofProgram p).check solver := by
  have kinds : ∀ k, k ∈ p.delta.features.kinds ↔ k ∈ (ofProgram p).kinds := by
    intro k
    rw [mem_kinds_ofProgram direct.distinct, Delta.features, Kind.mem_sorted]
    simp [Program.delta, Program.words, or_assoc]
  refine check_congr kinds ?_ ?_ ?_ ?_ solver
  · have existential : (p.inputs.any fun i => p.quantifier i = .all) = false := by
      simp only [List.any_eq_false, decide_eq_true_eq]
      intro i member all
      rw [direct.exist i member] at all
      cases all
    exact existential.symm
  · simp [Delta.features, ofProgram, direct.objectives]
  · have any : p.delta.features.kinds.any Kind.isSort = (ofProgram p).kinds.any Kind.isSort := by
      rw [Bool.eq_iff_iff]
      simp [kinds]
    exact congrArg (!p.sorts.isEmpty || ·) any
  · simp [Delta.features, ofProgram, direct.objectives]

end Features

namespace Scope

/-- Every word in scope stands outside every quantifier. -/
def Outside (s : Scope) : Prop :=
  ∀ d ∈ s, d.top = true

variable {s : Scope}

theorem Outside.declare (outside : s.Outside) (id : WordId) (kind : Kind) :
    (s.declare id kind true).Outside := by
  intro d hd
  rcases Keyed.mem_of_mem_put hd with rfl | old
  · rfl
  · exact outside d old

theorem Outside.foldl_declare {α : Type} (xs : List α) (id : α → WordId) (kind : α → Kind)
    (outside : s.Outside) :
    (xs.foldl (fun s x => s.declare (id x) (kind x) true) s).Outside := by
  induction xs generalizing s with
  | nil => exact outside
  | cons x rest ih => exact ih (outside.declare (id x) (kind x))

theorem outside_nil : Outside [] := by
  intro d hd
  cases hd

theorem Outside.isTop (outside : s.Outside) {id : WordId} {kind : Kind}
    (found : s.kind? id = some kind) : s.isTop id = true := by
  obtain ⟨d, here, _⟩ := Option.map_eq_some_iff.mp found
  rw [Scope.isTop, here]
  exact outside d (List.mem_of_find?_eq_some here)

end Scope

namespace Script

/-- Existential inputs are constants. -/
theorem opening_of_exist {p : Program} (exist : ∀ i ∈ p.inputs, p.quantifier i = .exist) :
    opening p = ⟨p.inputs.map fun i => i.var.command,
      p.inputs.foldl (fun s i => s.declare i.var.id i.var.kind true) [], [], []⟩ := by
  have each : ∀ (inputs : List Input), (∀ i ∈ inputs, p.quantifier i = .exist) → ∀ cs s,
      inputs.foldl (Opening.add p) ⟨cs, s, [], []⟩ = ⟨cs ++ inputs.map fun i => i.var.command,
        inputs.foldl (fun s i => s.declare i.var.id i.var.kind true) s, [], []⟩ := by
    intro inputs
    induction inputs with
    | nil => simp
    | cons i rest ih =>
      intro exist cs s
      have first : Opening.add p ⟨cs, s, [], []⟩ i =
          ⟨cs ++ [i.var.command], s.declare i.var.id i.var.kind true, [], []⟩ := by
        simp [Opening.add, exist i List.mem_cons_self]
      rw [List.foldl_cons, first, ih fun j hj => exist j (List.mem_cons_of_mem i hj)]
      simp
  exact each p.inputs exist [] []

/-- Where every word in scope is outside, so is every definition. -/
theorem definitions_of_outside {assignments : List Assignment} {commands : List Command}
    {scope : Scope} (outside : scope.Outside) :
    assignments.foldlM Definitions.add ⟨commands, [], scope⟩ =
      (fun w => ⟨w.commands, [], w.scope⟩) <$>
        assignments.foldlM Delta.Written.add ⟨commands, scope⟩ := by
  induction assignments generalizing commands scope with
  | nil => rfl
  | cons a rest ih =>
    rw [List.foldlM_cons, List.foldlM_cons, Definitions.add, Delta.Written.add]
    cases written : a.term scope with
    | error e => rfl
    | ok body =>
      obtain ⟨operands, args, kinds, _⟩ := Assignment.term_eq_ok written
      have closed : a.args.all scope.isTop = true := by
        rw [← args, List.all_map, List.all_eq_true]
        exact fun o ho => outside.isTop (kinds o ho)
      have others := @ih (commands ++ [a.command body]) _ (outside.declare a.id a.kind)
      simpa [closed, bind, Except.bind, pure, Except.pure] using others

/-- The lines of a script, in order. -/
def lines (s : Script) : List String :=
  s.flatMap ScriptLine.lines

/-- The comment, the options and the logic that a full script starts with. -/
def isHeader (line : String) : Bool :=
  line == "; Automatically generated by smtlink. Do not edit." ||
    line.startsWith "(set-option " || line.startsWith "(set-logic "

/-- The comments that name the parts of a full script. -/
def isHeading (line : String) : Bool :=
  line.startsWith "; --- "

/-- The lines of a script without its header and its headings. -/
def content (s : Script) : List String :=
  s.lines.filter fun line => !isHeader line && !isHeading line

@[simp] theorem content_nil : content [] = [] := rfl

@[simp] theorem content_append (s t : Script) : content (s ++ t) = s.content ++ t.content := by
  simp [content, lines]

@[simp] theorem content_heading_cons (title : String) (rest : Script) :
    content (.heading title :: rest) = rest.content := by
  have dropped : isHeading ("; --- " ++ title ++ " ---") = true := by simp [isHeading]
  simp [content, lines, ScriptLine.lines, dropped]

@[simp] theorem content_underHeading (title : String) (part : Script) :
    content (underHeading title part) = part.content := by
  rw [underHeading]
  split
  · next empty => rw [List.isEmpty_iff.mp empty]
  · exact content_heading_cons title part

@[simp] theorem ofCommands_nil : ofCommands [] = [] := rfl

@[simp] theorem ofCommands_append (cs ds : List Command) :
    ofCommands (cs ++ ds) = ofCommands cs ++ ofCommands ds :=
  List.map_append

theorem content_ofCommands {cs : List Command} :
    content (ofCommands cs) =
      cs.flatMap fun c => c.lines.filter fun line => !isHeader line && !isHeading line := by
  simp [content, lines, ofCommands, List.flatMap_map, List.filter_flatMap, ScriptLine.lines]

/-- No line that declares, defines or asserts something looks like a header or a heading. -/
theorem content_of_contributes {cs : List Command} (contributes : ∀ c ∈ cs, c.Contributes) :
    content (ofCommands cs) = lines (ofCommands cs) := by
  have each : ∀ c ∈ cs,
      (c.lines.filter fun line => !isHeader line && !isHeading line) = c.lines := by
    intro c hc
    have contributes := contributes c hc
    cases c
    case declareSort name constructors =>
      cases constructors <;> simp [Command.lines, isHeader, isHeading, ← String.toList_inj]
    case declare | define | assert =>
      simp [Command.lines, isHeader, isHeading, ← String.toList_inj]
    all_goals cases contributes
  rw [content_ofCommands, lines, ofCommands, List.flatMap_map]
  exact List.flatMap_congr each

theorem content_silent {c : Command} (silent : Silent c) :
    (c.lines.filter fun line => !isHeader line && !isHeading line) = [] := by
  cases c
  case setOption | setLogic => simp [Command.lines, isHeader, isHeading]
  all_goals cases silent

@[simp] theorem content_header (c : Config) (p : Program) (f : Features) :
    content (header c p f) = [] := by
  have silent := silent_header c p f
  rw [header, commands_append, commands_ofCommands] at silent
  have banner : content [.banner] = [] := by simp [content, lines, ScriptLine.lines, isHeader]
  rw [header, content_append, banner, content_ofCommands, List.nil_append,
    List.flatMap_eq_nil_iff]
  exact fun command member => content_silent (silent command (List.mem_append_right _ member))

/-- A direct program has the content of its fragment, or fails as it does. -/
theorem content_body {p : Program} (direct : p.Direct) (c : Config) (f : Features) :
    content <$> body c p f =
      (fun w => content (ofCommands w.commands)) <$> p.delta.commands [] := by
  have goal : goalTerm p = .word p.output := by rw [goalTerm, direct.polarity]
  rw [body, Delta.commands, opening_of_exist direct.exist]
  simp only [map_bind, Program.delta, List.foldl_map, direct.objectives, direct.assumptions]
  -- Both are written in the same steps, so they fail at the same one.
  refine bind_congr fun arrays => ?_
  have outside := (Scope.outside_nil.foldl_declare p.inputs (fun i => i.var.id)
    fun i => i.var.kind).foldl_declare p.constants Prod.fst fun k => k.2.kind
  rw [definitions, definitions_of_outside outside, bind_map_left]
  refine bind_congr fun w => bind_congr fun entries => bind_congr fun _ => ?_
  simp [assertions, goal, apply_ite content, Function.comp_def]

end Script

/-- A fragment has neither a header nor headings. -/
theorem Delta.content_commands (d : Delta) :
    (fun w => Script.content (.ofCommands w.commands)) <$> d.commands [] =
      (fun w => Script.lines (.ofCommands w.commands)) <$> d.commands [] := by
  cases written : d.commands [] with
  | error e => rfl
  | ok w =>
    have nothing : Scope.Within [] [] := by
      intro x hx
      cases hx
    have contributes := (Delta.adds_commands written nothing).1.contributes
    exact congrArg Except.ok (Script.content_of_contributes contributes)

namespace Session

/-- A direct program written at once and written as the first fragment of a session: both
succeed or both fail with the same error, and the fragment has the lines of the script
without its header and its headings. -/
theorem fragment_eq_program {p : Program} (direct : p.Direct) (c : Config) :
    (fun r => Script.lines r.1) <$> start.fragment c.capabilities p.delta =
      Script.content <$> Script.ofProgram c p := by
  rw [fragment, Script.ofProgram, Features.check_delta direct]
  simp only [map_bind]
  refine bind_congr fun _ => ?_
  have written := (Script.content_body direct c (Features.ofProgram p)).trans
    p.delta.content_commands
  calc
    _ = ((fun w => Script.lines (.ofCommands w.commands)) <$> p.delta.commands []).mapError
          QueryError.emission := by
      rw [start]
      cases p.delta.commands [] <;> rfl
    _ = (Script.content <$> Script.body c p (Features.ofProgram p)).mapError
          QueryError.emission := by rw [written]
    _ = _ := by cases Script.body c p (Features.ofProgram p) <;> rfl

/-- Two inputs, a constant, a table, an array with a default, a function and a sum. -/
def pieces : Program where
  sorts := [⟨"Color", some ["Red", "Green"]⟩]
  inputs := [⟨.exist, ⟨⟨0⟩, "x", .integer⟩⟩, ⟨.exist, ⟨⟨1⟩, "y", .integer⟩⟩]
  constants := [(⟨2⟩, .ofInteger 5)]
  tables := [⟨0, .integer, .integer, [⟨0⟩, ⟨2⟩]⟩]
  arrays := [⟨0, "a", .integer, .integer, some ⟨2⟩⟩]
  functions := [⟨"f", [.integer], .integer⟩]
  assumptions := []
  assignments := [⟨⟨3⟩, .integer, .plus, [⟨0⟩, ⟨1⟩]⟩, ⟨⟨4⟩, .bool, .less, [⟨3⟩, ⟨2⟩]⟩]
  constraints := []
  output := ⟨4⟩
  polarity := .satisfy
  objectives := []
  style := .lexicographic

/-- These can be written, in the same lines at once and as a fragment. -/
theorem fragment_eq_program_pieces :
    pieces.Direct ∧
      (∃ r, start.fragment Config.standard.capabilities pieces.delta = .ok r) ∧
      (fun r => Script.lines r.1) <$> start.fragment Config.standard.capabilities pieces.delta =
        Script.content <$> Script.ofProgram .standard pieces := by
  have direct : pieces.Direct :=
    ⟨rfl, by decide, rfl, rfl, by decide⟩
  exact ⟨direct, ⟨_, rfl⟩, fragment_eq_program direct .standard⟩

end Session

end SmtDialogue
