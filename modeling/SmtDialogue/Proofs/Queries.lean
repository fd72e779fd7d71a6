import SmtDialogue.Proofs.Applications
import SmtDialogue.Proofs.Contents

/-!
# Queries are expressions

The text of a query reads as one application for each command, headed by the name of the
command, with the expressions of the user's lines in their place. This asks of what the
user chose that it is legible; names in comments, strings and characters may be anything.
-/

namespace SmtDialogue

/-- The user's lines read as these expressions. -/
def Assumption.Reads (a : Assumption) (es : List SExpr) : Prop :=
  SExpr.parseAll (String.intercalate "\n" a.lines) = .ok es

namespace Script

/-- No line is one of the user's or names such lines. -/
def Plain (s : Script) : Prop :=
  ∀ line ∈ s, match line with
    | .banner | .command _ => True
    | .heading title => '\n' ∉ title.toList
    | .assumption _ | .verbatim _ => False

namespace Plain

variable {s t : Script}

theorem append (first : Plain s) (second : Plain t) : Plain (s ++ t) :=
  List.forall_mem_append.mpr ⟨first, second⟩

theorem ofCommands (cs : List Command) : Plain (ofCommands cs) := by
  intro line member
  obtain ⟨c, _, rfl⟩ := List.mem_map.mp member
  trivial

theorem heading {title : String} (line : '\n' ∉ title.toList) : Plain [.heading title] := by
  simpa [Plain] using line

theorem underHeading {title : String} (line : '\n' ∉ title.toList) (plain : Plain s) :
    Plain (underHeading title s) := by
  rw [Script.underHeading]
  split
  · simp [Plain]
  · exact (heading line).append plain

theorem header (c : Config) (p : Program) (f : Features) : Plain (header c p f) :=
  append (by simp [Plain]) (ofCommands _)

theorem front {p : Program} (parts : Parts p) (c : Config) (f : Features) :
    Plain (parts.front c f) := by
  have part : ∀ (title : String) (cs : List Command), '\n' ∉ title.toList →
      Plain (Script.underHeading title (Script.ofCommands cs)) :=
    fun _ cs line => underHeading line (ofCommands cs)
  have sorts := part "uninterpreted sorts" (p.sorts.map SortDecl.command) (by simp)
  have constants := part "constants" (p.constants.map fun k => constantCommand k.1 k.2) (by simp)
  have arrays := part "tables and arrays" (p.tables.map Table.command ++ parts.arrays) (by simp)
  have functions := part "uninterpreted functions" (p.functions.map FunctionDecl.command) (by simp)
  have title : Plain [.heading "top level inputs"] := heading (by simp)
  have inputs := (((header c p f).append sorts).append title).append
    (ofCommands (opening p).commands)
  exact ((inputs.append constants).append arrays).append functions

theorem back {p : Program} (parts : Parts p) : Plain parts.back := by
  have formula : Plain (if p.assignments.isEmpty then [] else [.heading "formula"]) := by
    split
    · simp [Plain]
    · exact heading (by simp)
  have objectives : Plain (if p.style = .independent then []
      else Script.underHeading "optimization"
        (Script.ofCommands (p.objectives.map Objective.command))) := by
    split
    · simp [Plain]
    · exact underHeading (by simp) (ofCommands _)
  exact (((formula.append (ofCommands _)).append (ofCommands _)).append (ofCommands _)).append
    objectives

end Plain

/-- The script is these expressions, whatever stands below it. -/
def Reads (s : Script) (es : List SExpr) : Prop :=
  Lines (s.flatMap ScriptLine.lines) es

namespace Reads

variable {s t : Script} {es fs : List SExpr}

theorem append (first : Reads s es) (second : Reads t fs) : Reads (s ++ t) (es ++ fs) := by
  rw [Reads, List.flatMap_append]
  exact Lines.append first second

/-- A comment on a line of its own. -/
theorem comment {text : String} (start : text.toList.head? = some ';')
    (line : '\n' ∉ text.toList) : Lines [text] [] := by
  obtain ⟨note, written⟩ := List.head?_eq_some_iff.mp start
  rw [written, List.mem_cons, not_or] at line
  exact .of_complete (by simp) (by simpa [written] using Complete.comment line.2)

theorem command {c : Command} {e : SExpr} (complete : Complete c.text.toList [e]) :
    Lines c.lines [e] := by
  refine .of_complete (fun none => ?_) complete
  cases c with
  | declareSort _ constructors => cases constructors <;> cases none
  | _ => cases none

/-- Where no line is the user's, each command is one application. -/
theorem of_plain (plain : Plain s) (legible : ∀ c ∈ s.commands, c.IsLegible) :
    ∃ es, List.Forall₂ Command.Heads s.commands es ∧ Reads s es := by
  induction s with
  | nil => exact ⟨[], .nil, Lines.nil⟩
  | cons line rest ih =>
    obtain ⟨here, others⟩ := List.forall_mem_cons.mp plain
    cases line with
    | command c =>
      obtain ⟨first, later⟩ := List.forall_mem_cons.mp legible
      obtain ⟨e, head, complete⟩ := Command.exists_complete first
      obtain ⟨es, heads, reads⟩ := ih others later
      exact ⟨e :: es, .cons head heads, Lines.append (command complete) reads⟩
    | banner =>
      obtain ⟨es, heads, reads⟩ := ih others legible
      exact ⟨es, heads, Lines.append (comment rfl (by decide)) reads⟩
    | heading title =>
      obtain ⟨es, heads, reads⟩ := ih others legible
      have above : Lines ["; --- " ++ title ++ " ---"] [] :=
        comment (by simp) (by simpa using here)
      exact ⟨es, heads, Lines.append above reads⟩
    | assumption | verbatim => exact here.elim

/-- The user's lines below the comment with their name. -/
theorem assumptionLines {a : Assumption} (read : a.Reads es) : Reads (assumptionLines a) es := by
  have title : Lines ["; -- axiom " ++ Literal.string a.name] [] :=
    comment (by simp) (by simpa using newline_notMem_string a.name)
  have lines : Lines a.lines es := by
    by_cases none : a.lines = []
    · rw [Assumption.Reads, none] at read
      obtain rfl : [] = es := Except.ok.inj read
      exact none ▸ Lines.nil
    · exact .of_complete none (.of_parseAll read)
  have whole := Lines.append title lines
  simpa [Reads, Script.assumptionLines, ScriptLine.lines, List.flatMap_map] using whole

theorem assumptions {as : List Assumption} (each : ∀ a ∈ as, ∃ es, a.Reads es) :
    ∃ ess, List.Forall₂ Assumption.Reads as ess ∧
      Reads (as.flatMap Script.assumptionLines) ess.flatten := by
  induction as with
  | nil => exact ⟨[], .nil, Lines.nil⟩
  | cons a rest ih =>
    obtain ⟨⟨es, first⟩, others⟩ := List.forall_mem_cons.mp each
    obtain ⟨ess, later, reads⟩ := ih others
    exact ⟨es :: ess, .cons first later, (assumptionLines first).append reads⟩

end Reads

end Script

/-- What the user chose to be written outside strings and comments: names and options are
simple, labels and groups have no bars, and the user's lines can be read. -/
structure Program.IsLegible (c : Config) (p : Program) : Prop where
  logic : ∀ logic, c.logic = some logic → IsSimple logic
  options : ∀ o ∈ c.options, IsSimple (Command.optionName o.1) ∧ IsSimple o.2
  words : ∀ w ∈ p.words, w.2.IsLegible
  declared : ∀ k ∈ Features.declaredKinds p.sorts p.tables p.arrays p.functions, k.IsLegible
  constructors : ∀ s ∈ p.sorts, ∀ labels, s.constructors = some labels →
    ∀ label ∈ labels, '|' ∉ label.toList
  labels : ∀ k ∈ p.constants, k.2.IsLegible
  functions : ∀ f ∈ p.functions, IsSimple f.name
  applied : ∀ a ∈ p.assignments, ∀ name, a.op = .function name → IsSimple name
  groups : ∀ o ∈ p.objectives, ∀ weight group, o.goal = .soft weight (some group) →
    '|' ∉ group.toList
  assumptions : ∀ a ∈ p.assumptions, ∃ es, a.Reads es

theorem isLegible_of_ofPayload {kind : Kind} {i : Int} {v : Value}
    (made : Value.ofPayload kind (.integer i) = .ok v) : v.IsLegible := by
  obtain ⟨-, normal⟩ := Value.ofPayload_eq_ok.mp made
  intro index label same
  rw [same] at normal
  cases kind <;> simp [Payload.normalize?] at normal

namespace Script

variable {c : Config} {p : Program}

theorem isSimple_natural (n : Nat) : IsSimple (toString n) :=
  .inr (by simpa using Numeral.isDigits_toDigits n)

theorem isLegible_word (id : WordId) : (Term.word id).IsLegible := by
  simp [Term.word, Term.IsLegible, Name.IsLegible]

theorem isLegible_goalTerm (p : Program) : (goalTerm p).IsLegible := by
  rw [goalTerm]
  split
  · exact isLegible_word p.output
  · exact Term.isLegible_call (by decide) (by simpa using isLegible_word p.output)

theorem isLegible_conjunction (p : Program) : (conjunction p).IsLegible := by
  have all : ∀ t ∈ p.constraints.map Term.word ++ [goalTerm p], t.IsLegible := by
    simpa [or_imp, forall_and] using ⟨fun id _ => isLegible_word id, isLegible_goalTerm p⟩
  rw [conjunction]
  split
  · exact isLegible_goalTerm p
  · exact Term.isLegible_call (by decide) all

theorem Assignment.isLegible_term (legible : p.IsLegible c) {a : Assignment}
    (listed : a ∈ p.assignments) {scope : Scope} {t : Term} (written : a.term scope = .ok t) :
    t.IsLegible := by
  obtain ⟨operands, _, _, built⟩ := Assignment.term_eq_ok written
  have words : ∀ a ∈ operands.map (fun o => Term.word o.1), ∃ id, a = Term.word id :=
    List.forall_mem_map.mpr fun o _ => ⟨o.1, rfl⟩
  refine (Op.form_term built).isLegible (fun a ha => ?_) (fun a ha => ?_) ?_
  · obtain ⟨id, rfl⟩ := words a ha
    exact ⟨.word id, rfl⟩
  · obtain ⟨id, rfl⟩ := words a ha
    exact isLegible_word id
  · intro n named
    cases n with
    | function name => exact legible.applied a listed name (Op.eq_function named)
    | _ => trivial

theorem Binds.isLegible (legible : p.IsLegible c) {b : WordId × Term} (bound : Binds p b) :
    b.2.IsLegible := by
  cases bound with
  | assignment listed written => exact Assignment.isLegible_term legible listed written
  | @skolem s _ =>
    have args : ∀ t ∈ s.2.map Term.word, t.IsLegible := by
      simpa using fun id _ => isLegible_word id
    rw [skolemBinding, Term.IsLegible]
    refine ⟨trivial, fun _ _ => ?_, Term.isLegibleAll_iff.mpr args⟩
    simp [Term.word]

theorem Runs.isLegible (legible : p.IsLegible c) {command : Command}
    (form : Runs c p command) : command.IsLegible := by
  cases form with
  | @objective o listed =>
    have groups := legible.groups o listed
    rw [Objective.command]
    split
    · trivial
    · trivial
    · next weight group goal =>
      rintro g rfl
      exact groups weight g goal
  | _ => trivial

theorem isSimple_inferLogic (p : Program) (f : Features) : IsSimple (inferLogic p f) := by
  rw [inferLogic]
  split
  · split <;> exact .inl (by decide)
  · exact .inl (by decide)

theorem isSimple_priority (style : Style) : IsSimple (priority style) := by
  cases style <;> exact .inl (show Literal.isSimpleSymbol _ = true by rw [priority]; decide)

theorem Writes.isLegible (legible : p.IsLegible c) {command : Command}
    (form : Writes c p command) : command.IsLegible := by
  have words := legible.words
  simp only [Program.words, List.mem_append, List.mem_map] at words
  have inputs : ∀ i ∈ p.inputs, i.var.kind.IsLegible :=
    fun i hi => words _ (.inl (.inl ⟨i, hi, rfl⟩))
  have universals : ∀ x ∈ universalsOf p.quantifier p.inputs, x.kind.IsLegible := by
    intro x hx
    obtain ⟨i, hi, _, rfl⟩ := (mem_universalsOf p.quantifier).mp hx
    exact inputs i hi
  have declared := legible.declared
  simp only [Features.declaredKinds, List.mem_append, List.mem_map, List.mem_flatMap] at declared
  cases form with
  | models => exact ⟨.inl (by decide), .inl (by decide)⟩
  | timeout ms => exact ⟨.inl (by decide), isSimple_natural ms⟩
  | option listed => exact legible.options _ listed
  | priority => exact ⟨.inl (by decide), isSimple_priority p.style⟩
  | logic =>
    cases set : c.logic with
    | none => exact isSimple_inferLogic p _
    | some logic => exact legible.logic logic set
  | @sort s listed =>
    have named : s.kind.IsLegible := declared _ (.inl (.inl (.inl ⟨s, listed, rfl⟩)))
    exact ⟨named, legible.constructors s listed⟩
  | input listed => exact ⟨trivial, by simp, inputs _ listed⟩
  | skolem listed known =>
    refine ⟨trivial, ?_, inputs _ listed⟩
    intro a ha
    obtain ⟨u, hu, rfl⟩ := List.mem_map.mp ha
    exact universals u (known u hu)
  | @constant k listed =>
    have kind : k.2.kind.IsLegible := words _ (.inl (.inr ⟨k, listed, rfl⟩))
    exact ⟨trivial, kind, by simpa [Term.IsLegible] using legible.labels k listed⟩
  | @table t listed =>
    have kinds : ∀ k ∈ [t.index, t.elem], k.IsLegible :=
      fun k hk => declared k (.inl (.inl (.inr ⟨t, listed, hk⟩)))
    exact ⟨trivial, by simp, by simpa [NameSort.IsLegible] using kinds⟩
  | @array a listed scope _ written =>
    have kinds : ∀ k ∈ [a.index, a.elem], k.IsLegible :=
      fun k hk => declared k (.inl (.inr ⟨a, listed, hk⟩))
    have sort : (NameSort.array a.index a.elem).IsLegible := by
      simpa [NameSort.IsLegible] using kinds
    obtain rfl | ⟨_, _, rfl⟩ := ArrayDecl.command_eq_ok written
    · exact ⟨trivial, by simp, sort⟩
    · refine ⟨trivial, sort, ?_⟩
      rw [Term.IsLegible]
      exact ⟨sort, Operator.accepts_of_ne (by simp) _,
        Term.isLegibleAll_iff.mpr (by simpa using isLegible_word _)⟩
  | @function d listed =>
    have kinds : ∀ k ∈ d.args ++ [d.result], k.IsLegible :=
      fun k hk => declared k (.inr ⟨d, listed, List.mem_append.mp hk⟩)
    obtain ⟨args, result⟩ := List.forall_mem_append.mp kinds
    refine ⟨legible.functions d listed, ?_, result _ (List.mem_singleton_self _)⟩
    intro a ha
    obtain ⟨k, hk, rfl⟩ := List.mem_map.mp ha
    exact args k hk
  | @definition a listed _ _ written =>
    have kind : a.kind.IsLegible := words _ (.inr ⟨a, listed, rfl⟩)
    exact ⟨trivial, kind, Assignment.isLegible_term legible listed written⟩
  | @entry t _ _ _ _ _ written =>
    obtain ⟨_, index, made, rfl⟩ := Table.entryCommand_eq_ok written
    have place : (Term.literal index).IsLegible := by
      simpa [Term.IsLegible] using isLegible_of_ofPayload made
    have read := @Term.isLegible_call "select" (by decide) [.name (.table t.id), .literal index]
      (by simpa [Term.IsLegible, Name.IsLegible] using place)
    exact Term.isLegible_call (by decide) (by simpa using ⟨read, isLegible_word _⟩)
  | @constraint id _ => exact isLegible_word id
  | goal => exact isLegible_goalTerm p
  | quantified _ bound =>
    refine ⟨?_, fun b hb => (bound b hb).isLegible legible, isLegible_conjunction p⟩
    intro b hb
    obtain ⟨u, hu, rfl⟩ := List.mem_map.mp hb
    exact universals u hu
  | runs form => exact form.isLegible legible

/-- A heading stands above its lines, if there are any. -/
theorem exists_underHeading {title : String} (line : '\n' ∉ title.toList) (lines : Script) :
    ∃ above : Script, above.Plain ∧ underHeading title lines = above ++ lines := by
  rw [underHeading]
  split
  · next none => exact ⟨[], by simp [Plain], by simp [List.isEmpty_iff.mp none]⟩
  · exact ⟨[.heading title], .heading line, rfl⟩

/-- The text of a query for a legible program reads as one application for each command,
with the expressions of the user's lines in their place. -/
theorem parseAll_query (legible : p.IsLegible c) {s : Script} (written : query c p = .ok s) :
    ∃ before after : Script, ∃ first last : List SExpr, ∃ between : List (List SExpr),
      s = before ++ p.assumptions.flatMap assumptionLines ++ after ∧
      before.Plain ∧ after.Plain ∧
      List.Forall₂ Command.Heads before.commands first ∧
      List.Forall₂ Assumption.Reads p.assumptions between ∧
      List.Forall₂ Command.Heads after.commands last ∧
      SExpr.parseAll s.text = .ok (first ++ between.flatten ++ last) := by
  have each : ∀ command ∈ s.commands, command.IsLegible :=
    fun command member => (writes_of_mem written command member).isLegible legible
  obtain ⟨_, script, built, same⟩ := query_eq_ok written
  obtain ⟨parts, _, whole, _⟩ := body_eq_ok built
  obtain ⟨above, plain, under⟩ := @exists_underHeading "user given axioms" (by decide)
    (p.assumptions.flatMap assumptionLines)
  have split : s = (parts.front c (Features.ofProgram p) ++ above) ++
      p.assumptions.flatMap assumptionLines ++ (parts.back ++ ofCommands (runs c p)) := by
    rw [same, whole, under]
    simp
  have plainBefore := (Plain.front parts c (Features.ofProgram p)).append plain
  have plainAfter := (Plain.back parts).append (.ofCommands (runs c p))
  rw [split, commands_append, commands_append, commands_assumptions, List.append_nil] at each
  obtain ⟨legibleBefore, legibleAfter⟩ := List.forall_mem_append.mp each
  obtain ⟨first, headsFirst, readFirst⟩ := Reads.of_plain plainBefore legibleBefore
  obtain ⟨between, readsBetween, readBetween⟩ := Reads.assumptions legible.assumptions
  obtain ⟨last, headsLast, readLast⟩ := Reads.of_plain plainAfter legibleAfter
  have read := ((readFirst.append readBetween).append readLast).parseAll
  rw [← split] at read
  exact ⟨_, _, first, last, between, split, plainBefore, plainAfter, headsFirst, readsBetween,
    headsLast, read⟩

/-- A program whose names and strings hold what ends comments, strings and groups, with
words bound inside a quantifier and lines of the user. -/
def awkward : Program where
  polarity := .satisfy
  sorts := [⟨"Color", some ["red", "light blue)"]⟩]
  inputs := [⟨.exist, ⟨⟨0⟩, "a\n|b\"", .string⟩⟩, ⟨.all, ⟨⟨1⟩, "y", .word 8⟩⟩,
    ⟨.exist, ⟨⟨2⟩, "z) ;", .word 8⟩⟩]
  constants := [(⟨3⟩, ⟨.string, .string "\"; |\n(", rfl⟩)]
  tables := []
  arrays := [⟨0, "places\n", .word 8, .string, some ⟨3⟩⟩]
  functions := []
  assumptions := [⟨"odd\nname", ["(assert ; (", " (= s0 |s0|))", "(push 1)"]⟩]
  assignments := [⟨⟨4⟩, .bool, .equal, [⟨0⟩, ⟨3⟩]⟩, ⟨⟨5⟩, .bool, .less, [⟨1⟩, ⟨2⟩]⟩,
    ⟨⟨6⟩, .bool, .and, [⟨4⟩, ⟨5⟩]⟩]
  constraints := [⟨5⟩]
  output := ⟨6⟩
  objectives := []
  style := .lexicographic

theorem isLegible_awkward : awkward.IsLegible .standard where
  logic := by simp [Config.standard]
  options := by simp [Config.standard]
  words := by simp [awkward, Program.words, Kind.IsLegible]
  declared := by
    have color : IsSimple "Color" := .inl (by decide)
    simpa [awkward, Features.declaredKinds, SortDecl.kind, Kind.IsLegible] using color
  constructors := by simp [awkward]
  labels := by simp [awkward, Value.IsLegible]
  functions := by simp [awkward]
  applied := by simp [awkward]
  groups := by simp [awkward]
  assumptions := by
    have read : SExpr.parseAll "(assert ; (\n (= s0 |s0|))\n(push 1)" =
        .ok [.app [.atom (.symbol "assert"),
          .app [.atom (.symbol "="), .atom (.symbol "s0"), .atom (.symbol "s0")]],
          .app [.atom (.symbol "push"), .atom (.int 1 none)]] := by
      decide +kernel
    simpa [awkward, Assumption.Reads] using ⟨_, read⟩

theorem parseAll_query_awkward :
    awkward.IsLegible .standard ∧ ∃ s, query .standard awkward = .ok s ∧
      ∃ before after : Script, ∃ first last : List SExpr, ∃ between : List (List SExpr),
        s = before ++ awkward.assumptions.flatMap assumptionLines ++ after ∧
        before.Plain ∧ after.Plain ∧
        List.Forall₂ Command.Heads before.commands first ∧
        List.Forall₂ Assumption.Reads awkward.assumptions between ∧
        List.Forall₂ Command.Heads after.commands last ∧
        SExpr.parseAll s.text = .ok (first ++ between.flatten ++ last) := by
  obtain ⟨s, written⟩ : ∃ s, query .standard awkward = .ok s := ⟨_, rfl⟩
  exact ⟨isLegible_awkward, s, written, parseAll_query isLegible_awkward written⟩

end Script

end SmtDialogue
