import SmtDialogue.Proofs.Closed
import SmtDialogue.Proofs.Grammar
import SmtDialogue.Proofs.Phrasing
import SmtDialogue.Proofs.Queries

/-!
# Names that are written as they are

Whatever stands in a text, a symbol that is read from it is a word that reads alone, or it
stands between bars. The names of sorts and functions are written without bars, so those that
do not read alone are lost. In a command in which all of them do, every name the user chose
is read in its place.
-/

namespace SmtDialogue

/-- What the characters before it tell of a mode: a word has begun well, and a quoted symbol
stands behind its bar. -/
def LexMode.Behind (before : List Char) : LexMode → Prop
  | .word _ contents => Spelling.Unquoted contents.reverse
  | .quotedSymbol _ contents => ∃ front, before = front ++ '|' :: contents.reverse
  | _ => True

/-- The name between bars. -/
def barred (name : String) : List Char :=
  '|' :: name.toList ++ ['|']

/-- The symbol is a word of its own, or it stands between bars. -/
def Token.Spelled (cs : List Char) (t : Token) : Prop :=
  ∀ name, t = .atom (.symbol name) → ReadsAlone name ∨ barred name <:+: cs

namespace Lexeme

variable {before : List Char}

theorem behind_begin (offset : Nat) (c : Char) :
    (begin offset c).2.Behind (before ++ [c]) ∧
      ∀ l ∈ (begin offset c).1, l.token.Spelled (before ++ [c]) := by
  have opening : ∀ cs, Token.opening.Spelled cs := by rintro cs name ⟨⟩
  have closing : ∀ cs, Token.closing.Spelled cs := by rintro cs name ⟨⟩
  unfold begin
  split_ifs with h₁ h₂ h₃ h₄ h₅ h₆
  case neg =>
    have inside : endsWord c = false := by simp_all [endsWord]
    exact ⟨⟨by simp, by simpa using h₆, by simpa using inside⟩, by simp⟩
  all_goals simp [LexMode.Behind, *]

theorem spelled_ofWord {start : Nat} {contents : List Char}
    (unquoted : Spelling.Unquoted contents.reverse) (cs : List Char) :
    (ofWord start contents).token.Spelled cs := by
  intro name token
  obtain ⟨same, reads⟩ := Token.symbol_of_ofWord token
  rw [← same] at unquoted reads
  exact .inl (Phrase.word unquoted reads).parse

theorem behind_step {mode : LexMode} (behind : mode.Behind before) (offset : Nat) (c : Char) :
    (step offset mode c).2.Behind (before ++ [c]) ∧
      ∀ l ∈ (step offset mode c).1, l.token.Spelled (before ++ [c]) := by
  obtain ⟨begins, none⟩ := @behind_begin before offset c
  have string : ∀ start contents, (ofString start contents).token.Spelled (before ++ [c]) := by
    rintro start contents name ⟨⟩
  cases mode with
  | blank => exact ⟨begins, none⟩
  | comment =>
    simp only [step]
    split <;> simp [LexMode.Behind]
  | string start mark contents =>
    simp only [step]
    split <;> simp [LexMode.Behind]
  | closingQuote start contents =>
    simp only [step]
    split
    · simp [LexMode.Behind]
    · exact ⟨begins, List.forall_mem_cons.mpr ⟨string start contents, none⟩⟩
  | quotedSymbol start contents =>
    obtain ⟨front, rfl⟩ := behind
    simp only [step]
    split
    · next bar =>
      refine ⟨trivial, ?_⟩
      simp only [List.mem_singleton, forall_eq]
      rintro name ⟨⟩
      exact .inr ⟨front, [], by simp [barred, bar]⟩
    · exact ⟨⟨front, by simp⟩, by simp⟩
  | word start contents =>
    simp only [step]
    split
    · exact ⟨begins, List.forall_mem_cons.mpr ⟨spelled_ofWord behind _, none⟩⟩
    · next inside =>
      refine ⟨⟨by simp, ?_, ?_⟩, by simp⟩
      · rw [List.reverse_cons, List.head?_append_of_ne_nil _ behind.nonempty]
        exact behind.bar
      · rw [List.reverse_cons]
        exact List.forall_mem_append.mpr ⟨behind.inside, by simpa using inside⟩

theorem spelled_finish {mode : LexMode} (behind : mode.Behind before) :
    ∀ l ∈ finish mode, l.token.Spelled before := by
  cases mode with
  | word start contents => simpa [finish] using spelled_ofWord behind before
  | closingQuote start contents => simp [finish, ofString, Token.Spelled]
  | _ => simp [finish, Token.Spelled]

/-- Every symbol of a text is spelled in it, as a word or between bars. -/
theorem spelled_scan {mode : LexMode} (behind : mode.Behind before) (offset : Nat)
    (cs : List Char) : ∀ l ∈ scan offset mode cs, l.token.Spelled (before ++ cs) := by
  induction cs generalizing offset mode before with
  | nil => simpa [scan] using spelled_finish behind
  | cons c cs ih =>
    obtain ⟨next, here⟩ := behind_step behind offset c
    intro l member
    rcases List.mem_append.mp member with first | later
    · intro name token
      refine (here l first name token).imp_right fun inside => ?_
      exact inside.trans ⟨[], cs, by simp⟩
    · simpa using ih next _ l later

end Lexeme

/-- A symbol that is read is a word that reads alone, or it stands between bars. -/
theorem SExpr.symbol_of_parseAll {text : String} {es : List SExpr}
    (read : parseAll text = .ok es) {name : String} (member : .symbol name ∈ atomsList es) :
    ReadsAlone name ∨ barred name <:+: text.toList := by
  cases (reads_of_parseAll read).origin member with
  | @lexeme l among token =>
    exact @Lexeme.spelled_scan [] .blank trivial 0 text.toList l among name token
  | @folded items _ folds =>
    rcases fold_cases items with stays | ⟨a, value, isValue⟩
    · rw [stays] at folds
      cases folds
    · rw [value] at folds
      cases folds
      exact absurd isValue id

namespace Command

variable {c : Command} {e : SExpr}

/-- A command in which every name of a sort or a function reads alone reads as its tree. -/
theorem parseAll_text (whole : c.tree? = some e) (sound : c.IsSound)
    (alone : ∀ name ∈ c.rawNames, ReadsAlone name) (minus : ¬c.IsMinus) :
    SExpr.parseAll c.text = .ok [e] := by
  obtain ⟨cs, note, same, phrase⟩ := exists_phrase whole sound alone minus
  rw [SExpr.parseAll_eq_ok, same]
  rcases note.toList_text with none | ⟨rest, noted, line⟩
  · obtain ⟨ts, cut, read⟩ := phrase.cut_append Spelling.ends_nil
    rw [none, cut]
    simpa [Lexeme.cut_nil, Lexeme.finish] using read
  · obtain ⟨ts, cut, read⟩ := phrase.cut_append (Spelling.ends_blank (';' :: rest))
    have blank : Lexeme.cut .blank (' ' :: ';' :: rest) = [] := by
      rw [Lexeme.cut_cons]
      simpa [Lexeme.step, Lexeme.begin, Text.isAsciiBlank] using Group.cut_comment line
    rw [noted, cut, blank, List.append_nil]
    exact read

/-- The entry of an enumerated sort called `-` is read as a number. -/
theorem parseAll_ne_of_isMinus (whole : c.tree? = some e) (sound : c.IsSound) (minus : c.IsMinus) :
    SExpr.parseAll c.text ≠ .ok [e] := by
  obtain ⟨labels, rfl⟩ := minus
  cases whole
  have alone : ReadsAlone "-" := .of_isBare (by decide)
  have read := SExpr.parseAll_of_parse (phrase_datatype alone (sound labels rfl)).parse
  have number : SExpr.fold [SExpr.named "-", SExpr.numeral 0] = .atom (.int 0 none) := rfl
  intro same
  have entry : SExpr.fold [SExpr.atom (.int 0 none)] = .app [.atom (.int 0 none)] := rfl
  rw [read, number, entry] at same
  simp [SExpr.named] at same

/-- Where no name of a sort or a function stands between bars, a command reads as its tree
exactly when each of these names reads alone. -/
theorem parseAll_text_iff (whole : c.tree? = some e) (sound : c.IsSound)
    (apart : ∀ name ∈ c.rawNames, ¬barred name <:+: c.text.toList) :
    SExpr.parseAll c.text = .ok [e] ↔ (∀ name ∈ c.rawNames, ReadsAlone name) ∧ ¬c.IsMinus := by
  constructor
  · intro read
    refine ⟨fun name listed => ?_, fun minus => parseAll_ne_of_isMinus whole sound minus read⟩
    have placed : .symbol name ∈ SExpr.atomsList [e] :=
      SExpr.mem_atomsList.mpr ⟨e, List.mem_singleton_self e, mem_tree whole listed⟩
    exact (SExpr.symbol_of_parseAll read placed).resolve_right (apart name listed)
  · rintro ⟨alone, minus⟩
    exact parseAll_text whole sound alone minus

end Command

namespace Term

open SExpr (IsInert named)

theorem isMild_items (operator : Operator) : ∀ e ∈ operator.items, e.IsMild := by
  cases operator with
  | extract high low =>
    exact List.forall_mem_singleton.mpr (@SExpr.isMild_app "_" (by decide) _)
  | everywhere sort =>
    exact List.forall_mem_singleton.mpr (@SExpr.isMild_app "as" (by decide) _)
  | _ => simp [Operator.items, Name.tree, named]

theorem isInert_items (operator : Operator) : ∀ e ∈ operator.items, e.IsInert := by
  cases operator <;> simp [Operator.items, Name.tree]

/-- An application to names is sound. -/
theorem isSound_names {operator : Operator} (sound : operator.IsSound) {args : List Term}
    (names : ∀ a ∈ args, ∃ n, a = .name n) : (Term.apply operator args).IsSound := by
  have each : ∀ a ∈ args, a.IsSound := by
    intro a ha
    obtain ⟨n, rfl⟩ := names a ha
    simp [IsSound]
  have trees : ∀ e ∈ treeAll args, ∃ name, e = named name := by
    rw [treeAll_eq_map]
    refine List.forall_mem_map.mpr fun a ha => ?_
    obtain ⟨n, rfl⟩ := names a ha
    exact ⟨n.text, by rw [tree, Name.tree]⟩
  have inert : ∀ e ∈ operator.items ++ treeAll args, e.IsInert := by
    refine List.forall_mem_append.mpr ⟨isInert_items operator, fun e he => ?_⟩
    obtain ⟨name, rfl⟩ := trees e he
    exact SExpr.isInert_named name
  have mild : ∀ e ∈ operator.items ++ treeAll args, e.IsMild := by
    refine List.forall_mem_append.mpr ⟨isMild_items operator, fun e he => ?_⟩
    obtain ⟨name, rfl⟩ := trees e he
    exact SExpr.isMild_symbol name
  rw [IsSound]
  exact ⟨sound, isSoundAll_iff.mpr each, SExpr.fold_of_inert inert,
    SExpr.foldOverflows_of_mild mild⟩

theorem isSound_builtIn {name : String} (listed : name ∈ Op.builtIns) {args : List Term}
    (names : ∀ a ∈ args, ∃ n, a = .name n) : (call name args).IsSound :=
  isSound_names (show Operator.IsSound (.builtIn name) from
    ReadsAlone.of_isBare (isBare_builtIns name listed)) names

theorem isSound_rounded {name : String} (listed : name ∈ Op.builtIns) {args : List Term}
    (names : ∀ a ∈ args, ∃ n, a = .name n) : (apply (.rounded name) args).IsSound :=
  isSound_names (show Operator.IsSound (.rounded name) from
    ReadsAlone.of_isBare (isBare_builtIns name listed)) names

/-- A call of an operator that the reader knows no literals of is sound. -/
theorem isSound_call {name : String} (listed : name ∈ Op.builtIns)
    (other : ∀ operator ∈ ["-", "/", "_", "fp", "root-obj"], name ≠ operator) {args : List Term}
    (each : ∀ a ∈ args, a.IsSound) : (call name args).IsSound := by
  rw [call, IsSound]
  exact ⟨ReadsAlone.of_isBare (isBare_builtIns name listed), isSoundAll_iff.mpr each,
    SExpr.fold_named other _, SExpr.foldOverflows_named other _⟩

end Term

/-- The terms of operations on names are sound. -/
theorem Op.Form.isSound {op : Op} {args : List Term} {t : Term} (form : op.Form args t)
    (names : ∀ a ∈ args, ∃ n, a = .name n) : t.IsSound := by
  have operand : ∀ a ∈ args, a.IsSound := by
    intro a ha
    obtain ⟨n, rfl⟩ := names a ha
    simp [Term.IsSound]
  cases form with
  | operand member => exact operand _ member
  | name named => simp [Term.IsSound]
  | call listed used => exact Term.isSound_builtIn listed fun a ha => names a (used a ha)
  | rounded listed used => exact Term.isSound_rounded listed fun a ha => names a (used a ha)
  | extract high low => exact @Term.isSound_names (.extract high low) trivial _ names
  | @declared n named => exact @Term.isSound_names (.declared n) trivial _ names
  | @selected n named =>
    exact Term.isSound_builtIn (by decide) (List.forall_mem_cons.mpr ⟨⟨n, rfl⟩, names⟩)
  | unequal =>
    have equal : (Term.call "fp.eq" args).IsSound := Term.isSound_builtIn (by decide) names
    exact Term.isSound_call (by decide) (by decide) (by simpa using equal)
  | shifted listed member width i =>
    have shifts : ∀ name ∈ ["bvshl", "bvashr", "bvlshr"], name ∈ builtIns ∧
        ∀ operator ∈ ["-", "/", "_", "fp", "root-obj"], name ≠ operator := by decide
    obtain ⟨known, other⟩ := shifts _ listed
    have amount : (Term.literal (Value.ofWord width i)).IsSound := by
      simpa [Term.IsSound] using isLegible_ofWord width i
    exact Term.isSound_call known other (by simpa using ⟨operand _ member, amount⟩)
  | @magnitude less negate zero a ordered listed least member =>
    have orders : ∀ name ∈ ["bvslt", "<"], name ∈ builtIns ∧
        ∀ operator ∈ ["-", "/", "_", "fp", "root-obj"], name ≠ operator := by decide
    have negations : ∀ name ∈ ["bvneg", "-"], name ∈ builtIns := by decide
    obtain ⟨known, other⟩ := orders less ordered
    have literal : (Term.literal zero).IsSound := by
      rcases least with ⟨width, rfl⟩ | rfl
      · simpa [Term.IsSound] using isLegible_ofWord width 0
      · simp [Term.IsSound, Value.IsLegible, Value.ofReal]
    have below : (Term.call less [a, .literal zero]).IsSound :=
      Term.isSound_call known other (by simpa using ⟨operand a member, literal⟩)
    have negated : (Term.call negate [a]).IsSound :=
      Term.isSound_builtIn (negations negate listed) (by simpa using names a member)
    exact Term.isSound_call (by decide) (by decide)
      (by simpa using ⟨below, negated, operand a member⟩)

/-- What the user chose to be written as labels and groups holds no bar. -/
structure Program.Unbarred (p : Program) : Prop where
  constructors : ∀ s ∈ p.sorts, ∀ labels, s.constructors = some labels →
    ∀ label ∈ labels, '|' ∉ label.toList
  labels : ∀ k ∈ p.constants, k.2.IsLegible
  groups : ∀ o ∈ p.objectives, ∀ weight group, o.goal = .soft weight (some group) →
    '|' ∉ group.toList

namespace Script

variable {c : Config} {p : Program}

theorem isSound_word (id : WordId) : (Term.word id).IsSound := by
  simp [Term.word, Term.IsSound]

theorem isSound_goalTerm (p : Program) : (goalTerm p).IsSound := by
  rw [goalTerm]
  split
  · exact isSound_word p.output
  · exact Term.isSound_builtIn (by decide) (by simp [Term.word])

theorem isSound_conjunction (p : Program) : (conjunction p).IsSound := by
  rw [conjunction]
  split
  · exact isSound_goalTerm p
  · refine Term.isSound_call (by decide) (by decide) (List.forall_mem_append.mpr ⟨?_, ?_⟩)
    · simpa using fun id _ => isSound_word id
    · simpa using isSound_goalTerm p

theorem Assignment.isSound_term {a : Assignment} {scope : Scope} {t : Term}
    (written : a.term scope = .ok t) : t.IsSound := by
  obtain ⟨operands, _, _, built⟩ := Assignment.term_eq_ok written
  refine (Op.form_term built).isSound fun a ha => ?_
  obtain ⟨o, _, rfl⟩ := List.mem_map.mp ha
  exact ⟨.word o.1, rfl⟩

theorem Binds.isSound {b : WordId × Term} (bound : Binds p b) : b.2.IsSound := by
  cases bound with
  | assignment _ written => exact Assignment.isSound_term written
  | skolem => exact @Term.isSound_names (.declared _) trivial _ (by simp [Term.word])

/-- Every command of a query is sound. -/
theorem Writes.isSound (unbarred : p.Unbarred) {command : Command}
    (form : Writes c p command) : command.IsSound := by
  cases form with
  | sort listed => exact unbarred.constructors _ listed
  | constant listed =>
    simpa [constantCommand, Command.IsSound, Term.IsSound] using unbarred.labels _ listed
  | array listed written =>
    obtain rfl | ⟨_, _, rfl⟩ := ArrayDecl.command_eq_ok written
    · trivial
    · exact @Term.isSound_names (.everywhere _) trivial _ (by simp [Term.word])
  | definition _ written => exact Assignment.isSound_term written
  | @entry t _ _ _ _ _ written =>
    obtain ⟨_, index, made, rfl⟩ := Table.entryCommand_eq_ok written
    have place : (Term.literal index).IsSound := by
      simpa [Term.IsSound] using isLegible_of_ofPayload made
    have read := @Term.isSound_call "select" (by decide) (by decide)
      [.name (.table t.id), .literal index] (by simpa [Term.IsSound] using place)
    exact Term.isSound_call (by decide) (by decide) (by simpa using ⟨read, isSound_word _⟩)
  | @constraint id _ => exact isSound_word id
  | goal => exact isSound_goalTerm p
  | quantified _ bound => exact ⟨fun b hb => (bound b hb).isSound, isSound_conjunction p⟩
  | runs form =>
    cases form with
    | @objective o listed =>
      have groups := unbarred.groups o listed
      rw [Objective.command]
      split
      · trivial
      · trivial
      · next weight group goal =>
        rintro g rfl
        exact groups weight g goal
    | _ => trivial
  | _ => trivial

/-- Every command that is written for a program with labels and groups without bars reads as
its tree, in which every name the user chose is the symbol of that name, if each name of a sort
or a function in it reads alone and no enumerated sort is called `-`. Where no such name stands
between bars, as a label of the same command might, it reads as its tree only then: a name
that does not read alone is nowhere in what is read. -/
theorem parseAll_command_iff (unbarred : p.Unbarred) {s : Script}
    (written : ofProgram c p = .ok s) {command : Command}
    (listed : command ∈ s.commands ∨ command ∈ runs c p) {e : SExpr}
    (whole : command.tree? = some e) :
    ((∀ name ∈ command.rawNames, ReadsAlone name) ∧ ¬command.IsMinus →
      SExpr.parseAll command.text = .ok [e]) ∧
    ((∀ name ∈ command.rawNames, ¬barred name <:+: command.text.toList) →
      (SExpr.parseAll command.text = .ok [e] ↔
        (∀ name ∈ command.rawNames, ReadsAlone name) ∧ ¬command.IsMinus)) ∧
    ∀ name ∈ command.rawNames, ¬ReadsAlone name →
      ¬barred name <:+: command.text.toList →
        ∀ es, SExpr.parseAll command.text = .ok es → .symbol name ∉ SExpr.atomsList es := by
  have queried : query c p = .ok (s ++ ofCommands (runs c p)) := by
    rw [query, written]
    rfl
  have form := writes_of_mem queried command (by simpa [commands_append] using listed)
  have sound := form.isSound unbarred
  refine ⟨fun ⟨alone, minus⟩ => Command.parseAll_text whole sound alone minus,
    Command.parseAll_text_iff whole sound, fun name _ other apart es read placed => ?_⟩
  exact (SExpr.symbol_of_parseAll read placed).elim other apart

/-- An enumerated sort with a label that needs bars, and a function of it. -/
def painted : Program where
  polarity := .satisfy
  sorts := [⟨"Color", some ["red", "light blue"]⟩]
  inputs := [⟨.exist, ⟨⟨0⟩, "x", .sort "Color" (some ["red", "light blue"])⟩⟩]
  constants := []
  tables := []
  arrays := []
  functions := [⟨"shown?", [.sort "Color" (some ["red", "light blue"])], .bool⟩]
  assumptions := []
  assignments := [⟨⟨1⟩, .bool, .function "shown?", [⟨0⟩]⟩]
  constraints := []
  output := ⟨1⟩
  objectives := []
  style := .lexicographic

theorem unbarred_painted : painted.Unbarred where
  constructors := by simp [painted]
  labels := by simp [painted]
  groups := by simp [painted]

theorem parseAll_command_iff_painted :
    painted.Unbarred ∧ ∃ s, ofProgram .standard painted = .ok s ∧
      ∃ command ∈ s.commands, command.tree? = some (.app [.atom (.symbol "declare-datatypes"),
        .app [.app [.atom (.symbol "Color"), .atom (.int 0 none)]],
        .app [.app [.app [.atom (.symbol "red")], .app [.atom (.symbol "light blue")]]]]) ∧
        SExpr.parseAll command.text = .ok [.app [.atom (.symbol "declare-datatypes"),
          .app [.app [.atom (.symbol "Color"), .atom (.int 0 none)]],
          .app [.app [.app [.atom (.symbol "red")], .app [.atom (.symbol "light blue")]]]]] := by
  obtain ⟨s, written, placed⟩ : ∃ s, ofProgram .standard painted = .ok s ∧
      s.commands[2]? = some (.declareSort "Color" (some ["red", "light blue"])) := ⟨_, rfl, rfl⟩
  have listed := List.mem_of_getElem? placed
  have alone : ∀ name ∈ ["Color"], ReadsAlone name := by decide +kernel
  have minus : ¬(Command.declareSort "Color" (some ["red", "light blue"])).IsMinus := by
    rintro ⟨labels, same⟩
    simp at same
  refine ⟨unbarred_painted, s, written, _, listed, rfl, ?_⟩
  exact (parseAll_command_iff unbarred_painted written (.inl listed) rfl).1 ⟨alone, minus⟩

/-- A sort with a blank in its name. -/
def parted : Program where
  polarity := .satisfy
  sorts := [⟨"My Sort", none⟩]
  inputs := [⟨.exist, ⟨⟨0⟩, "x", .sort "My Sort" none⟩⟩, ⟨.exist, ⟨⟨1⟩, "b", .bool⟩⟩]
  constants := []
  tables := []
  arrays := []
  functions := []
  assumptions := []
  assignments := []
  constraints := []
  output := ⟨1⟩
  objectives := []
  style := .lexicographic

/-- The name of the sort is read as two symbols where it is declared. -/
theorem parseAll_command_parted :
    ∃ s, ofProgram .standard parted = .ok s ∧
      ∃ command ∈ s.commands, command = .declareSort "My Sort" none ∧
        SExpr.parseAll command.text = .ok [.app [.atom (.symbol "declare-sort"),
          .atom (.symbol "My"), .atom (.symbol "Sort"), .atom (.int 0 none)]] ∧
        command.tree? = some (.app [.atom (.symbol "declare-sort"),
          .atom (.symbol "My Sort"), .atom (.int 0 none)]) := by
  obtain ⟨s, written, placed⟩ : ∃ s, ofProgram .standard parted = .ok s ∧
      s.commands[2]? = some (.declareSort "My Sort" none) := ⟨_, rfl, rfl⟩
  exact ⟨s, written, _, List.mem_of_getElem? placed, rfl, by decide +kernel, rfl⟩

end Script

end SmtDialogue
