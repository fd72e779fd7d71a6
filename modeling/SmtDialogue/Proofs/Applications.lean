import SmtDialogue.Proofs.Legible
import SmtDialogue.Proofs.LineByLine
import SmtDialogue.Script.Command

/-!
# Commands as applications

The text of a command reads as one application headed by the name of the command, when
the names in it are simple and its labels hold no bar. Strings and the names in comments
may be anything: they stay on the line. The quantified assertion opens one parenthesis
for each word it binds and closes them behind its body.
-/

namespace SmtDialogue

open SExpr (named)

namespace Command

/-- The name that the text of a command starts with. -/
def name : Command → String
  | .setOption _ _ => "set-option"
  | .setLogic _ => "set-logic"
  | .declareSort _ none => "declare-sort"
  | .declareSort _ (some _) => "declare-datatypes"
  | .declare _ _ _ _ => "declare-fun"
  | .define _ _ _ _ => "define-fun"
  | .assert _ | .assertForall _ _ _ => "assert"
  | .minimize _ => "minimize"
  | .maximize _ => "maximize"
  | .assertSoft _ _ _ => "assert-soft"
  | .checkSat => "check-sat"
  | .getModel => "get-model"
  | .getObjectives => "get-objectives"
  | .getValue _ => "get-value"
  | .echo _ => "echo"
  | .push _ => "push"
  | .pop _ => "pop"

/-- The expression is an application of this command. -/
def Heads (c : Command) (e : SExpr) : Prop :=
  ∃ args, e = .app (.atom (.symbol c.name) :: args)

/-- The name of an option behind the colons it may be given with. -/
def optionName (name : String) : String :=
  String.ofList (name.toList.dropWhile (· == ':'))

/-- Commands whose names are simple and whose labels and groups have no bars. -/
def IsLegible : Command → Prop
  | .setOption name value => IsSimple (optionName name) ∧ IsSimple value
  | .setLogic logic => IsSimple logic
  | .declareSort name constructors =>
    IsSimple name ∧ ∀ labels, constructors = some labels → ∀ l ∈ labels, '|' ∉ l.toList
  | .declare name args sort _ => name.IsLegible ∧ (∀ a ∈ args, a.IsLegible) ∧ sort.IsLegible
  | .define name sort body _ => name.IsLegible ∧ sort.IsLegible ∧ body.IsLegible
  | .assert t => t.IsLegible
  | .assertForall binders bindings body =>
    (∀ b ∈ binders, b.2.IsLegible) ∧ (∀ b ∈ bindings, b.2.IsLegible) ∧ body.IsLegible
  | .assertSoft _ _ group => ∀ g, group = some g → '|' ∉ g.toList
  | _ => True

end Command

/-- The text is an application of a command. -/
def Applies (c : Command) (cs : List Char) : Prop :=
  ∃ e, c.Heads e ∧ Phrase cs e

theorem Command.isBare_name (c : Command) : Spelling.IsBare c.name.toList := by
  unfold name
  split <;> decide

theorem Command.name_ne (c : Command) :
    ∀ operator ∈ ["-", "/", "_", "fp", "root-obj"], c.name ≠ operator := by
  unfold name
  split <;> decide

theorem applies_of_legible (c : Command) {texts : List String} (each : ∀ t ∈ texts, Legible t)
    {cs : List Char} (written : cs = '(' :: (spaced (c.name :: texts)).toList ++ [')']) :
    Applies c cs := by
  subst written
  have fits := SExpr.foldOverflows_symbol (c.name_ne "fp" (by decide))
    (c.name_ne "root-obj" (by decide))
  have head := phrase_bare c.name c.isBare_name
  cases texts with
  | nil =>
    have whole := head.item.list (fits [])
    rw [named, SExpr.fold_symbol c.name_ne] at whole
    exact ⟨_, ⟨_, rfl⟩, by simpa [spaced] using whole⟩
  | cons t rest =>
    obtain ⟨es, items⟩ := itemized_spaced each
    have whole := (Phrases.cons head items).list (fits es)
    rw [named, SExpr.fold_symbol c.name_ne] at whole
    refine ⟨_, ⟨es, rfl⟩, ?_⟩
    simpa [spaced, String.intercalate_cons_cons] using whole

theorem mild_symbol {name : String} (bar : '|' ∉ name.toList) : Mild (Literal.symbol name) := by
  have phrase := Phrase.of_proper (Spelling.proper_symbol bar)
  rw [Spelling.chars_symbol, Spelling.tree_symbol] at phrase
  exact ⟨_, phrase, SExpr.isMild_symbol name⟩

theorem legible_string (s : String) : Legible (Literal.string s) :=
  .of_proper (s := Spelling.text s) trivial (Spelling.chars_text s)

/-- A keyword made of a simple name. -/
theorem legible_keyword {name : String} (simple : IsSimple name) : Legible (":" ++ name) := by
  obtain ⟨_, inside⟩ := simple.inside
  have word : Spelling.Unquoted (":" ++ name).toList := by
    refine ⟨by simp, by simp, ?_⟩
    rw [String.toList_append]
    refine List.forall_mem_append.mpr ⟨?_, fun c hc => (inside c hc).1⟩
    simp [Lexeme.endsWord, Text.isAsciiBlank]
  have hash : (":" ++ name).toList.head? ≠ some '#' := by simp
  exact ⟨_, .word word (Token.ofWord_of_ne_hash hash)⟩

/-- Strings are written on one line. -/
theorem newline_notMem_string (s : String) : '\n' ∉ (Literal.string s).toList := by
  have each : ∀ c : Char, '\n' ∉ Literal.stringChar c := by
    intro c member
    simp only [Literal.stringChar] at member
    split at member
    · simp at member
    · split at member
      · next plain =>
        rw [← List.mem_singleton.mp member] at plain
        exact absurd plain (by decide)
      · have digits : '\n' ∉ Text.hexCode c := by
          intro digit
          obtain ⟨ds, read, _⟩ :=
            Numeral.mapM_digit?_toDigits (show 1 < 16 by decide) (by decide) c.toNat
          obtain ⟨d, hd⟩ := Numeral.exists_digit_of_mem read digit
          exact Numeral.ne_of_digit? hd (by decide) rfl
        simp [digits] at member
  simp [Literal.string, each]

/-- A remark is nothing or a comment on the same line. -/
theorem Remark.toList_text (r : Remark) :
    r.text.toList = [] ∨ ∃ note, r.text.toList = ' ' :: ';' :: note ∧ '\n' ∉ note := by
  have noted : ∀ label : String, '\n' ∉ label.toList → ∀ name, ∃ note,
      (" ;" ++ label ++ Literal.string name).toList = ' ' :: ';' :: note ∧ '\n' ∉ note := by
    intro label line name
    have none : '\n' ∉ (label ++ Literal.string name).toList := by
      rw [String.toList_append, List.mem_append, not_or]
      exact ⟨line, newline_notMem_string name⟩
    exact ⟨_, by simp, none⟩
  cases r with
  | none => exact .inl rfl
  | tracks name => exact .inr (noted " tracks user variable " (by simp) name)
  | skolemized name => exact .inr (noted " skolemized " (by simp) name)
  | array name => exact .inr (noted " array " (by simp) name)

namespace Applies

variable {c : Command} {cs : List Char}

theorem complete (applies : Applies c cs) : ∃ e, c.Heads e ∧ Complete cs [e] := by
  obtain ⟨e, heads, phrase⟩ := applies
  exact ⟨e, heads, phrase.complete⟩

theorem complete_remark (applies : Applies c cs) (r : Remark) :
    ∃ e, c.Heads e ∧ Complete (cs ++ r.text.toList) [e] := by
  obtain ⟨e, heads, phrase⟩ := applies
  rcases r.toList_text with none | ⟨note, same, line⟩
  · exact ⟨e, heads, by simpa [none] using phrase.complete⟩
  · exact ⟨e, heads, same ▸ phrase.complete_comment line⟩

end Applies

/-- The body of the quantified assertion inside the words it binds. -/
def chain (body : Term) : List (WordId × Term) → List Char
  | [] => body.text.toList
  | b :: rest =>
    '(' :: ("let ((" ++ b.1.text ++ " " ++ b.2.text ++ "))").toList ++ ['\n', ' ', ' '] ++
      chain body rest ++ [')']

/-- Each word opens one parenthesis that is closed behind the body. -/
theorem intercalate_chain (body : Term) (bindings : List (WordId × Term)) (tail : List Char) :
    List.intercalate ['\n'] (bindings.map (fun b => (Command.bindingText b).toList) ++
      [[' ', ' '] ++ body.text.toList ++ List.replicate bindings.length ')' ++ tail]) =
      [' ', ' '] ++ chain body bindings ++ tail := by
  induction bindings generalizing tail with
  | nil => simp [chain]
  | cons b rest ih =>
    have closing : List.replicate (b :: rest).length ')' ++ tail =
        List.replicate rest.length ')' ++ (')' :: tail) := by
      simp [List.replicate_succ']
    have others := ih (')' :: tail)
    rw [List.map_cons, List.cons_append, List.append_assoc, closing, ← List.append_assoc,
      List.intercalate_cons_of_ne_nil (by simp), others]
    simp [chain, Command.bindingText]

/-- A word and what stands behind it, between parentheses. -/
theorem enclosed_pair (id : WordId) {text : String} (legible : Legible text) :
    Enclosed ("(" ++ spaced [id.text, text] ++ ")") := by
  have others : ∀ t ∈ [text], Legible t := by simpa using legible
  exact (headed_spaced id.headed others).list (by simp)

theorem legible_chain {body : Term} (legible : body.IsLegible) {bindings : List (WordId × Term)}
    (each : ∀ b ∈ bindings, b.2.IsLegible) : Legible (String.ofList (chain body bindings)) := by
  induction bindings with
  | nil => simpa [chain] using Term.legible legible
  | cons b rest ih =>
    obtain ⟨first, others⟩ := List.forall_mem_cons.mp each
    have pair := enclosed_pair b.1 (Term.legible first)
    have bound : Enclosed ("(" ++ spaced ["(" ++ spaced [b.1.text, b.2.text] ++ ")"] ++ ")") :=
      enclosed_spaced (by simpa using pair.legible) (by simpa using pair.headed)
    have front := (@Headed.bare "let" (by decide) (by decide) (by decide)).spaced
      bound.legible.items
    have items := front.append gap_line (ih others).items
    exact (items.list (by simp [chain, spaced])).legible

namespace Command

open Term (legible)

theorem applies_assertForall {binders : List (WordId × Kind)} {bindings : List (WordId × Term)}
    {body : Term} (legible : (assertForall binders bindings body).IsLegible) :
    Applies (.assertForall binders bindings body)
      (assertForall binders bindings body).text.toList := by
  obtain ⟨kinds, terms, last⟩ := legible
  have pairs : ∀ t ∈ binders.map binderText, Enclosed t := by
    refine List.forall_mem_map.mpr fun b hb => ?_
    have pair := enclosed_pair b.1 (Kind.mild (kinds b hb)).legible
    simpa [binderText, spaced, String.append_assoc] using pair
  have bound : Enclosed ("(" ++ spaced (binders.map binderText) ++ ")") :=
    enclosed_spaced (fun t ht => (pairs t ht).legible)
      fun t ht => (pairs t (List.mem_of_mem_head? ht)).headed
  have front := (@Headed.bare "forall" (by decide) (by decide) (by decide)).spaced
    bound.legible.items
  have whole := front.append gap_line (legible_chain last terms).items
  have quantified : Enclosed ("(forall (" ++ spaced (binders.map binderText) ++ ")\n  " ++
      String.ofList (chain body bindings) ++ ")") := whole.list (by simp)
  have items : ∀ t ∈ ["(forall (" ++ spaced (binders.map binderText) ++ ")\n  " ++
      String.ofList (chain body bindings) ++ ")"], Legible t := by simpa using quantified.legible
  refine applies_of_legible _ items ?_
  have lines := intercalate_chain body bindings [')', ')']
  rw [text, Command.lines, String.toList_intercalate, List.cons_append, List.nil_append,
    List.cons_append, List.map_cons, List.intercalate_cons_of_ne_nil (by simp)]
  simpa [Command.name, spaced, Function.comp_def] using lines

theorem enclosed_constructorText {label : String} (bar : '|' ∉ label.toList) :
    Enclosed (constructorText label) := by
  have symbol : ∀ t ∈ [Literal.symbol label], Mild t := by simpa using mild_symbol bar
  simpa [constructorText, spaced] using enclosed_mild symbol

/-- The sort with its number of parameters and its constructors, each in two lists. -/
theorem legible_datatype {name : String} (simple : IsSimple name) {labels : List String}
    (bars : ∀ l ∈ labels, '|' ∉ l.toList) :
    ∀ t ∈ ["((" ++ name ++ " 0))", "((" ++ spaced (labels.map constructorText) ++ "))"],
      Legible t := by
  have sort : Enclosed ("(" ++ spaced [name, "0"] ++ ")") :=
    enclosed_mild (by simpa using ⟨simple.mild, Mild.natural 0⟩)
  have constructors : ∀ t ∈ labels.map constructorText, Enclosed t :=
    List.forall_mem_map.mpr fun l hl => enclosed_constructorText (bars l hl)
  have listed : Enclosed ("(" ++ spaced (labels.map constructorText) ++ ")") :=
    enclosed_spaced (fun t ht => (constructors t ht).legible)
      fun t ht => (constructors t (List.mem_of_mem_head? ht)).headed
  have sorts : Enclosed ("((" ++ name ++ " 0))") := sort.headed.list (by simp [spaced])
  have types : Enclosed ("((" ++ spaced (labels.map constructorText) ++ "))") :=
    listed.headed.list (by simp)
  simpa using ⟨sorts.legible, types.legible⟩

/-- A legible command is complete, and reads as one application of it. -/
theorem exists_complete {c : Command} (legible : c.IsLegible) :
    ∃ e, c.Heads e ∧ Complete c.text.toList [e] := by
  have written : ∀ {texts : List String}, (∀ t ∈ texts, Legible t) →
      c.text.toList = '(' :: (spaced (c.name :: texts)).toList ++ [')'] →
      ∃ e, c.Heads e ∧ Complete c.text.toList [e] :=
    fun each same => (applies_of_legible c each same).complete
  have remarked : ∀ {texts : List String} (r : Remark), (∀ t ∈ texts, Legible t) →
      c.text.toList = '(' :: (spaced (c.name :: texts)).toList ++ [')'] ++ r.text.toList →
      ∃ e, c.Heads e ∧ Complete c.text.toList [e] := by
    intro texts r each same
    rw [same]
    exact (applies_of_legible c each rfl).complete_remark r
  have numbered : ∀ n : Nat, ∀ t ∈ [toString n], Legible t := by simpa using Legible.natural
  cases c with
  | setOption name value =>
    have items : ∀ t ∈ [":" ++ optionName name, value], Legible t := by
      simpa using ⟨legible_keyword legible.1, legible.2.mild.legible⟩
    exact written items (by simp [text, lines, Command.name, spaced, optionName])
  | setLogic logic =>
    have items : ∀ t ∈ [logic], Legible t := by simpa using (IsSimple.mild legible).legible
    exact written items (by simp [text, lines, Command.name, spaced])
  | declareSort name constructors =>
    cases constructors with
    | none =>
      have items : ∀ t ∈ [name, "0"], Legible t := by
        simpa using ⟨legible.1.mild.legible, Legible.natural 0⟩
      exact written items (by simp [text, lines, Command.name, spaced])
    | some labels =>
      exact written (legible_datatype legible.1 (legible.2 labels rfl))
        (by simp [text, lines, Command.name, spaced])
  | declare name args sort remark =>
    have params : ∀ t ∈ args.map NameSort.text, Mild t :=
      List.forall_mem_map.mpr fun a ha => NameSort.mild (legible.2.1 a ha)
    have items : ∀ t ∈ [name.text, "(" ++ spaced (args.map NameSort.text) ++ ")", sort.text],
        Legible t := by
      simpa using ⟨(Name.mild legible.1).legible, (enclosed_mild params).legible,
        (NameSort.mild legible.2.2).legible⟩
    exact remarked remark items (by simp [text, lines, Command.name, spaced])
  | define name sort body remark =>
    have items : ∀ t ∈ [name.text, "()", sort.text, body.text], Legible t := by
      simpa using ⟨(Name.mild legible.1).legible, (@enclosed_mild [] (by simp)).legible,
        (NameSort.mild legible.2.1).legible, Term.legible legible.2.2⟩
    exact remarked remark items (by simp [text, lines, Command.name, spaced])
  | assert t =>
    have items : ∀ u ∈ [t.text], Legible u := by simpa using Term.legible legible
    exact written items (by simp [text, lines, Command.name, spaced])
  | assertForall binders bindings body => exact (applies_assertForall legible).complete
  | minimize id | maximize id =>
    have items : ∀ t ∈ [id.text], Legible t := by simpa using id.mild.legible
    exact written items (by simp [text, lines, Command.name, spaced])
  | assertSoft id weight group =>
    have weighed : ∀ t ∈ [id.text, ":" ++ "weight", toString weight], Legible t := by
      simpa using ⟨id.mild.legible, @legible_keyword "weight" (.inl (by decide)),
        Legible.natural weight⟩
    cases group with
    | none => exact written weighed (by simp [text, lines, Command.name, spaced])
    | some group =>
      have grouped : ∀ t ∈ [":" ++ "id", Literal.symbol group], Legible t := by
        simpa using ⟨@legible_keyword "id" (.inl (by decide)),
          (mild_symbol (legible group rfl)).legible⟩
      have items := List.forall_mem_append.mpr ⟨weighed, grouped⟩
      exact written items (by simp [text, lines, Command.name, spaced])
  | checkSat | getModel | getObjectives =>
    have items : ∀ t ∈ ([] : List String), Legible t := by simp
    exact written items (by simp [text, lines, Command.name, spaced])
  | getValue ids =>
    have words : ∀ t ∈ ids.map WordId.text, Mild t :=
      List.forall_mem_map.mpr fun id _ => id.mild
    have items : ∀ t ∈ ["(" ++ spaced (ids.map WordId.text) ++ ")"], Legible t := by
      simpa using (enclosed_mild words).legible
    exact written items (by simp [text, lines, Command.name, spaced])
  | echo message =>
    have items : ∀ t ∈ [Literal.string message], Legible t := by simpa using legible_string message
    exact written items (by simp [text, lines, Command.name, spaced])
  | push levels | pop levels =>
    exact written (numbered levels) (by simp [text, lines, Command.name, spaced])

end Command

end SmtDialogue
