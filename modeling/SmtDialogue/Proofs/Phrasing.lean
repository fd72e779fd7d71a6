import SmtDialogue.Proofs.CommandTrees

/-!
# Texts that read as their trees

Where every name of a sort or a function, read alone, is its own symbol, the text of a
command is read as the tree of the command. Labels and groups may be anything without a bar.
One sort is an exception: the reader takes the entry of an enumerated sort called `-` for a
number.
-/

namespace SmtDialogue

open SExpr (fold named numeral)

variable {name : String}

namespace SExpr

/-- Neither a number nor another value: a symbol, a keyword or an application. -/
def IsInert : SExpr → Prop
  | .atom a => ¬a.IsValue
  | .app _ => True

theorem IsInert.int?_eq_none {e : SExpr} (inert : e.IsInert) : e.int? = none := by
  cases e with
  | app items => rfl
  | atom a => cases a <;> first | rfl | exact absurd trivial inert

theorem IsInert.natBelow?_eq_none {e : SExpr} (inert : e.IsInert) (bound : Nat) :
    natBelow? bound e = none := by
  rw [natBelow?, inert.int?_eq_none]

theorem IsInert.rational?_eq_none {e : SExpr} (inert : e.IsInert) : e.rational? = none := by
  cases e with
  | app items => rfl
  | atom a => cases a <;> first | rfl | exact absurd trivial inert

/-- No literal is made of arguments that are no values. -/
theorem literal?_of_inert (operator : String) {args : List SExpr}
    (inert : ∀ e ∈ args, e.IsInert) : literal? operator args = none := by
  have negated : negation? args = none := by
    unfold negation?
    split
    · exact absurd trivial (inert _ (List.mem_singleton_self _))
    · exact absurd trivial (inert _ (List.mem_singleton_self _))
    · rfl
  have divided : quotient? args = none := by
    unfold quotient?
    split
    · next n d => rw [(inert n (by simp)).rational?_eq_none]
    · rfl
  have underscored : indexed? args = none := by
    unfold indexed?
    split
    · next name size =>
      unfold bitVector?
      split
      · rw [(inert size (by simp)).natBelow?_eq_none]
        split <;> simp_all
      · rfl
    · next name e s => rw [special?, (inert e (by simp)).natBelow?_eq_none]
    · rfl
  have joined : fields? args = none := by
    unfold fields?
    split
    · exact absurd trivial (inert _ List.mem_cons_self)
    · rfl
  have root : root? args = none := by
    unfold root?
    split
    · next p index =>
      rw [(inert index (by simp)).natBelow?_eq_none]
      split <;> simp_all
    · rfl
  rw [literal?, negated, divided, underscored, joined, root]
  split_ifs <;> rfl

theorem fold_of_inert {items : List SExpr} (inert : ∀ e ∈ items, e.IsInert) :
    fold items = .app items := by
  unfold fold
  split
  · next operator args =>
    rw [literal?_of_inert operator fun e he => inert e (List.mem_cons_of_mem _ he)]
  · rfl

/-- A name that the reader knows no literals of heads an application that stays one. -/
theorem fold_named {name : String}
    (other : ∀ operator ∈ ["-", "/", "_", "fp", "root-obj"], name ≠ operator)
    (args : List SExpr) : fold (named name :: args) = .app (named name :: args) :=
  fold_symbol other args

theorem foldOverflows_named {name : String}
    (other : ∀ operator ∈ ["-", "/", "_", "fp", "root-obj"], name ≠ operator)
    (args : List SExpr) : foldOverflows (named name :: args) = false :=
  foldOverflows_symbol (other _ (by simp)) (other _ (by simp)) args

/-- An application heads one that does not overflow. -/
theorem foldOverflows_map_app {α : Type} (f : α → List SExpr) (xs : List α) :
    foldOverflows (xs.map fun x => .app (f x)) = false := by
  cases xs <;> rfl

@[simp] theorem isInert_named (name : String) : (named name).IsInert := id

@[simp] theorem isInert_app (items : List SExpr) : (SExpr.app items).IsInert := trivial

end SExpr

open SExpr (IsInert fold_of_inert isInert_named fold_named foldOverflows foldOverflows_named
  foldOverflows_map_app foldOverflows_of_length_le)

theorem ReadsAlone.phrase (alone : ReadsAlone name) : Phrase name.toList (named name) := by
  obtain ⟨unquoted, reads⟩ := SExpr.unquoted_of_parse alone
  exact .word unquoted reads

theorem ReadsAlone.of_isBare (bare : Spelling.IsBare name.toList) : ReadsAlone name :=
  Spelling.parse_of_chars _ (Spelling.proper_bare bare) rfl

theorem WordId.phrase (id : WordId) : Phrase id.text.toList (named id.text) :=
  phrase_bare id.text (Spelling.isBare_text id)

theorem phrase_symbol (bar : '|' ∉ name.toList) :
    Phrase (Literal.symbol name).toList (named name) := by
  have phrase := Phrase.of_proper (Spelling.proper_symbol bar)
  rwa [Spelling.chars_symbol, Spelling.tree_symbol] at phrase

theorem phrase_keyword (colon : name.toList.head? = some ':')
    (inside : ∀ c ∈ name.toList, Lexeme.endsWord c = false) :
    Phrase name.toList (.atom (.keyword name)) :=
  @Atom.phrase_text 0 (.keyword name) ⟨colon, inside⟩ trivial trivial

/-- A list of names and applications between parentheses. -/
theorem phrase_list {α : Type} {f : α → String} {g : α → SExpr} {xs : List α}
    (each : ∀ x ∈ xs, Phrase (f x).toList (g x)) (inert : ∀ x ∈ xs, (g x).IsInert)
    (fits : foldOverflows (xs.map g) = false) :
    Phrase ('(' :: (spaced (xs.map f)).toList ++ [')']) (.app (xs.map g)) := by
  have items : Phrases (spaced (xs.map f)).toList (xs.map g) := by
    have pairs := @phrases_spaced (xs.map fun x => (f x, g x)) (List.forall_mem_map.mpr each)
    simpa [Function.comp_def] using pairs
  have stays : fold (xs.map g) = .app (xs.map g) :=
    fold_of_inert (List.forall_mem_map.mpr inert)
  exact stays ▸ items.list fits

/-- An application of a name that the reader knows no literals of. -/
theorem phrase_call {head : String} (bare : Spelling.IsBare head.toList)
    (other : ∀ operator ∈ ["-", "/", "_", "fp", "root-obj"], head ≠ operator)
    {ps : List (String × SExpr)} (each : ∀ p ∈ ps, Phrase p.1.toList p.2) :
    Phrase ('(' :: (spaced (head :: ps.map Prod.fst)).toList ++ [')'])
      (.app (named head :: ps.map Prod.snd)) := by
  have all : ∀ p ∈ (head, named head) :: ps, Phrase p.1.toList p.2 :=
    List.forall_mem_cons.mpr ⟨phrase_bare head bare, each⟩
  have whole := phrase_app all (by rw [List.map_cons]; exact foldOverflows_named other _)
    (by rw [List.map_cons]; exact fold_named other _)
  rwa [List.map_cons, List.map_cons] at whole

/-- A word with a tree behind it. -/
theorem phrase_pair (id : WordId) {text : String} {e : SExpr} (phrase : Phrase text.toList e) :
    Phrase ('(' :: (id.text ++ " " ++ text).toList ++ [')']) (.app [named id.text, e]) := by
  have other : ∀ operator ∈ ["-", "/", "_", "fp", "root-obj"], id.text ≠ operator :=
    fun operator listed => id.text_ne (by revert operator; decide)
  have pair := @phrase_call _ (Spelling.isBare_text id) other [(text, e)] (by simpa using phrase)
  simpa [spaced] using pair

theorem Kind.phrase {kind : Kind} (alone : ∀ name ∈ kind.rawNames, ReadsAlone name) :
    Phrase kind.sortText.toList kind.tree := by
  cases kind with
  | bits signed width =>
    have whole := phrase_indexed "BitVec" (by decide) [width.toNat] rfl
    change Phrase _ (.app [named "_", named "BitVec", numeral width.toNat])
    simpa [sortText, spaced] using whole
  | float => exact phrase_indexed "FloatingPoint" (by decide) [8, 24] rfl
  | double => exact phrase_indexed "FloatingPoint" (by decide) [11, 53] rfl
  | sort name constructors => exact (alone name (List.mem_singleton_self name)).phrase
  | bool | integer | real | string | char => exact phrase_bare _ (by decide)

theorem NameSort.phrase {sort : NameSort} (alone : ∀ name ∈ sort.rawNames, ReadsAlone name) :
    Phrase sort.text.toList sort.tree := by
  cases sort with
  | value kind => exact Kind.phrase alone
  | array index elem =>
    obtain ⟨first, second⟩ := List.forall_mem_append.mp alone
    have whole := @phrase_call "Array" (by decide) (by decide)
      [(index.sortText, index.tree), (elem.sortText, elem.tree)]
      (by simpa using ⟨Kind.phrase first, Kind.phrase second⟩)
    simpa [text, spaced, tree] using whole

/-- The tree of a sort makes nothing overflow. -/
theorem Kind.isMild_tree (kind : Kind) : kind.tree.IsMild := by
  cases kind <;>
    first | exact SExpr.isMild_symbol _ | exact @SExpr.isMild_app "_" (by decide) _

theorem NameSort.isMild_tree (sort : NameSort) : sort.tree.IsMild := by
  cases sort with
  | value kind => exact kind.isMild_tree
  | array index elem => exact @SExpr.isMild_app "Array" (by decide) _

theorem NameSort.isInert_tree (sort : NameSort) : sort.tree.IsInert := by
  cases sort with
  | value kind => cases kind <;> first | exact isInert_named _ | trivial
  | array index elem => trivial

theorem Name.phrase {n : Name} (alone : ∀ name ∈ n.rawNames, ReadsAlone name) :
    Phrase n.text.toList n.tree := by
  cases n with
  | word id => exact id.phrase
  | table id =>
    have bare := @Spelling.isBare_numbered "table".toList (by decide) (by decide) id
    exact phrase_bare _ (by simpa [text] using bare)
  | array id =>
    have bare := @Spelling.isBare_numbered "array_".toList (by decide) (by decide) id
    exact phrase_bare _ (by simpa [text] using bare)
  | function name => exact (alone name (List.mem_singleton_self name)).phrase

theorem Value.phrase {v : Value} (legible : v.IsLegible) : Phrase v.literal.toList v.tree := by
  obtain ⟨e, phrase⟩ := Value.legible legible
  unfold tree
  split
  · next index label payload =>
    have written : v.literal = Literal.symbol label := by
      rw [literal, payload]
    exact written ▸ phrase_symbol (legible index label payload)
  · rw [phrase.parse]
    exact phrase

/-- Operators with names that read alone. -/
def Operator.IsSound : Operator → Prop
  | .builtIn name | .rounded name => ReadsAlone name
  | _ => True

theorem Operator.phrases {operator : Operator} (sound : operator.IsSound)
    (alone : ∀ name ∈ operator.rawNames, ReadsAlone name) :
    Phrases operator.text.toList operator.items := by
  cases operator with
  | builtIn name => exact (ReadsAlone.phrase sound).item
  | rounded name =>
    have trees := @phrases_spaced [(name, named name), ("RNE", named "RNE")]
      (by simpa using ⟨ReadsAlone.phrase sound, phrase_bare "RNE" (by decide)⟩)
    simpa [text, spaced, items] using trees
  | extract high low =>
    have whole := phrase_indexed "extract" (by decide) [high, low] (fold_extract high low)
    exact Phrase.item (by simpa [text, spaced] using whole)
  | declared n => exact (Name.phrase alone).item
  | everywhere sort =>
    have whole := @phrase_call "as" (by decide) (by decide)
      [("const", named "const"), (sort.text, sort.tree)]
      (by simpa using ⟨phrase_bare "const" (by decide), NameSort.phrase alone⟩)
    exact Phrase.item (by simpa [text, spaced] using whole)

namespace Term

mutual

/-- Terms with labels that have no bar, and in which no application stands for an atom or
overflows. -/
def IsSound : Term → Prop
  | .name _ => True
  | .literal v => v.IsLegible
  | .apply operator args =>
    operator.IsSound ∧ IsSoundAll args ∧
      fold (operator.items ++ treeAll args) = .app (operator.items ++ treeAll args) ∧
      foldOverflows (operator.items ++ treeAll args) = false

def IsSoundAll : List Term → Prop
  | [] => True
  | t :: rest => t.IsSound ∧ IsSoundAll rest

end

theorem isSoundAll_iff {args : List Term} : IsSoundAll args ↔ ∀ a ∈ args, a.IsSound := by
  induction args with
  | nil => simp [IsSoundAll]
  | cons a rest ih => simp [IsSoundAll, ih]

theorem treeAll_eq_map (args : List Term) : treeAll args = args.map tree := by
  induction args with
  | nil => rfl
  | cons a rest ih => rw [treeAll, ih, List.map_cons]

mutual

theorem phrase : ∀ {t : Term}, t.IsSound → (∀ name ∈ t.rawNames, ReadsAlone name) →
    Phrase t.text.toList t.tree
  | .name _, _, alone => Name.phrase (by simpa only [rawNames] using alone)
  | .literal _, sound, _ => Value.phrase (by simpa only [IsSound] using sound)
  | .apply operator args, sound, alone => by
    rw [IsSound] at sound
    rw [rawNames] at alone
    obtain ⟨head, each, stays, fits⟩ := sound
    obtain ⟨before, inside⟩ := List.forall_mem_append.mp alone
    have items := phrases_textArgs each inside (Operator.phrases head before)
    rw [tree, ← stays]
    simpa [text] using items.list fits

/-- Arguments continue the items of an application. -/
theorem phrases_textArgs : ∀ {args : List Term}, IsSoundAll args →
    (∀ name ∈ rawNamesAll args, ReadsAlone name) → ∀ {cs : List Char} {es : List SExpr},
      Phrases cs es → Phrases (cs ++ (textArgs args).toList) (es ++ treeAll args)
  | [], _, _, _, _, front => by simpa [textArgs, treeAll] using front
  | t :: rest, sound, alone, cs, es, front => by
    rw [IsSoundAll] at sound
    rw [rawNamesAll] at alone
    obtain ⟨here, later⟩ := List.forall_mem_append.mp alone
    have longer := front.append gap_blank (phrase sound.1 here).item
    have whole := phrases_textArgs sound.2 later longer
    simpa [textArgs, treeAll] using whole

end

end Term

namespace Command

/-- Commands with sound terms, and with labels and groups that have no bar. -/
def IsSound : Command → Prop
  | .declareSort _ constructors =>
    ∀ labels, constructors = some labels → ∀ label ∈ labels, '|' ∉ label.toList
  | .define _ _ body _ => body.IsSound
  | .assert t => t.IsSound
  | .assertForall _ bindings body => (∀ b ∈ bindings, b.2.IsSound) ∧ body.IsSound
  | .assertSoft _ _ group => ∀ g, group = some g → '|' ∉ g.toList
  | _ => True

/-- The reader takes the entry `(- 0)` of an enumerated sort for a number. -/
def IsMinus (c : Command) : Prop :=
  ∃ labels, c = .declareSort "-" (some labels)

theorem phrase_chain {body : Term} (sound : body.IsSound) {bindings : List (WordId × Term)}
    (each : ∀ b ∈ bindings, b.2.IsSound)
    (alone : ∀ name ∈ bindings.flatMap (fun b => b.2.rawNames) ++ body.rawNames,
      ReadsAlone name) : Phrase (chain body bindings) (chainTree body bindings) := by
  induction bindings with
  | nil => exact Term.phrase sound alone
  | cons b rest ih =>
    obtain ⟨first, others⟩ := List.forall_mem_cons.mp each
    rw [List.flatMap_cons, List.append_assoc] at alone
    obtain ⟨here, later⟩ := List.forall_mem_append.mp alone
    have bound := (phrase_pair b.1 (Term.phrase first here)).item.list rfl
    have front := Phrases.cons (phrase_bare "let" (by decide)) bound.item
    have whole := (front.append gap_line (ih others later).item).list
      (foldOverflows_named (by decide) _)
    have stays : fold ([named "let", fold [.app [named b.1.text, b.2.tree]]] ++
        [chainTree body rest]) = chainTree body (b :: rest) := fold_named (by decide) _
    rw [stays] at whole
    simpa [chain] using whole

theorem phrase_assertForall {binders : List (WordId × Kind)} {bindings : List (WordId × Term)}
    {body : Term} (sound : ∀ b ∈ bindings, b.2.IsSound) (last : body.IsSound)
    (alone : ∀ name ∈ (assertForall binders bindings body).rawNames, ReadsAlone name) :
    Phrase (assertForall binders bindings body).text.toList
      (.app [named "assert", .app [named "forall",
        .app (binders.map fun b => .app [named b.1.text, b.2.tree]),
        chainTree body bindings]]) := by
  rw [rawNames, List.append_assoc] at alone
  obtain ⟨kinds, terms⟩ := List.forall_mem_append.mp alone
  have each : ∀ b ∈ binders, Phrase (binderText b).toList (.app [named b.1.text, b.2.tree]) := by
    intro b hb
    have kind := Kind.phrase fun name listed => kinds name (List.mem_flatMap.mpr ⟨b, hb, listed⟩)
    simpa [binderText] using phrase_pair b.1 kind
  have list := phrase_list each (fun _ _ => trivial) (foldOverflows_map_app _ _)
  have front := Phrases.cons (phrase_bare "forall" (by decide)) list.item
  have quantified := (front.append gap_line (phrase_chain last sound terms).item).list
    (foldOverflows_named (by decide) _)
  have stays : fold ([named "forall",
      .app (binders.map fun b => .app [named b.1.text, b.2.tree])] ++ [chainTree body bindings]) =
        .app [named "forall", .app (binders.map fun b => .app [named b.1.text, b.2.tree]),
          chainTree body bindings] := fold_named (by decide) _
  rw [stays] at quantified
  have whole := (Phrases.cons (phrase_bare "assert" (by decide)) quantified.item).list
    (foldOverflows_named (by decide) _)
  rw [fold_named (by decide)] at whole
  have written := intercalate_chain body bindings [')', ')']
  have same : (assertForall binders bindings body).text.toList =
      '(' :: ("assert".toList ++ ' ' :: ('(' :: ("forall".toList ++
        ' ' :: ('(' :: (spaced (binders.map binderText)).toList ++ [')']) ++ ['\n', ' ', ' '] ++
          chain body bindings) ++ [')'])) ++ [')'] := by
    rw [text, lines, String.toList_intercalate, List.cons_append, List.nil_append,
      List.cons_append, List.map_cons, List.intercalate_cons_of_ne_nil (by simp)]
    simpa [Function.comp_def] using written
  exact same ▸ whole

/-- The name of a sort and the number of its parameters, in the declaration of an enumerated
sort. -/
theorem phrase_entry {name : String} (alone : ReadsAlone name) :
    Phrase ('(' :: (name ++ " 0").toList ++ [')']) (fold [named name, numeral 0]) := by
  have items := @phrases_spaced [(name, named name), ("0", numeral 0)]
    (by simpa using ⟨alone.phrase, phrase_numeral 0⟩)
  simpa [spaced] using items.list (foldOverflows_of_length_le (by simp))

theorem fold_entry {name : String} (other : name ≠ "-") :
    fold [named name, numeral 0] = .app [named name, numeral 0] := by
  have none : SExpr.literal? name [numeral 0] = none := by
    rw [SExpr.literal?, if_neg other]
    split_ifs <;> rfl
  rw [named, fold, none]

/-- The declaration of an enumerated sort, with its entry as the reader takes it. -/
theorem phrase_datatype {name : String} {labels : List String} (alone : ReadsAlone name)
    (bars : ∀ label ∈ labels, '|' ∉ label.toList) :
    Phrase (declareSort name (some labels)).text.toList
      (.app [named "declare-datatypes", fold [fold [named name, numeral 0]],
        .app [.app (labels.map fun label => .app [named label])]]) := by
  have each : ∀ label ∈ labels, Phrase (constructorText label).toList (.app [named label]) := by
    intro label member
    have symbol := (phrase_symbol (bars label member)).item.list
      (foldOverflows_of_length_le (by simp))
    have stays : fold [named label] = .app [named label] :=
      fold_of_inert (by simp [isInert_named])
    rw [stays] at symbol
    simpa [constructorText] using symbol
  have list := phrase_list each (fun _ _ => trivial) (foldOverflows_map_app _ _)
  have call := @phrase_call "declare-datatypes" (by decide) (by decide)
    [("((" ++ name ++ " 0))", fold [fold [named name, numeral 0]]),
      ("((" ++ spaced (labels.map constructorText) ++ "))",
        .app [.app (labels.map fun label => .app [named label])])]
    (by
      simp only [List.forall_mem_cons]
      refine ⟨?_, ?_, by simp⟩
      · simpa using (phrase_entry alone).item.list (foldOverflows_of_length_le (by simp))
      · simpa [fold] using list.item.list rfl)
  simpa [text, lines, spaced] using call

/-- The text of a command is its tree, with a comment behind it. -/
theorem exists_phrase {c : Command} {e : SExpr} (whole : c.tree? = some e) (sound : c.IsSound)
    (alone : ∀ name ∈ c.rawNames, ReadsAlone name) (minus : ¬c.IsMinus) :
    ∃ (cs : List Char) (r : Remark), c.text.toList = cs ++ r.text.toList ∧ Phrase cs e := by
  have remark : Remark.none.text = "" := rfl
  cases c with
  | declareSort name constructors =>
    have here : ReadsAlone name := alone name (List.mem_singleton_self name)
    cases constructors with
    | none =>
      cases whole
      have call := @phrase_call "declare-sort" (by decide) (by decide)
        [(name, named name), ("0", numeral 0)]
        (by simpa using ⟨here.phrase, phrase_numeral 0⟩)
      exact ⟨_, .none, by simp [text, lines, spaced, remark], call⟩
    | some labels =>
      cases whole
      have other : name ≠ "-" := by
        rintro rfl
        exact minus ⟨labels, rfl⟩
      have whole := phrase_datatype here (sound labels rfl)
      rw [fold_entry other] at whole
      exact ⟨_, .none, by simp [remark], whole⟩
  | declare n args sort note =>
    cases whole
    rw [rawNames] at alone
    obtain ⟨front, result⟩ := List.forall_mem_append.mp alone
    obtain ⟨head, params⟩ := List.forall_mem_append.mp front
    have each : ∀ a ∈ args, Phrase a.text.toList a.tree :=
      fun a ha => NameSort.phrase fun name listed =>
        params name (List.mem_flatMap.mpr ⟨a, ha, listed⟩)
    have list := phrase_list each (fun a _ => a.isInert_tree)
      (SExpr.foldOverflows_of_mild (List.forall_mem_map.mpr fun a _ => a.isMild_tree))
    have call := @phrase_call "declare-fun" (by decide) (by decide)
      [(n.text, n.tree),
        ("(" ++ spaced (args.map NameSort.text) ++ ")", .app (args.map NameSort.tree)),
        (sort.text, sort.tree)]
      (by
        simp only [List.forall_mem_cons]
        refine ⟨Name.phrase head, ?_, NameSort.phrase result, by simp⟩
        simpa using list)
    exact ⟨_, note, by simp [text, lines, spaced], call⟩
  | define n sort body note =>
    cases whole
    rw [rawNames] at alone
    obtain ⟨front, last⟩ := List.forall_mem_append.mp alone
    obtain ⟨head, sorted⟩ := List.forall_mem_append.mp front
    have call := @phrase_call "define-fun" (by decide) (by decide)
      [(n.text, n.tree), ("()", .app []), (sort.text, sort.tree), (body.text, body.tree)]
      (by simpa using ⟨Name.phrase head, Phrases.nil.list rfl, NameSort.phrase sorted,
        Term.phrase sound last⟩)
    exact ⟨_, note, by simp [text, lines, spaced], call⟩
  | assert t =>
    cases whole
    have call := @phrase_call "assert" (by decide) (by decide) [(t.text, t.tree)]
      (by simpa using Term.phrase sound alone)
    exact ⟨_, .none, by simp [text, lines, spaced, remark], call⟩
  | assertForall binders bindings body =>
    cases whole
    exact ⟨_, .none, by simp [remark], phrase_assertForall sound.1 sound.2 alone⟩
  | assertSoft id weight group =>
    have inside : ∀ c ∈ ":weight".toList, Lexeme.endsWord c = false := by
      simp [Lexeme.endsWord, Text.isAsciiBlank]
    have weighed : ∀ p ∈ [(id.text, named id.text), (":weight", .atom (.keyword ":weight")),
        (toString weight, numeral weight)], Phrase p.1.toList p.2 := by
      simp only [List.forall_mem_cons]
      exact ⟨id.phrase, @phrase_keyword ":weight" (by decide) inside,
        phrase_numeral weight, by simp⟩
    cases group with
    | none =>
      cases whole
      exact ⟨_, .none, by simp [text, lines, spaced, remark],
        @phrase_call "assert-soft" (by decide) (by decide) _ weighed⟩
    | some group =>
      cases whole
      have inside : ∀ c ∈ ":id".toList, Lexeme.endsWord c = false := by
        simp [Lexeme.endsWord, Text.isAsciiBlank]
      have grouped : ∀ p ∈ [(":id", .atom (.keyword ":id")), (Literal.symbol group, named group)],
          Phrase p.1.toList p.2 := by
        simp only [List.forall_mem_cons]
        exact ⟨@phrase_keyword ":id" (by decide) inside,
          phrase_symbol (sound group rfl), by simp⟩
      have items := List.forall_mem_append.mpr ⟨weighed, grouped⟩
      exact ⟨_, .none, by simp [text, lines, spaced, remark],
        @phrase_call "assert-soft" (by decide) (by decide) _ items⟩
  | _ => cases whole

end Command

end SmtDialogue
