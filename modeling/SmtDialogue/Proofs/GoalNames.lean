import SmtDialogue.Proofs.Normalizing
import SmtDialogue.Proofs.Unambiguous

/-!
# Names of objectives in answers

An answer names the word of an objective, not the objective, and the table has one variable
for each word. The value of an objective that is not over an input is therefore reported under
the name of the first objective over its word. Every later objective over the word shares the
value with the first one, but its own name is not in the table and finds nothing.
-/

namespace SmtDialogue

namespace ObjectiveValue

variable {table : SymbolTable}

/-- The value that an item is read as, if it can be read. -/
def ofItem? (table : SymbolTable) (item : SExpr) : Option ObjectiveValue :=
  (readItem table (.undecodable "" item) item).toOption

/-- An item is read alike in every group. -/
theorem ofItem?_eq_some {fail : DecodeFailure → AnswerError} {item : SExpr} {v : ObjectiveValue}
    (read : readItem table fail item = .ok v) : ofItem? table item = some v := by
  have bounded : ∀ (kind : Kind) (value : SExpr) (name : String),
      ((bound kind value).mapError fail).map (ObjectiveValue.mk name) = .ok v →
        ((bound kind value).mapError (AnswerError.undecodable "" item)).map
          (ObjectiveValue.mk name) = .ok v := by
    intro kind value name made
    obtain ⟨e, accepted, same⟩ := Except.map_eq_ok.mp made
    exact Except.map_eq_ok.mpr
      ⟨e, Except.mapError_eq_ok.mpr (Except.mapError_eq_ok.mp accepted), same⟩
  have alone : readItem table (.undecodable "" item) item = .ok v := by
    unfold readItem at read ⊢
    split at read
    · split at read
      · cases read
      · exact bounded _ _ _ read
      · exact bounded _ _ _ read
    · cases read
  rw [ofItem?, alone]
  rfl

theorem readItems_eq_ok {fail : DecodeFailure → AnswerError} {items : List SExpr}
    {vs : List ObjectiveValue} (read : readItems table fail items = .ok vs) :
    List.Forall₂ (fun item v => ofItem? table item = some v) items vs := by
  induction items generalizing vs with
  | nil =>
    cases read
    exact .nil
  | cons item rest ih =>
    rw [readItems] at read
    split at read
    · cases read
    · next v first =>
      obtain ⟨others, later, rfl⟩ := Except.map_eq_ok.mp read
      exact .cons (ofItem?_eq_some first) (ih later)

/-- The items of a group that lists values of objectives, normalized. -/
def itemsOf (normalizer : Normalizer) (text : String) : List SExpr :=
  match SExpr.parse text with
  | .error _ => []
  | .ok tree =>
    if isObjectives (normalizer tree) then ((normalizer tree).items?.getD []).tail else []

/-- The items of all lists of values of objectives in some lines, in order. -/
def itemsOfLines (normalizer : Normalizer) (lines : List String) : List SExpr :=
  (Group.ofLines lines).flatMap (itemsOf normalizer)

/-- A symbol of a word with a value. -/
def Names (id : WordId) (item : SExpr) : Prop :=
  ∃ symbol value, WordId.ofSymbol? symbol = some id ∧ item = .app [.atom (.symbol symbol), value]

end ObjectiveValue

open ObjectiveValue (itemsOf itemsOfLines Names)

variable {normalizer : Normalizer} {table : SymbolTable} {strictness : Strictness}

/-- The values in a report are those of the items of its group. -/
theorem Report.objectives_ofGroup {text : String} {r : Report}
    (said : ofGroup normalizer table strictness text = .ok r) :
    List.Forall₂ (fun item v => ObjectiveValue.ofItem? table item = some v)
      (itemsOf normalizer text) r.objectives := by
  have yields := yields_ofGroup normalizer table strictness text
  rw [said] at yields
  rw [itemsOf]
  cases yields with
  | dropped unread =>
    rw [unread]
    exact .nil
  | bindings read _ model extracted =>
    obtain ⟨bs, -, rfl⟩ := Except.map_eq_ok.mp extracted
    simp only [read, model]
    exact .nil
  | @objectives _ tree _ listed extracted =>
    obtain ⟨read, -, listed⟩ := listed
    obtain ⟨os, values, rfl⟩ := Except.map_eq_ok.mp extracted
    clear extracted
    simp only [read, listed, if_true]
    generalize normalizer tree = e at values
    rcases e with a | (_ | ⟨head, items⟩)
    · cases values
    · cases values
    · rw [ObjectiveValue.extract] at values
      split at values
      · exact ObjectiveValue.readItems_eq_ok values
      · cases values

/-- The values of a model are those of the items of its lines, in order. -/
theorem Model.objectives_ofLines {lines : List String} {m : Model}
    (read : ofLines normalizer table strictness lines = .ok m) :
    List.Forall₂ (fun item v => ObjectiveValue.ofItem? table item = some v)
      (itemsOfLines normalizer lines) m.objectives := by
  rw [ofLines_eq] at read
  obtain ⟨rs, said, rfl⟩ := Except.map_eq_ok.mp read
  clear read
  rw [Except.mapM_eq_ok] at said
  rw [itemsOfLines, ofReports]
  dsimp only
  generalize Group.ofLines lines = groups at said
  induction said with
  | nil => exact .nil
  | cons first _ ih =>
    rw [List.flatMap_cons, List.flatMap_cons]
    exact List.rel_append (Report.objectives_ofGroup first) ih

namespace Program

variable {p : Program} {id : WordId} {kind : Kind} {symbol : String} {value : SExpr}

/-- An item over a word that is no input has the name of the first objective over it, and its
value is read at the kind of the word. -/
theorem ofItem?_objective (apart : ∀ i ∈ p.inputs, i.var.id ≠ id)
    (introduced : p.wordKind? id = some kind) {first : Objective}
    (found : p.objectives.find? (fun o => o.id = id) = some first)
    (named : WordId.ofSymbol? symbol = some id) {v : ObjectiveValue}
    (made : ObjectiveValue.ofItem? p.symbolTable (.app [.atom (.symbol symbol), value]) = some v) :
    v.name = first.name ∧ ObjectiveValue.bound kind value = .ok v.value := by
  have resolved := resolve_text p id
  rw [find?_mentioned apart introduced, found] at resolved
  have read : ObjectiveValue.named? p.symbolTable (.atom (.symbol symbol)) =
    .ok (some ⟨id, first.name, kind⟩) := SymbolTable.resolve_of_ofSymbol? named resolved
  rw [ObjectiveValue.ofItem?, ObjectiveValue.readItem, read] at made
  dsimp only at made
  cases bounded : ObjectiveValue.bound kind value with
  | error reason =>
    rw [bounded] at made
    cases made
  | ok e =>
    rw [bounded] at made
    cases made
    exact ⟨rfl, rfl⟩

/-- An objective of a program whose query is written is over a word of the program. -/
theorem exists_wordKind? {c : Config} {s : Script} (written : Script.query c p = .ok s)
    {goal : Objective} (listed : goal ∈ p.objectives) :
    ∃ kind, p.wordKind? goal.id = some kind := by
  obtain ⟨-, script, built, -⟩ := Script.query_eq_ok written
  obtain ⟨parts, shape, -⟩ := Script.body_eq_ok built
  have known := shape.within.of_requireTop (shape.objectives goal listed)
  exact Option.isSome_iff_exists.mp (isSome_wordKind?.mpr known)

end Program

namespace Model

open ObjectiveValue (ofItem?)

variable {m : Model} {items before after : List SExpr} {item : SExpr} {name : String}
  {v : ObjectiveValue}

/-- The value of the first item that is read under a name is the first under it. -/
theorem find?_of_first {vs : List ObjectiveValue}
    (read : List.Forall₂ (fun item v => ofItem? table item = some v) (before ++ item :: after) vs)
    (made : ofItem? table item = some v)
    (earlier : ∀ other ∈ before, ∀ w, ofItem? table other = some w → w.name ≠ v.name) :
    vs.find? (fun w => w.name = v.name) = some v := by
  induction before generalizing vs with
  | nil =>
    obtain ⟨w, ws, first, -, rfl⟩ := List.forall₂_cons_left_iff.mp read
    cases made.symm.trans first
    exact List.find?_cons_of_pos (by simp)
  | cons other rest ih =>
    obtain ⟨w, ws, first, others, rfl⟩ := List.forall₂_cons_left_iff.mp read
    have apart := earlier other List.mem_cons_self w first
    rw [List.find?_cons_of_neg (by simpa using apart)]
    exact ih others fun x hx => earlier x (List.mem_cons_of_mem other hx)

/-- Nothing is found under a name that no item is read under. -/
theorem objective?_eq_none
    (read : List.Forall₂ (fun item v => ofItem? table item = some v) items m.objectives)
    (absent : ∀ other ∈ items, ∀ w, ofItem? table other = some w → w.name ≠ name) :
    m.objective? name = none := by
  rw [objective?, Option.map_eq_none_iff, List.find?_eq_none]
  intro w member
  obtain ⟨other, inside, made⟩ := read.exists_of_mem_right member
  simpa using absent other inside w made

end Model

/-- The lines that an outcome of an answer is read from, with their status: all lines where
one model is expected, and otherwise a chunk. -/
inductive Dialogue.BlockAt (d : Dialogue) (q : PreparedQuery) (lines : List String) :
    Nat → List String → Prop where
  | whole (one : q.expectedModels = 1) : BlockAt d q lines 0 lines
  | chunk {k : Nat} {part : List String} {status : String} (several : q.expectedModels ≠ 1)
      (leading : (chunks d.config.sentinel lines).head?.bind List.head? = some status)
      (placed : (chunks d.config.sentinel lines)[k]? = some part) :
      BlockAt d q lines k (Outcome.withStatus status part)

namespace Outcome

/-- Only answers that start with `sat` or `unknown` have models. -/
theorem status_of_model {lines : List String} {o : Outcome} {m : Model}
    (read : classify normalizer table lines = .ok o) (model : o.model? = some m) :
    ∃ strictness, Model.ofLines normalizer table strictness (lines.drop 1) = .ok m ∧
      (status? lines = some "sat" ∨ status? lines = some "unknown") := by
  rw [classify] at read
  split at read
  · cases read
    cases model
  · cases read
    cases model
  · next status =>
    obtain ⟨n, said, rfl⟩ := Except.map_eq_ok.mp read
    cases model
    exact ⟨.lenient, said, .inr status⟩
  · next status =>
    obtain ⟨n, said, rfl⟩ := Except.map_eq_ok.mp read
    refine ⟨.strict, ?_, .inl status⟩
    rw [ofModel] at model
    split at model <;> cases model <;> exact said
  · cases read
    cases model

end Outcome

/-- Every model of an answer is read from a block of its lines. -/
theorem Dialogue.exists_block {d : Dialogue} {q : PreparedQuery} {lines : List String}
    {outcomes : List Outcome} (read : d.interpret q lines = .ok outcomes) {k : Nat} {o : Outcome}
    {m : Model} (placed : outcomes[k]? = some o) (model : o.model? = some m) :
    ∃ block, d.BlockAt q lines k block ∧
      ∃ strictness, Model.ofLines d.normalizer q.table strictness (block.drop 1) = .ok m := by
  rw [interpret] at read
  split at read
  · next one =>
    obtain ⟨only, classified, rfl⟩ := Except.map_eq_ok.mp read
    obtain ⟨rfl, rfl⟩ : k = 0 ∧ only = o := by
      cases k with
      | zero => simpa using placed
      | succ k => simp at placed
    obtain ⟨strictness, said, -⟩ := Outcome.status_of_model classified model
    exact ⟨lines, .whole one, strictness, said⟩
  · next several =>
    -- an answer that starts with `sat` and one that starts with `unknown` are cut alike
    have cut : (∃ status, (chunks d.config.sentinel lines).head?.bind List.head? = some status ∧
        (chunks d.config.sentinel lines).mapM (fun chunk => Outcome.classify d.normalizer q.table
          (Outcome.withStatus status chunk)) = .ok outcomes) := by
      simp only [Outcome.split] at read
      split at read
      iterate 2
        split at read
        · cases read
        · split at read
          · cases read
          · next status leading => exact ⟨status, leading, read⟩
      next noSat noUnknown =>
        obtain ⟨same, classified, rfl⟩ := Except.map_eq_ok.mp read
        obtain rfl : same = o := List.eq_of_mem_replicate (List.mem_of_getElem? placed) |>.symm
        obtain ⟨-, -, sat | unknown⟩ := Outcome.status_of_model classified model
        · exact absurd sat noSat
        · exact absurd unknown noUnknown
    obtain ⟨status, leading, each⟩ := cut
    obtain ⟨part, here, classified⟩ : ∃ part, (chunks d.config.sentinel lines)[k]? = some part ∧
        Outcome.classify d.normalizer q.table (Outcome.withStatus status part) = .ok o := by
      have each := Except.mapM_eq_ok.mp each
      obtain ⟨there, rfl⟩ := List.getElem?_eq_some_iff.mp placed
      have here : k < (chunks d.config.sentinel lines).length := each.length_eq ▸ there
      exact ⟨_, List.getElem?_eq_getElem here, each.get here there⟩
    obtain ⟨strictness, said, -⟩ := Outcome.status_of_model classified model
    exact ⟨_, .chunk several leading here, strictness, said⟩

/-- Normalizing changes the value of an item over a word, and neither its shape nor its symbol. -/
theorem SExpr.normalize_item {symbol : String} {id : WordId}
    (named : WordId.ofSymbol? symbol = some id) (value : SExpr) :
    normalize (.app [.atom (.symbol symbol), value]) =
      .app [.atom (.symbol symbol), normalize value] := by
  have other : ∀ name, WordId.ofSymbol? name = none → symbol ≠ name := by
    rintro name unnamed rfl
    rw [named] at unnamed
    cases unnamed
  have stays : wrappedPlace? [.atom (.symbol symbol), value] = none := by
    rw [wrappedPlace?]
    split
    · next cast => exact absurd (Option.some.inj cast) (other _ (by decide))
    · next body => exact absurd (Option.some.inj body) (other _ (by decide))
    · next body => exact absurd (Option.some.inj body) (other _ (by decide))
    · rfl
  rw [normalize_app stays]
  exact fold_symbol (fun operator member => other _ (by revert operator; decide)) _

/-- The items over words in an objectives list of the lines are among those that are
interpreted, with their values normalized. -/
theorem ObjectiveValue.mem_itemsOfLines {lines : List String} {text : String}
    {items : List SExpr} {symbol : String} {id : WordId} {value : SExpr}
    (group : text ∈ Group.ofLines lines)
    (parsed : SExpr.parse text = .ok (.app (.atom (.symbol "objectives") :: items)))
    (named : WordId.ofSymbol? symbol = some id)
    (member : .app [.atom (.symbol symbol), value] ∈ items) :
    .app [.atom (.symbol symbol), value.normalize] ∈ itemsOfLines SExpr.normalize lines := by
  refine List.mem_flatMap.mpr ⟨text, group, ?_⟩
  have listing : SExpr.normalize (.app (.atom (.symbol "objectives") :: items)) =
      .app (.atom (.symbol "objectives") :: items.map SExpr.normalize) := by
    rw [SExpr.normalize_app rfl]
    exact SExpr.fold_symbol (by decide) _
  have listed : isObjectives (SExpr.normalize (.app (.atom (.symbol "objectives") :: items))) =
      true := by
    rw [listing]
    rfl
  rw [itemsOf, parsed]
  dsimp only
  rw [if_pos listed, listing, ← SExpr.normalize_item named]
  exact List.mem_map_of_mem member

/-- A sum that is minimized in one block and maximized in another. -/
def Program.rivals : Program where
  polarity := .satisfy
  sorts := []
  inputs := [⟨.exist, ⟨⟨0⟩, "x", .word 8⟩⟩]
  constants := []
  tables := []
  arrays := []
  functions := []
  assumptions := []
  assignments := [⟨⟨1⟩, .word 8, .plus, [⟨0⟩, ⟨0⟩]⟩, ⟨⟨2⟩, .bool, .lessEq, [⟨0⟩, ⟨1⟩]⟩]
  constraints := []
  output := ⟨2⟩
  objectives := [⟨"lowest", ⟨1⟩, .minimize⟩, ⟨"highest", ⟨1⟩, .maximize⟩]
  style := .independent

/-- An answer with a model for each of the two objectives. -/
def Program.rivalLines : List String :=
  ["sat", "(objectives (s1 #x00))", "((s0 #x00))", "smtlink-multi-model-separator",
    "sat", "(objectives (s1 #xfe))", "((s0 #x7f))"]

namespace Dialogue

theorem prepare_rivals : ∃ q, standard.prepare .rivals = .ok q ∧
    q.table = Program.rivals.symbolTable ∧ q.expectedModels = 2 := by
  have passed : (Features.ofProgram .rivals).check Config.standard.capabilities = .ok () := by
    rw [Features.check, Script.universalObjectives_eq_nil rfl]
    rfl
  obtain ⟨script, built⟩ : ∃ script,
      Script.body Config.standard .rivals (Features.ofProgram .rivals) = .ok script := ⟨_, rfl⟩
  exact ⟨_, Except.bind_eq_ok.mpr ⟨_, Script.query_of_body passed built, rfl⟩, rfl, rfl⟩

/-- The models of the answer. -/
theorem interpret_rivals {q : PreparedQuery} (table : q.table = Program.rivals.symbolTable)
    (two : q.expectedModels = 2) :
    standard.interpret q Program.rivalLines =
      .ok [.satisfiable ⟨[⟨⟨0⟩, "x", .ofBits false 8 0⟩],
          [⟨"lowest", .finite (.ofBits false 8 0)⟩]⟩,
        .satisfiable ⟨[⟨⟨0⟩, "x", .ofBits false 8 127⟩],
          [⟨"lowest", .finite (.ofBits false 8 254)⟩]⟩] := by
  rw [interpret, two, if_neg (by decide), table, normalizer_eq]
  decide +kernel

/-- The second block of the answer. -/
theorem items_rivals {q : PreparedQuery} {block : List String}
    (here : standard.BlockAt q Program.rivalLines 1 block) :
    itemsOfLines standard.normalizer (block.drop 1) =
      [.app [.atom (.symbol "s1"), .atom (.int 254 (some 8))]] := by
  cases here with
  | @chunk _ part status several leading placed =>
    have first : (chunks standard.config.sentinel Program.rivalLines).head?.bind List.head? =
      some "sat" := by decide +kernel
    have second : (chunks standard.config.sentinel Program.rivalLines)[1]? =
      some ["sat", "(objectives (s1 #xfe))", "((s0 #x7f))"] := by decide +kernel
    cases first.symm.trans leading
    cases second.symm.trans placed
    decide +kernel

end Dialogue

/-- The values of an answer's model are those of the items of its block, read in order, and
every item over a word in an objectives list of the block is one of them. An item over a word
that is no input has the value of its literal at the kind of the word, under the name of the
first objective over the word. So where no item of another word is read under the name of an
objective, the model has the value of the first item over its word under this name exactly when
the first objective over the word has the same name, and otherwise nothing. -/
theorem Dialogue.objective?_iff_first {d : Dialogue} {p : Program} {q : PreparedQuery}
    (prepared : d.prepare p = .ok q) {lines : List String} {outcomes : List Outcome}
    (read : d.interpret q lines = .ok outcomes) {k : Nat} {o : Outcome} {m : Model}
    (placed : outcomes[k]? = some o) (model : o.model? = some m) :
    ∃ block, d.BlockAt q lines k block ∧
      List.Forall₂ (fun item v => ObjectiveValue.ofItem? p.symbolTable item = some v)
        (itemsOfLines d.normalizer (block.drop 1)) m.objectives ∧
      (∀ text ∈ Group.ofLines (block.drop 1), ∀ items,
        SExpr.parse text = .ok (.app (.atom (.symbol "objectives") :: items)) →
          ∀ id symbol value, WordId.ofSymbol? symbol = some id →
            .app [.atom (.symbol symbol), value] ∈ items →
              .app [.atom (.symbol symbol), value.normalize] ∈
                itemsOfLines d.normalizer (block.drop 1)) ∧
      ∀ goal ∈ p.objectives, (∀ i ∈ p.inputs, i.var.id ≠ goal.id) →
        ∃ kind first, p.wordKind? goal.id = some kind ∧
          p.objectives.find? (fun other => other.id = goal.id) = some first ∧
          ∀ before symbol value after, itemsOfLines d.normalizer (block.drop 1) =
              before ++ .app [.atom (.symbol symbol), value] :: after →
            WordId.ofSymbol? symbol = some goal.id → (∀ other ∈ before, ¬Names goal.id other) →
            ∃ e, ObjectiveValue.bound kind value = .ok e ∧ ⟨first.name, e⟩ ∈ m.objectives ∧
              ((∀ other ∈ itemsOfLines d.normalizer (block.drop 1), ∀ v,
                  ObjectiveValue.ofItem? p.symbolTable other = some v → v.name = goal.name →
                    Names goal.id other) →
                (m.objective? goal.name = some e ↔ first.name = goal.name) ∧
                (first.name ≠ goal.name → m.objective? goal.name = none)) := by
  obtain ⟨s, written, same⟩ := Except.bind_eq_ok.mp prepared
  cases same
  obtain ⟨block, here, strictness, said⟩ := exists_block read placed model
  have values := Model.objectives_ofLines said
  refine ⟨block, here, values, fun text group items parsed id symbol value named member =>
    d.normalizer_eq ▸ ObjectiveValue.mem_itemsOfLines group parsed named member,
    fun goal listed apart => ?_⟩
  obtain ⟨kind, introduced⟩ := Program.exists_wordKind? written listed
  obtain ⟨first, found⟩ : ∃ first,
      p.objectives.find? (fun other => other.id = goal.id) = some first :=
    Option.isSome_iff_exists.mp (List.find?_isSome.mpr ⟨goal, listed, by simp⟩)
  refine ⟨kind, first, introduced, found, fun before symbol value after split named fresh => ?_⟩
  obtain ⟨v, member, made⟩ : ∃ v ∈ m.objectives, ObjectiveValue.ofItem? p.symbolTable
      (.app [.atom (.symbol symbol), value]) = some v :=
    values.flip.exists_of_mem_right (split ▸ List.mem_append_right _ List.mem_cons_self)
  obtain ⟨name, bounded⟩ := Program.ofItem?_objective apart introduced found named made
  refine ⟨v.value, bounded, name ▸ member, fun clear => ?_⟩
  have absent : first.name ≠ goal.name → m.objective? goal.name = none := by
    intro other
    refine Model.objective?_eq_none values fun item inside w reads same => ?_
    -- an item under the name would be over the word, and so under the other name
    obtain ⟨symbol', value', named', rfl⟩ := clear item inside w reads same
    obtain ⟨name', -⟩ := Program.ofItem?_objective apart introduced found named' reads
    exact other (name'.symm.trans same)
  refine ⟨⟨fun some => ?_, fun same => ?_⟩, absent⟩
  · by_contra other
    rw [absent other] at some
    cases some
  · have found := Model.find?_of_first (split ▸ values) made fun item inside w reads under =>
      fresh item inside (clear item (split ▸ List.mem_append_left _ inside) w reads
        ((under.trans name).trans same))
    rw [Model.objective?, ← same, ← name, found]
    rfl

/-- In the second block the value of the sum is found under the name of the objective that is
minimized, which is the first over the sum, although only the other one is active. -/
theorem Dialogue.objective?_iff_first_rivals :
    ∃ q outcomes m, standard.prepare .rivals = .ok q ∧
      standard.interpret q Program.rivalLines = .ok outcomes ∧
      outcomes[1]?.bind Outcome.model? = some m ∧
      m.objective? "lowest" = some (.finite (.ofBits false 8 254)) ∧
      m.objective? "highest" = none := by
  obtain ⟨q, prepared, table, two⟩ := prepare_rivals
  have read := interpret_rivals table two
  refine ⟨q, _, _, prepared, read, rfl, ?_⟩
  obtain ⟨block, here, -, -, goals⟩ := objective?_iff_first prepared read (k := 1) rfl rfl
  have items := items_rivals here
  have clear : ∀ name, ∀ other ∈ itemsOfLines standard.normalizer (block.drop 1), ∀ v,
      ObjectiveValue.ofItem? Program.rivals.symbolTable other = some v → v.name = name →
        Names ⟨1⟩ other := by
    intro name other inside v _ _
    rw [items, List.mem_singleton] at inside
    exact ⟨"s1", _, by decide, inside⟩
  constructor
  · obtain ⟨kind, first, introduced, found, each⟩ :=
      goals ⟨"lowest", ⟨1⟩, .minimize⟩ (by decide) (by decide)
    obtain ⟨e, bounded, -, named⟩ := each [] "s1" _ [] items (by decide) (by simp)
    cases introduced
    cases found
    cases bounded
    exact (named (clear _)).1.mpr rfl
  · obtain ⟨kind, first, introduced, found, each⟩ :=
      goals ⟨"highest", ⟨1⟩, .maximize⟩ (by decide) (by decide)
    obtain ⟨e, -, -, named⟩ := each [] "s1" _ [] items (by decide) (by simp)
    cases found
    exact (named (clear _)).2 (by decide)

/-- The objective that is maximized is over no input, and the block in which it is active has
an item for its word, but nothing is found under its name. -/
theorem Dialogue.objective?_rivals :
    ∃ q outcomes m block, standard.prepare .rivals = .ok q ∧
      standard.interpret q Program.rivalLines = .ok outcomes ∧
      outcomes[1]? = some (.satisfiable m) ∧ standard.BlockAt q Program.rivalLines 1 block ∧
      itemsOfLines standard.normalizer (block.drop 1) =
        [.app [.atom (.symbol "s1"), .atom (.int 254 (some 8))]] ∧
      ∃ goal, Program.rivals.objectives[1]? = some goal ∧ goal.goal = .maximize ∧
        (∀ i ∈ Program.rivals.inputs, i.var.id ≠ goal.id) ∧
        WordId.ofSymbol? "s1" = some goal.id ∧ m.objective? goal.name = none := by
  obtain ⟨q, prepared, table, two⟩ := prepare_rivals
  have read := interpret_rivals table two
  obtain ⟨block, here, -⟩ := exists_block read (k := 1) rfl rfl
  exact ⟨q, _, _, block, prepared, read, rfl, here, items_rivals here, _, rfl, rfl,
    by decide, by decide, by decide⟩

end SmtDialogue
