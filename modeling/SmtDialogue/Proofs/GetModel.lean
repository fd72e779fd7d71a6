import SmtDialogue.Proofs.Contexts
import SmtDialogue.Proofs.Exchange
import SmtDialogue.Proofs.Rearrangement

/-!
# Models as definitions

A solver prints a whole model as a list of definitions, one for each word that was declared.
The inputs before every universal one are constants, and their definitions are read like the
pairs that a query asks for. An input behind a universal one is declared as a function of
the universal ones before it, so its definition has parameters. Its word is in the table,
and a definition with parameters is no value of a word: a strict reading stops there.
-/

namespace SmtDialogue

/-- The word that a command declares, with the number of its arguments. -/
def Command.declaredWord? : Command → Option (WordId × Nat)
  | .declare (.word id) args _ _ => some (id, args.length)
  | _ => none

theorem Command.declaredWord?_objective (o : Objective) : o.command.declaredWord? = none := by
  rw [Objective.command]
  split <;> rfl

namespace Script

/-- The words that a script declares, each with the number of its arguments. -/
def declaredWords (s : Script) : List (WordId × Nat) :=
  s.commands.filterMap Command.declaredWord?

section

variable {quantifier : Input → Quantifier} {before : List Variable} {inputs : List Input}

theorem filterMap_declaredWord? :
    (declarations quantifier before inputs).filterMap Command.declaredWord? =
      (signatures quantifier before inputs).map fun w => (w.1, w.2.args.length) := by
  rw [← filterMap_declarations, List.map_filterMap]
  refine List.filterMap_congr fun command member => ?_
  obtain ⟨i, _, rfl | ⟨universals, _, rfl⟩⟩ := mem_declarations quantifier member <;> rfl

theorem signatures_eq_nil_iff :
    signatures quantifier before inputs = [] ↔ ∀ i ∈ inputs, quantifier i = .all := by
  induction inputs generalizing before with
  | nil => simp [signatures]
  | cons i rest ih =>
    rw [List.forall_mem_cons]
    cases prefixed : quantifier i with
    | all => simp [signatures, prefixed, ih]
    | exist => simp [signatures, prefixed]

/-- Behind a universal input every word has arguments. -/
theorem args_ne_nil (some : before ≠ []) :
    ∀ w ∈ signatures quantifier before inputs, w.2.args ≠ [] := by
  induction inputs generalizing before with
  | nil => simp [signatures]
  | cons i rest ih =>
    cases prefixed : quantifier i with
    | all => simpa [signatures, prefixed] using @ih (before ++ [i.var]) (by simp)
    | exist => simpa [signatures, prefixed, some] using ih some

/-- The inputs before every universal one are constants. -/
theorem signatures_eq_append (inputs : List Input) :
    signatures quantifier [] inputs =
      ((inputs.takeWhile fun i => quantifier i = .exist).map fun i =>
        (i.var.id, .constant i.var.kind)) ++
      signatures quantifier [] (inputs.dropWhile fun i => quantifier i = .exist) := by
  induction inputs with
  | nil => rfl
  | cons i rest ih =>
    cases prefixed : quantifier i with
    | all => simp [prefixed]
    | exist => simp [signatures, prefixed, ih, Signature.constant]

theorem args_dropWhile_ne_nil (inputs : List Input) :
    ∀ w ∈ signatures quantifier [] (inputs.dropWhile fun i => quantifier i = .exist),
      w.2.args ≠ [] := by
  induction inputs with
  | nil => simp [signatures]
  | cons i rest ih =>
    cases prefixed : quantifier i with
    | all => simpa [signatures, prefixed] using @args_ne_nil quantifier [i.var] rest (by simp)
    | exist => simpa [prefixed] using ih

end

/-- No command around those of the inputs declares a word. -/
theorem commands_around_opening {c : Config} {p : Program} {f : Features} {s : Script}
    (built : body c p f = .ok s) (distinct : (p.words.map Prod.fst).Nodup) :
    ∃ front back, s.commands = front ++ ((opening p).commands ++ back) ∧
      ∀ command ∈ front ++ back, command.declaredWord? = none := by
  obtain ⟨parts, shape, _, commands⟩ := body_eq_ok built
  obtain ⟨ds, _, arranged⟩ := shape.layout distinct
  rw [← List.append_assoc] at commands
  refine ⟨_, _, commands, fun command member => ?_⟩
  simp only [arranged.commands, List.mem_append, List.mem_map] at member
  rcases member with (header | ⟨_, _, rfl⟩) | ⟨_, _, rfl⟩ | ⟨_, _, rfl⟩ | array | ⟨_, _, rfl⟩ |
    ⟨_, _, rfl⟩ | entry | assertion | shared
  · have silent := silent_header c p f command header
    cases command <;> first | exact silent.elim | rfl
  · rfl
  · rfl
  · rfl
  · obtain ⟨a, _, written⟩ := shape.arrays.exists_of_mem_right array
    obtain rfl | ⟨_, _, rfl⟩ := ArrayDecl.command_eq_ok written <;> rfl
  · rfl
  · rfl
  · obtain ⟨t, _, _, _, written⟩ := Table.exists_of_mem_entries shape.entries entry
    obtain ⟨_, _, _, rfl⟩ := Table.entryCommand_eq_ok written
    rfl
  · rw [assertions] at assertion
    split at assertion
    · rcases List.mem_append.mp assertion with constraint | goal
      · obtain ⟨_, _, rfl⟩ := List.mem_map.mp constraint
        rfl
      · rw [List.mem_singleton.mp goal]
        rfl
    · rw [List.mem_singleton.mp assertion]
      rfl
  · rw [sharedObjectives] at shared
    split at shared
    · cases shared
    · obtain ⟨o, _, rfl⟩ := List.mem_map.mp shared
      exact Command.declaredWord?_objective o

/-- A query declares its existential inputs, with the universal ones before each. -/
theorem declaredWords_query {c : Config} {p : Program} {s : Script}
    (written : query c p = .ok s) (distinct : (p.words.map Prod.fst).Nodup) :
    s.declaredWords =
      (signatures p.quantifier [] p.inputs).map fun w => (w.1, w.2.args.length) := by
  obtain ⟨_, script, built, rfl⟩ := query_eq_ok written
  obtain ⟨front, back, commands, around⟩ := commands_around_opening built distinct
  obtain ⟨first, last⟩ := List.forall_mem_append.mp around
  have run : ∀ command ∈ runs c p, command.declaredWord? = none := by
    intro command member
    cases runs_of_mem member with
    | objective _ => exact Command.declaredWord?_objective _
    | _ => rfl
  rw [declaredWords, commands_append, commands_ofCommands, commands, (opening_eq p).1]
  simp only [List.filterMap_append, List.filterMap_eq_nil_iff.mpr first,
    List.filterMap_eq_nil_iff.mpr last, List.filterMap_eq_nil_iff.mpr run,
    filterMap_declaredWord?, List.nil_append, List.append_nil]

end Script

/-- A symbol that a model defines, with its parameters, its sort and its body. -/
structure ModelDefinition where
  symbol : String
  params : List (String × SExpr)
  sort : SExpr
  body : SExpr

namespace ModelDefinition

def paramTree (x : String × SExpr) : SExpr :=
  .app [.atom (.symbol x.1), x.2]

def tree (e : ModelDefinition) : SExpr :=
  .app [.atom (.symbol "define-fun"), .atom (.symbol e.symbol), .app (e.params.map paramTree),
    e.sort, e.body]

/-- The tree of a whole model, which may be headed by `model`. -/
def modelTree (headed : Bool) (es : List ModelDefinition) : SExpr :=
  .app ((if headed then [.atom (.symbol "model")] else []) ++ es.map tree)

/-- The word that is defined, with the number of its parameters. -/
def word? (e : ModelDefinition) : Option (WordId × Nat) :=
  (WordId.ofSymbol? e.symbol).map fun id => (id, e.params.length)

/-- Whether a word is defined as a function. -/
def isFunction (e : ModelDefinition) : Bool :=
  e.word?.any fun w => w.2 ≠ 0

/-- Parameters never disappear from a definition. -/
theorem normalize_params_ne_nil {params : List (String × SExpr)} (some : params ≠ []) :
    SExpr.normalize (.app (params.map paramTree)) ≠ .app [] := by
  obtain ⟨x, rest, rfl⟩ := List.exists_cons_of_ne_nil some
  have place : SExpr.wrappedPlace? ((x :: rest).map paramTree) = none := rfl
  rw [SExpr.normalize, place, SExpr.normalizeList_eq_map]
  dsimp only [Option.bind_none]
  rcases SExpr.fold_cases (((x :: rest).map paramTree).map SExpr.normalize) with stays |
    ⟨a, folds, _⟩
  · rw [stays]
    simp
  · rw [folds]
    simp

theorem normalize_tree (e : ModelDefinition) :
    SExpr.normalize e.tree = .app [.atom (.symbol "define-fun"), .atom (.symbol e.symbol),
      SExpr.normalize (.app (e.params.map paramTree)), SExpr.normalize e.sort,
      SExpr.normalize e.body] := by
  have place : ∀ rest, SExpr.wrappedPlace? (.atom (.symbol "define-fun") :: rest) = none :=
    fun _ => rfl
  rw [tree, SExpr.normalize, place]
  simp only [Option.bind_none, SExpr.normalizeList]
  exact SExpr.fold_symbol (by decide) _

theorem symbol?_tree (e : ModelDefinition) :
    Binding.symbol? (SExpr.normalize e.tree) = some e.symbol := by
  rw [normalize_tree]
  rfl

/-- A definition gives its symbol a value when it has no parameters. -/
theorem value?_tree (e : ModelDefinition) :
    Binding.value? (SExpr.normalize e.tree) =
      if e.params = [] then some (SExpr.normalize e.body) else none := by
  rw [normalize_tree, Binding.value?]
  by_cases none : e.params = []
  · rw [if_pos none, none]
    rfl
  · have params := normalize_params_ne_nil none
    simp [none, params]

theorem normalize_modelTree (headed : Bool) (es : List ModelDefinition) :
    Binding.items? (SExpr.normalize (modelTree headed es)) =
        some (es.map fun e => SExpr.normalize e.tree) ∧
      ObjectiveValue.isObjectives (SExpr.normalize (modelTree headed es)) = false := by
  have apps : ∀ item ∈ es.map fun e => SExpr.normalize e.tree, item.isAtom = false := by
    intro item member
    obtain ⟨e, _, rfl⟩ := List.mem_map.mp member
    rw [normalize_tree]
    rfl
  cases headed with
  | true =>
    have whole := SExpr.normalize_model (es.map tree)
    rw [List.map_map] at whole
    rw [modelTree, if_pos rfl, List.singleton_append, whole]
    exact ⟨rfl, rfl⟩
  | false =>
    have whole : SExpr.normalize (.app (es.map tree)) =
        .app (es.map fun e => SExpr.normalize e.tree) := by
      rw [SExpr.normalize_apps, List.map_map]
      · rfl
      · intro item member
        obtain ⟨e, listed, rfl⟩ := List.mem_map.mp member
        exact apps _ (List.mem_map_of_mem listed)
    rw [modelTree, if_neg Bool.false_ne_true, List.nil_append, whole]
    exact ⟨Binding.items?_of_apps apps, ObjectiveValue.isObjectives_of_apps apps⟩

end ModelDefinition

/-- The literal of an exact value is no application, so nothing in it is normalized. -/
theorem Value.parse_literal {v : Value} (exact : v.Exact) {e : SExpr}
    (parsed : SExpr.parse v.literal = .ok e) :
    SExpr.normalize e = e ∧ decode v.kind e = .ok v := by
  obtain ⟨f, same, decoded⟩ := exact
  obtain rfl := Except.ok.inj (same.symm.trans parsed)
  obtain ⟨a, rfl⟩ := exists_atom_of_decode decoded
  exact ⟨rfl, decoded⟩

/-- The binding of a word to its value, under the name it is reported by. -/
def Program.bindingOf (p : Program) (value : WordId → Value) (id : WordId) : Binding :=
  ⟨id, p.reportedName id, value id⟩

namespace ModelDefinition

/-- What the definition of a word makes when the words of a program have these values. -/
def item (p : Program) (value : WordId → Value) (e : ModelDefinition) : Binding.Item :=
  match e.word? with
  | none => .ignored
  | some (id, 0) => .bound (p.bindingOf value id)
  | some (_, _ + 1) => .rejected (.unrecognizedShape (SExpr.normalize e.tree))

variable {p : Program} {value : WordId → Value} {e : ModelDefinition} {es : List ModelDefinition}

/-- A definition is read for the word of its symbol. -/
theorem readItem_tree (distinct : (p.words.map Prod.fst).Nodup)
    (known : ∀ w, e.word? = some w → ∃ i ∈ p.inputs, i.var.id = w.1)
    (constant : ∀ id, e.word? = some (id, 0) →
      p.Takes id (value id) ∧ SExpr.parse (value id).literal = .ok e.body) :
    Binding.readItem p.symbolTable (SExpr.normalize e.tree) = .ok (e.item p value) := by
  rw [Binding.readItem, symbol?_tree, item]
  dsimp only
  cases named : WordId.ofSymbol? e.symbol with
  | none =>
    have unresolved : p.symbolTable.resolve e.symbol = .ok none := by
      rw [SymbolTable.resolve, named]
    rw [unresolved, word?, named]
    rfl
  | some id =>
    have word : e.word? = some (id, e.params.length) := by rw [word?, named]; rfl
    obtain ⟨i, listed, rfl⟩ := known _ word
    have resolved := SymbolTable.resolve_of_ofSymbol? named
      (Program.resolve_input distinct listed)
    rw [resolved, word, value?_tree]
    cases params : e.params with
    | cons x rest => simp
    | nil =>
      rw [params] at word
      obtain ⟨takes, parsed⟩ := constant i.var.id word
      obtain ⟨unchanged, decoded⟩ := Value.parse_literal takes.exact parsed
      have kind := takes.kind
      rw [Program.wordKind?_input distinct listed] at kind
      rw [← Option.some.inj kind] at decoded
      simp [unchanged, decoded, Program.bindingOf, Program.reportedName_input distinct listed]

/-- The first function stops a strict reading; without one every word is bound. -/
theorem readItems_tree {table : SymbolTable}
    (each : ∀ e ∈ es, Binding.readItem table (SExpr.normalize e.tree) = .ok (e.item p value))
    (fail : DecodeFailure → AnswerError) :
    Binding.readItems table .strict fail (es.map fun e => SExpr.normalize e.tree) =
      match es.find? isFunction with
      | some e => .error (fail (.unrecognizedShape (SExpr.normalize e.tree)))
      | none => .ok ((es.filterMap word?).map fun w => p.bindingOf value w.1) := by
  induction es with
  | nil => rfl
  | cons e rest ih =>
    obtain ⟨first, others⟩ := List.forall_mem_cons.mp each
    rw [List.map_cons, Binding.readItems, first, ih others]
    cases word : e.word? with
    | none => simp [item, isFunction, word]
    | some w =>
      obtain ⟨id, _ | n⟩ := w
      · cases found : rest.find? isFunction <;>
          simp [item, isFunction, word, found, Except.map]
      · simp [item, isFunction, word]

end ModelDefinition

/-- The inputs from the first universal one on. -/
def Program.trailingInputs (p : Program) : List Input :=
  p.inputs.dropWhile fun i => p.quantifier i = .exist

/-- Lines that are one whole model: each word that the query declares is defined once, with
as many parameters as it was declared with, and a constant by the literal of its value. The rest
can be anything that does not overflow. -/
structure PreparedQuery.Defined (q : PreparedQuery) (value : WordId → Value) (headed : Bool)
    (es : List ModelDefinition) (lines : List String) (text : String) : Prop where
  words : (es.filterMap ModelDefinition.word?).Perm q.script.declaredWords
  literals : ∀ e ∈ es, ∀ id, e.word? = some (id, 0) → SExpr.parse (value id).literal = .ok e.body
  group : Group.ofLines lines = [text]
  read : SExpr.parse text = .ok (ModelDefinition.modelTree headed es)
  fits : (SExpr.normalize (ModelDefinition.modelTree headed es)).overflows = false

/-- Lines that are one model of definitions are read like the list of them. -/
theorem Outcome.classify_definitions {table : SymbolTable} {lines : List String} {text : String}
    {headed : Bool} {es : List ModelDefinition} (group : Group.ofLines lines = [text])
    (read : SExpr.parse text = .ok (ModelDefinition.modelTree headed es))
    (fits : (SExpr.normalize (ModelDefinition.modelTree headed es)).overflows = false) :
    classify SExpr.normalize table ("sat" :: lines) =
      (Binding.readItems table .strict
        (.undecodable text (SExpr.normalize (ModelDefinition.modelTree headed es)))
        (es.map fun e => SExpr.normalize e.tree)).map fun bs =>
          .satisfiable ⟨Keyed.ofList Binding.id bs, []⟩ := by
  obtain ⟨items, objectives⟩ := ModelDefinition.normalize_modelTree headed es
  rw [classify_sat, Model.ofLines_eq, group, List.mapM_cons, List.mapM_nil, Report.ofGroup, read]
  simp only [fits, objectives, Binding.extract, items, Bool.false_eq_true, if_false]
  cases Binding.readItems table .strict
    (.undecodable text (SExpr.normalize (ModelDefinition.modelTree headed es)))
    (es.map fun e => SExpr.normalize e.tree) with
  | error e => rfl
  | ok bs =>
    have alone : [bs].flatten = bs := List.flatten_singleton
    exact congrArg (fun bs => Except.ok (Outcome.satisfiable ⟨Keyed.ofList Binding.id bs, []⟩))
      alone

namespace Dialogue

section

variable {d : Dialogue} {p : Program} {q : PreparedQuery} {value : WordId → Value} {headed : Bool}
  {es : List ModelDefinition} {lines : List String} {text : String}

theorem declaredWords_eq (distinct : (p.words.map Prod.fst).Nodup)
    (prepared : d.prepare p = .ok q) : q.script.declaredWords =
      (Script.signatures p.quantifier [] p.inputs).map fun w => (w.1, w.2.args.length) := by
  obtain ⟨script, written, same⟩ := Except.bind_eq_ok.mp prepared
  cases same
  exact Script.declaredWords_query written distinct

/-- The words a query declares are its leading inputs as constants, and those existential
inputs that have universal ones before them as functions. -/
theorem declaredWords_prepared (distinct : (p.words.map Prod.fst).Nodup)
    (prepared : d.prepare p = .ok q) :
    ∃ functions : List (WordId × Nat),
      q.script.declaredWords = (p.leadingInputs.map fun i => (i.var.id, 0)) ++ functions ∧
      (∀ w ∈ functions, w.2 ≠ 0 ∧ ∃ i ∈ p.inputs, i.var.id = w.1) ∧
      (functions = [] ↔ ∀ i ∈ p.trailingInputs, p.quantifier i = .all) := by
  refine ⟨(Script.signatures p.quantifier [] p.trailingInputs).map
    fun w => (w.1, w.2.args.length), ?_, ?_, ?_⟩
  · rw [declaredWords_eq distinct prepared, Script.signatures_eq_append, List.map_append,
      List.map_map]
    rfl
  · intro w member
    obtain ⟨s, listed, rfl⟩ := List.mem_map.mp member
    have args := Script.args_dropWhile_ne_nil p.inputs s listed
    have input := Script.sublist_signatures.subset (List.mem_map_of_mem listed)
    obtain ⟨i, trailing, same⟩ := List.mem_map.mp input
    exact ⟨by simpa using args, i, (List.dropWhile_sublist _).subset trailing, same⟩
  · rw [List.map_eq_nil_iff, Script.signatures_eq_nil_iff]

/-- Each definition of an answer is read for what it defines. -/
theorem readItem_defined (distinct : (p.words.map Prod.fst).Nodup)
    (prepared : d.prepare p = .ok q) (values : ∀ id ∈ p.modelInputs, p.Takes id (value id))
    (defined : q.Defined value headed es lines text) :
    ∀ e ∈ es, Binding.readItem p.symbolTable (SExpr.normalize e.tree) = .ok (e.item p value) := by
  obtain ⟨functions, declared, kept, _⟩ := declaredWords_prepared distinct prepared
  intro e listed
  have told : ∀ w, e.word? = some w →
      w ∈ (p.leadingInputs.map fun i => (i.var.id, 0)) ++ functions := by
    intro w word
    rw [← declared]
    exact defined.words.mem_iff.mp (List.mem_filterMap.mpr ⟨e, listed, word⟩)
  refine ModelDefinition.readItem_tree distinct (fun w word => ?_) fun id word => ?_
  · rcases List.mem_append.mp (told w word) with constant | function
    · obtain ⟨i, member, rfl⟩ := List.mem_map.mp constant
      exact ⟨i, (List.takeWhile_sublist _).subset member, rfl⟩
    · exact (kept w function).2
  · refine ⟨?_, defined.literals e listed id word⟩
    rcases List.mem_append.mp (told _ word) with constant | function
    · obtain ⟨i, member, same⟩ := List.mem_map.mp constant
      cases same
      exact values _ (List.mem_map_of_mem member)
    · exact absurd rfl (kept _ function).1

theorem interpretOne_eq (distinct : (p.words.map Prod.fst).Nodup)
    (prepared : d.prepare p = .ok q) (values : ∀ id ∈ p.modelInputs, p.Takes id (value id))
    (defined : q.Defined value headed es lines text) :
    d.interpretOne q ("sat" :: lines) =
      match es.find? ModelDefinition.isFunction with
      | some e => .error (.undecodable text
          (SExpr.normalize (ModelDefinition.modelTree headed es))
          (.unrecognizedShape (SExpr.normalize e.tree)))
      | none => .ok (.satisfiable ⟨Keyed.ofList Binding.id
          ((es.filterMap ModelDefinition.word?).map fun w => p.bindingOf value w.1), []⟩) := by
  have table : q.table = p.symbolTable := by
    obtain ⟨script, _, same⟩ := Except.bind_eq_ok.mp prepared
    cases same
    rfl
  rw [interpretOne, d.normalizer_eq, table,
    Outcome.classify_definitions defined.group defined.read defined.fits,
    ModelDefinition.readItems_tree (readItem_defined distinct prepared values defined)]
  cases es.find? ModelDefinition.isFunction <;> rfl

/-- The bindings of the leading inputs are those of their words. -/
theorem map_bindingOf (distinct : (p.words.map Prod.fst).Nodup) (value : WordId → Value) :
    (p.leadingInputs.map fun i => (i.var.id, 0)).map (fun w => p.bindingOf value w.1) =
      p.leadingInputs.map fun i => ⟨i.var.id, i.var.name, value i.var.id⟩ := by
  rw [List.map_map]
  refine List.map_congr_left fun i member => ?_
  have name := Program.reportedName_input distinct ((List.takeWhile_sublist _).subset member)
  simp [Program.bindingOf, name]

/-- A satisfiable answer that defines the words of a query in one expression is read as the
values of the leading inputs when no existential input has a universal one before it.
Otherwise some word is defined with parameters, and the first such definition is an error. -/
theorem interpretOne_definitions (distinct : (p.words.map Prod.fst).Nodup)
    (prepared : d.prepare p = .ok q) (values : ∀ id ∈ p.modelInputs, p.Takes id (value id))
    (defined : q.Defined value headed es lines text) :
    ((∀ i ∈ p.trailingInputs, p.quantifier i = .all) →
      ∃ m, d.interpretOne q ("sat" :: lines) = .ok (.satisfiable m) ∧
        m.bindings.Perm
          (p.leadingInputs.map fun i => ⟨i.var.id, i.var.name, value i.var.id⟩) ∧
        (m.bindings.Pairwise fun a b => a.id.index < b.id.index) ∧ m.objectives = []) ∧
    ((∃ i ∈ p.trailingInputs, p.quantifier i = .exist) →
      ∃ e, es.find? ModelDefinition.isFunction = some e ∧
        d.interpretOne q ("sat" :: lines) =
          .error (.undecodable text (SExpr.normalize (ModelDefinition.modelTree headed es))
            (.unrecognizedShape (SExpr.normalize e.tree)))) := by
  obtain ⟨functions, declared, kept, none⟩ := declaredWords_prepared distinct prepared
  have words := defined.words
  rw [declared] at words
  have outcome := interpretOne_eq distinct prepared values defined
  constructor
  · intro universal
    rw [none.mpr universal, List.append_nil] at words
    have constants : es.find? ModelDefinition.isFunction = Option.none := by
      refine List.find?_eq_none.mpr fun e listed function => ?_
      obtain ⟨w, word, some⟩ := (Option.any_eq_true _ _).mp function
      obtain ⟨i, _, rfl⟩ :=
        List.mem_map.mp (words.mem_iff.mp (List.mem_filterMap.mpr ⟨e, listed, word⟩))
      simp at some
    have bound := words.map fun w => p.bindingOf value w.1
    have apart := (Program.distinct_inputs distinct).sublist
      ((List.takeWhile_sublist fun i => p.quantifier i = .exist).map fun i => i.var.id)
    rw [map_bindingOf distinct] at bound
    have once := (bound.map Binding.id).nodup_iff.mpr
      (by simpa [Function.comp_def, Program.leadingInputs] using apart)
    obtain ⟨perm, ascending⟩ := Keyed.ofList_spec once
    rw [constants] at outcome
    exact ⟨_, outcome, perm.trans bound, ascending, rfl⟩
  · rintro ⟨i, trailing, exist⟩
    have some : functions ≠ [] := fun empty => by
      rw [none.mp empty i trailing] at exist
      cases exist
    obtain ⟨w, member⟩ := List.exists_mem_of_ne_nil functions some
    obtain ⟨e, listed, word⟩ :=
      List.mem_filterMap.mp (words.mem_iff.mpr (List.mem_append_right _ member))
    have function : e.isFunction = true := by
      rw [ModelDefinition.isFunction, word]
      simpa using (kept w member).1
    obtain ⟨first, found⟩ := Option.isSome_iff_exists.mp
      (List.find?_isSome.mpr ⟨e, listed, function⟩)
    rw [found] at outcome
    exact ⟨first, found, outcome⟩

end

end Dialogue

/-- A number before a universal one, and another one behind it. -/
def Program.duel (last : Quantifier) : Program where
  polarity := .satisfy
  sorts := []
  inputs := [⟨.exist, ⟨⟨0⟩, "x", .integer⟩⟩, ⟨.all, ⟨⟨1⟩, "y", .integer⟩⟩,
    ⟨last, ⟨⟨2⟩, "z", .integer⟩⟩]
  constants := []
  tables := []
  arrays := []
  functions := []
  assumptions := []
  assignments := [⟨⟨3⟩, .integer, .plus, [⟨1⟩, ⟨2⟩]⟩, ⟨⟨4⟩, .bool, .lessEq, [⟨0⟩, ⟨3⟩]⟩]
  constraints := []
  output := ⟨4⟩
  objectives := []
  style := .lexicographic

namespace ModelDefinition

/-- The first number is minus three. -/
def opener : ModelDefinition where
  symbol := "s0"
  params := []
  sort := .atom (.symbol "Int")
  body := .atom (.int (-3) none)

/-- The last number is the universal one. -/
def reply : ModelDefinition where
  symbol := "s2"
  params := [("x!0", .atom (.symbol "Int"))]
  sort := .atom (.symbol "Int")
  body := .atom (.symbol "x!0")

end ModelDefinition

namespace Dialogue

theorem distinct_duel (last : Quantifier) : ((Program.duel last).words.map Prod.fst).Nodup := by
  have words : (Program.duel last).words.map Prod.fst = [⟨0⟩, ⟨1⟩, ⟨2⟩, ⟨3⟩, ⟨4⟩] := rfl
  rw [words]
  decide

theorem prepare_duel (last : Quantifier) : ∃ q, standard.prepare (.duel last) = .ok q ∧
    q.table = (Program.duel last).symbolTable := by
  have passed : (Features.ofProgram (.duel last)).check Config.standard.capabilities = .ok () := by
    have none : (Features.ofProgram (.duel last)).universalObjectives = [] := by
      simp [Features.ofProgram, Program.duel]
    rw [Features.check, none]
    cases last <;> rfl
  obtain ⟨script, built⟩ : ∃ script, Script.body Config.standard (.duel last)
      (Features.ofProgram (.duel last)) = .ok script := by
    cases last <;> exact ⟨_, rfl⟩
  exact ⟨_, Except.bind_eq_ok.mpr ⟨_, Script.query_of_body passed built, rfl⟩, rfl⟩

theorem takes_duel (last : Quantifier) :
    ∀ id ∈ (Program.duel last).modelInputs, (Program.duel last).Takes id (.ofInteger (-3)) := by
  have exact : (Value.ofInteger (-3)).Exact := ⟨.atom (.int (-3) none), by decide +kernel, rfl⟩
  intro id member
  obtain rfl : id = ⟨0⟩ := by
    simpa [Program.modelInputs, Program.duel, Program.quantifier] using member
  exact ⟨rfl, exact⟩

theorem literals_duel : ∀ e ∈ [ModelDefinition.opener, .reply], ∀ id, e.word? = some (id, 0) →
    SExpr.parse (Value.ofInteger (-3)).literal = .ok e.body := by
  intro e listed id word
  have first : SExpr.parse (Value.ofInteger (-3)).literal =
      .ok ModelDefinition.opener.body := by decide +kernel
  have second : ModelDefinition.reply.word? = some (⟨2⟩, 1) := by decide +kernel
  rcases List.mem_cons.mp listed with rfl | listed
  · exact first
  · rw [List.mem_singleton.mp listed, second] at word
    cases word

/-- Both definitions of the game with an answer. -/
theorem defined_duel {q : PreparedQuery} (prepared : standard.prepare (.duel .exist) = .ok q) :
    q.Defined (fun _ => .ofInteger (-3)) false [.opener, .reply]
      ["((define-fun s0 () Int (- 3))", " (define-fun s2 ((x!0 Int)) Int x!0))"]
      "((define-fun s0 () Int (- 3))\n (define-fun s2 ((x!0 Int)) Int x!0))" where
  words := by
    rw [declaredWords_eq (distinct_duel .exist) prepared]
    exact .of_eq rfl
  literals := literals_duel
  group := by decide +kernel
  read := by decide +kernel
  fits := by decide +kernel

/-- Without an answer the number is read from its definition, and with one the definition of
the answer is an error. -/
theorem interpretOne_definitions_duel :
    (∃ q, standard.prepare (.duel .all) = .ok q ∧ ∃ m,
      standard.interpretOne q ["sat", "(model (define-fun s0 () Int", "  (- 3)))"] =
        .ok (.satisfiable m) ∧ m.bindings = [⟨⟨0⟩, "x", .ofInteger (-3)⟩]) ∧
    ∃ q, standard.prepare (.duel .exist) = .ok q ∧ ∃ text tree,
      standard.interpretOne q ["sat", "((define-fun s0 () Int (- 3))",
          " (define-fun s2 ((x!0 Int)) Int x!0))"] =
        .error (.undecodable text tree (.unrecognizedShape ModelDefinition.reply.tree)) := by
  constructor
  · obtain ⟨q, prepared, _⟩ := prepare_duel .all
    have defined : q.Defined (fun _ => .ofInteger (-3)) true [.opener]
        ["(model (define-fun s0 () Int", "  (- 3)))"]
        "(model (define-fun s0 () Int\n  (- 3)))" :=
      { words := by
          rw [declaredWords_eq (distinct_duel .all) prepared]
          exact .of_eq rfl
        literals := fun e listed =>
          literals_duel e (List.mem_cons.mpr (.inl (List.mem_singleton.mp listed)))
        group := by decide +kernel
        read := by decide +kernel
        fits := by decide +kernel }
    obtain ⟨m, read, bindings, _⟩ := (interpretOne_definitions (distinct_duel .all) prepared
      (takes_duel .all) defined).1
      (by simp [Program.trailingInputs, Program.duel, Program.quantifier])
    refine ⟨q, prepared, m, read, List.perm_singleton.mp (bindings.trans (.of_eq ?_))⟩
    rfl
  · obtain ⟨q, prepared, _⟩ := prepare_duel .exist
    obtain ⟨e, first, fails⟩ := (interpretOne_definitions (distinct_duel .exist) prepared
      (takes_duel .exist) (defined_duel prepared)).2
      (by simp [Program.trailingInputs, Program.duel, Program.quantifier])
    have constant : ModelDefinition.opener.isFunction = false := by decide +kernel
    have function : ModelDefinition.reply.isFunction = true := by decide +kernel
    rw [List.find?_cons_of_neg (by simp [constant]), List.find?_cons_of_pos function] at first
    cases first
    exact ⟨q, prepared, _, _, fails⟩

/-- A prepared query declares a word that its answer cannot define. -/
theorem interpretOne_definitions_reply :
    ¬∀ (d : Dialogue) (p : Program) (q : PreparedQuery) (value : WordId → Value) (headed : Bool)
      (es : List ModelDefinition) (lines : List String) (text : String),
      (p.words.map Prod.fst).Nodup → d.prepare p = .ok q →
        (∀ id ∈ p.modelInputs, p.Takes id (value id)) → q.Defined value headed es lines text →
          ∃ m, d.interpretOne q ("sat" :: lines) = .ok (.satisfiable m) ∧
            m.bindings.Perm
              (p.leadingInputs.map fun i => ⟨i.var.id, i.var.name, value i.var.id⟩) := by
  intro satisfiable
  obtain ⟨q, prepared, table⟩ := prepare_duel .exist
  obtain ⟨m, read, _⟩ := satisfiable standard _ q _ _ _ _ _ (distinct_duel .exist) prepared
    (takes_duel .exist) (defined_duel prepared)
  have fails : (Outcome.classify SExpr.normalize (Program.duel .exist).symbolTable
      ["sat", "((define-fun s0 () Int (- 3))", " (define-fun s2 ((x!0 Int)) Int x!0))"]).isOk =
        false := by decide +kernel
  rw [interpretOne, normalizer_eq, table] at read
  rw [read] at fails
  cases fails

end Dialogue

end SmtDialogue
