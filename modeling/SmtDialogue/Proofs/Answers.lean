import SmtDialogue.Answer.Outcome
import SmtDialogue.Proofs.Exact
import SmtDialogue.Proofs.Legible
import SmtDialogue.Proofs.Reports
import SmtDialogue.Proofs.Transcript

/-!
# Answers read back

A line that lists words with the literals of values is one group and reads as one tree.
When the literals are read back exactly, the lines of one block are read as a model with
these values.
-/

namespace SmtDialogue

/-- A word is no operator of the literals. -/
theorem SExpr.fold_word (id : WordId) (args : List SExpr) :
    fold (.atom (.symbol id.text) :: args) = .app (.atom (.symbol id.text) :: args) :=
  fold_symbol (fun operator member => id.text_ne (by revert operator; decide)) args

namespace Spelling

/-- A word and the literal of a value. -/
def pair (id : WordId) (v : Value) : Spelling :=
  .list [bare id.text, v.spelling]

theorem chars_pair (id : WordId) (v : Value) :
    (pair id v).chars = (Solutions.pairText id v).toList := by
  simp [pair, bare, chars, charsList, Solutions.pairText, v.chars_spelling]

theorem proper_pair (id : WordId) {v : Value} (exact : v.Exact) : (pair id v).Proper :=
  ⟨SExpr.foldOverflows_of_length_le (by simp [treeList]), proper_bare (isBare_text id),
    exact.proper, trivial⟩

theorem tree_pair (id : WordId) (v : Value) :
    (pair id v).tree = .app [.atom (.symbol id.text), v.spelling.tree] :=
  SExpr.fold_word id [v.spelling.tree]

theorem chars_spaced (items : List Spelling) (texts : List String)
    (same : items.map chars = texts.map String.toList) :
    (list items).chars = ("(" ++ spaced texts ++ ")").toList := by
  simp [chars, charsList_eq_intercalate, same, spaced]

end Spelling

/-- A variable and a value that its symbol and literal stand for. -/
structure SymbolTable.Reads (table : SymbolTable) (x : Variable × Value) : Prop where
  resolves : table.resolve x.1.id.text = .ok (some x.1)
  kind : x.2.kind = x.1.kind
  exact : x.2.Exact

/-- The tree of a word and a literal. -/
def pairTree (x : Variable × Value) : SExpr :=
  .app [.atom (.symbol x.1.id.text), x.2.spelling.tree]

namespace SExpr

theorem fold_pairs (xs : List (Variable × Value)) :
    fold (xs.map pairTree) = .app (xs.map pairTree) := by
  cases xs <;> rfl

/-- No value of a list overflows. -/
theorem overflowsAny_pairs {xs : List (Variable × Value)} (exact : ∀ x ∈ xs, x.2.Exact) :
    overflowsAny (xs.map pairTree) = false := by
  refine overflowsAny_eq_false.mpr (List.forall_mem_map.mpr fun x hx => ?_)
  obtain ⟨a, tree⟩ := Value.exists_atom_of_decode (exact x hx).decode_spelling
  have fits : foldOverflows [.atom (.symbol x.1.id.text), .atom a] = false :=
    foldOverflows_of_length_le (by simp)
  simp [pairTree, tree, overflows, overflowsAny, fits]

theorem normalize_pair {x : Variable × Value} (exact : x.2.Exact) :
    normalize (pairTree x) = pairTree x := by
  obtain ⟨a, tree⟩ := Value.exists_atom_of_decode exact.decode_spelling
  have place : wrappedPlace? [.atom (.symbol x.1.id.text), .atom a] = none := by
    rw [wrappedPlace?]
    split
    · next h => exact absurd (Option.some.inj h) (x.1.id.text_ne (by decide))
    · next h => exact absurd (Option.some.inj h) (x.1.id.text_ne (by decide))
    · next h => exact absurd (Option.some.inj h) (x.1.id.text_ne (by decide))
    · rfl
  simp only [pairTree, tree, normalize, normalizeList, place, Option.bind_none]
  exact fold_word x.1.id [.atom a]

theorem normalizeList_pairs {xs : List (Variable × Value)} (exact : ∀ x ∈ xs, x.2.Exact) :
    normalizeList (xs.map pairTree) = xs.map pairTree := by
  induction xs with
  | nil => rfl
  | cons x rest ih =>
    rw [List.map_cons, normalizeList, normalize_pair (exact x List.mem_cons_self),
      ih fun y hy => exact y (List.mem_cons_of_mem x hy)]

/-- Normalizing a list of values changes nothing. -/
theorem normalize_pairs {xs : List (Variable × Value)} (exact : ∀ x ∈ xs, x.2.Exact) :
    normalize (.app (xs.map pairTree)) = .app (xs.map pairTree) := by
  have place : wrappedPlace? (xs.map pairTree) = none := by
    cases xs <;> rfl
  simp only [normalize, normalizeList_pairs exact, place, Option.bind_none, fold_pairs]

theorem normalize_objectives {xs : List (Variable × Value)} (exact : ∀ x ∈ xs, x.2.Exact) :
    normalize (.app (.atom (.symbol "objectives") :: xs.map pairTree)) =
      .app (.atom (.symbol "objectives") :: xs.map pairTree) := by
  have place : wrappedPlace? (.atom (.symbol "objectives") :: xs.map pairTree) = none := rfl
  simp only [normalize, normalizeList, normalizeList_pairs exact, place, Option.bind_none]
  rfl

end SExpr

/-- A word that no overflow is behind may stand in front of a list of values. -/
theorem foldOverflows_listing {front : List String}
    (other : ∀ name ∈ front, name ≠ "fp" ∧ name ≠ "root-obj") (xs : List (Variable × Value)) :
    SExpr.foldOverflows (front.map (fun name => .atom (.symbol name)) ++ xs.map pairTree) =
      false := by
  cases front with
  | nil => cases xs <;> rfl
  | cons name rest =>
    obtain ⟨word, root⟩ := other name List.mem_cons_self
    exact SExpr.foldOverflows_symbol word root _

/-- The text of a list of values, behind some other words. -/
def listing (front : List String) (xs : List (Variable × Value)) : String :=
  "(" ++ spaced (front ++ xs.map fun x => Solutions.pairText x.1.id x.2) ++ ")"

namespace Spelling

variable {xs : List (Variable × Value)}

theorem chars_listing (front : List String) (xs : List (Variable × Value)) :
    (list (front.map bare ++ xs.map fun x => pair x.1.id x.2)).chars =
      (listing front xs).toList := by
  refine chars_spaced _ _ ?_
  have pairs := List.map_congr_left (l := xs) fun x _ => chars_pair x.1.id x.2
  simp only [List.map_append, List.map_map, Function.comp_def, pairs]
  rfl

theorem treeList_listing (front : List String) (xs : List (Variable × Value)) :
    treeList (front.map bare ++ xs.map fun x => pair x.1.id x.2) =
      front.map (fun name => SExpr.atom (.symbol name)) ++ xs.map pairTree := by
  have pairs := List.map_congr_left (l := xs) fun x _ => tree_pair x.1.id x.2
  simp only [treeList_eq_map, List.map_append, List.map_map, Function.comp_def, pairs]
  rfl

theorem proper_listing {front : List String} (bares : ∀ name ∈ front, IsBare name.toList)
    (other : ∀ name ∈ front, name ≠ "fp" ∧ name ≠ "root-obj") (exact : ∀ x ∈ xs, x.2.Exact) :
    (list (front.map bare ++ xs.map fun x => pair x.1.id x.2)).Proper := by
  refine ⟨by rw [treeList_listing, foldOverflows_listing other],
    properList_iff.mpr fun s member => ?_⟩
  rcases List.mem_append.mp member with member | member
  · obtain ⟨name, inside, rfl⟩ := List.mem_map.mp member
    exact proper_bare (bares name inside)
  · obtain ⟨x, inside, rfl⟩ := List.mem_map.mp member
    exact proper_pair x.1.id (exact x inside)

theorem tree_listing (front : List String) (xs : List (Variable × Value)) :
    (list (front.map bare ++ xs.map fun x => pair x.1.id x.2)).tree =
      SExpr.fold (front.map (fun name => SExpr.atom (.symbol name)) ++ xs.map pairTree) := by
  rw [tree, treeList_listing]

theorem parse_listing {front : List String} (bares : ∀ name ∈ front, IsBare name.toList)
    (other : ∀ name ∈ front, name ≠ "fp" ∧ name ≠ "root-obj") (exact : ∀ x ∈ xs, x.2.Exact) :
    SExpr.parse (listing front xs) =
      .ok (SExpr.fold (front.map (fun name => SExpr.atom (.symbol name)) ++ xs.map pairTree)) := by
  rw [← tree_listing]
  exact parse_of_chars _ (proper_listing bares other exact) (chars_listing front xs).symm

/-- A listing is a group of its own. -/
theorem ofLines_listing {front : List String} (bares : ∀ name ∈ front, IsBare name.toList)
    (other : ∀ name ∈ front, name ≠ "fp" ∧ name ≠ "root-obj") (exact : ∀ x ∈ xs, x.2.Exact)
    (rest : List String) :
    Group.ofLines (listing front xs :: rest) = listing front xs :: Group.ofLines rest := by
  have spelled := chars_listing front xs
  have back := follow_chars _ (proper_listing bares other exact) 0 []
  rw [List.append_nil, spelled] at back
  have shown : Text.isBlankText (listing front xs) = false := by
    rw [Text.isBlankText, ← spelled]
    rfl
  have follows : Group.Reach.start.follow (listing front xs).toList = Group.Reach.start := back
  have closed : Group.Reach.start.isClosed = true := rfl
  have joined : Group.joinLine "" (listing front xs) = listing front xs := by
    simp [Group.joinLine]
  simp [Group.ofLines, Group.fromLines, follows, closed, joined, Group.ofText, shown]

end Spelling

variable {table : SymbolTable}

namespace Binding

theorem readItem_pair {x : Variable × Value} (reads : table.Reads x) :
    readItem table (pairTree x) = .ok (.bound ⟨x.1.id, x.1.name, x.2⟩) := by
  have other : SExpr.isSymbol "define-fun" (.atom (.symbol x.1.id.text)) = false := by
    simpa [SExpr.isSymbol, SExpr.symbol?] using x.1.id.text_ne (by decide)
  have named : symbol? (pairTree x) = some x.1.id.text := by
    simp [pairTree, symbol?, other, SExpr.symbol?]
  have valued : value? (pairTree x) = some x.2.spelling.tree := rfl
  have decoded := reads.exact.decode_spelling
  rw [reads.kind] at decoded
  simp [readItem, named, reads.resolves, valued, decoded]

theorem extract_pairs {xs : List (Variable × Value)} (reads : ∀ x ∈ xs, table.Reads x)
    (line : String) :
    extract table .strict line (.app (xs.map pairTree)) =
      .ok (xs.map fun x => ⟨x.1.id, x.1.name, x.2⟩) := by
  have items : items? (.app (xs.map pairTree)) = some (xs.map pairTree) := by
    cases xs with
    | nil => rfl
    | cons x rest => simp [items?, pairTree, SExpr.isSymbol, SExpr.symbol?, SExpr.isAtom]
  have each : ∀ fail, readItems table .strict fail (xs.map pairTree) =
      .ok (xs.map fun x => ⟨x.1.id, x.1.name, x.2⟩) := by
    intro fail
    clear items
    induction xs with
    | nil => rfl
    | cons x rest ih =>
      have others := ih fun y hy => reads y (List.mem_cons_of_mem x hy)
      simp [readItems, readItem_pair (reads x List.mem_cons_self), others, Except.map]
  simp [extract, items, each]

end Binding

namespace ObjectiveValue

theorem readItem_pair {x : Variable × Value} (reads : table.Reads x)
    (fail : DecodeFailure → AnswerError) :
    readItem table fail (pairTree x) = .ok ⟨x.1.name, .finite x.2⟩ := by
  have decoded := reads.exact.decode_spelling
  rw [reads.kind] at decoded
  simp [readItem, pairTree, named?, SExpr.symbol?, reads.resolves, bound, decoded,
    Except.mapError, Except.map]

theorem extract_pairs {xs : List (Variable × Value)} (reads : ∀ x ∈ xs, table.Reads x)
    (line : String) :
    extract table line (.app (.atom (.symbol "objectives") :: xs.map pairTree)) =
      .ok (xs.map fun x => ⟨x.1.name, .finite x.2⟩) := by
  have each : ∀ fail, readItems table fail (xs.map pairTree) =
      .ok (xs.map fun x => ⟨x.1.name, .finite x.2⟩) := by
    intro fail
    induction xs with
    | nil => rfl
    | cons x rest ih =>
      have others := ih fun y hy => reads y (List.mem_cons_of_mem x hy)
      simp [readItems, readItem_pair (reads x List.mem_cons_self), others, Except.map]
  simp [extract, SExpr.isSymbol, SExpr.symbol?, each]

end ObjectiveValue

namespace Model

/-- The model with the given values and objective values. -/
def ofValues (values objectives : List (Variable × Value)) : Model :=
  ⟨Keyed.ofList Binding.id (values.map fun x => ⟨x.1.id, x.1.name, x.2⟩),
    objectives.map fun x => ⟨x.1.name, .finite x.2⟩⟩

theorem isFinite_ofValues (values objectives : List (Variable × Value)) :
    (ofValues values objectives).isFinite = true := by
  simp [isFinite, ofValues, Extended.isFinite, Extended.finite?]

theorem addGroup_objectives {xs : List (Variable × Value)} (reads : ∀ x ∈ xs, table.Reads x)
    (m : Model) :
    addGroup SExpr.normalize table .strict m (listing ["objectives"] xs) =
      .ok (m.addObjectives (xs.map fun x => ⟨x.1.name, .finite x.2⟩)) := by
  have exact := fun x hx => (reads x hx).exact
  have bares : ∀ name ∈ ["objectives"], Spelling.IsBare name.toList := by decide
  have parsed := Spelling.parse_listing bares (by simp) exact
  have folded : SExpr.fold (.atom (.symbol "objectives") :: xs.map pairTree) =
      .app (.atom (.symbol "objectives") :: xs.map pairTree) := rfl
  simp only [List.map_cons, List.map_nil, List.singleton_append, folded] at parsed
  have heads : ObjectiveValue.isObjectives
      (.app (.atom (.symbol "objectives") :: xs.map pairTree)) = true := rfl
  have fits : SExpr.overflows (.app (.atom (.symbol "objectives") :: xs.map pairTree)) = false := by
    rw [SExpr.overflows, SExpr.overflowsAny, SExpr.overflowsAny_pairs exact]
    rfl
  simp [addGroup, parsed, SExpr.normalize_objectives exact, heads, fits,
    ObjectiveValue.extract_pairs reads, Except.map]

theorem addGroup_values {xs : List (Variable × Value)} (reads : ∀ x ∈ xs, table.Reads x)
    (m : Model) :
    addGroup SExpr.normalize table .strict m (listing [] xs) =
      .ok (m.bindAll (xs.map fun x => ⟨x.1.id, x.1.name, x.2⟩)) := by
  have exact := fun x hx => (reads x hx).exact
  have bares : ∀ name ∈ ([] : List String), Spelling.IsBare name.toList := by simp
  have parsed := Spelling.parse_listing bares (by simp) exact
  simp only [List.map_nil, List.nil_append, SExpr.fold_pairs] at parsed
  have heads : ObjectiveValue.isObjectives (.app (xs.map pairTree)) = false := by
    cases xs <;> rfl
  have fits : SExpr.overflows (.app (xs.map pairTree)) = false := by
    rw [SExpr.overflows, SExpr.overflowsAny_pairs exact, Bool.or_false]
    exact @foldOverflows_listing [] (by simp) xs
  simp [addGroup, parsed, SExpr.normalize_pairs exact, heads, fits, Binding.extract_pairs reads,
    Except.map]

/-- The lines of a block describe the model with its values; a line without values may
be missing. -/
theorem ofLines_block {values objectives : List (Variable × Value)}
    (valuesRead : ∀ x ∈ values, table.Reads x)
    (objectivesRead : ∀ x ∈ objectives, table.Reads x) {first second : List String}
    (objectiveLine : first = [listing ["objectives"] objectives] ∨ first = [] ∧ objectives = [])
    (valueLine : second = [listing [] values] ∨ second = [] ∧ values = []) :
    ofLines SExpr.normalize table .strict (first ++ second) =
      .ok (ofValues values objectives) := by
  have exactValues := fun x hx => (valuesRead x hx).exact
  have exactObjectives := fun x hx => (objectivesRead x hx).exact
  have bares : ∀ name ∈ ["objectives"], Spelling.IsBare name.toList := by decide
  have noGroups : Group.ofLines [] = [] := rfl
  have tail : ∀ m : Model,
      (Group.ofLines second).foldlM (addGroup SExpr.normalize table .strict) m =
        .ok (m.bindAll (values.map fun x => ⟨x.1.id, x.1.name, x.2⟩)) := by
    intro m
    rcases valueLine with rfl | ⟨rfl, rfl⟩
    · rw [Spelling.ofLines_listing (by simp) (by simp) exactValues, noGroups, List.foldlM_cons,
        addGroup_values valuesRead]
      rfl
    · rfl
  have whole : ofLines SExpr.normalize table .strict (first ++ second) =
      .ok ((Model.empty.addObjectives
        (objectives.map fun x => ⟨x.1.name, .finite x.2⟩)).bindAll
          (values.map fun x => ⟨x.1.id, x.1.name, x.2⟩)) := by
    rcases objectiveLine with rfl | ⟨rfl, rfl⟩
    · rw [ofLines, List.singleton_append, Spelling.ofLines_listing bares (by simp) exactObjectives,
        List.foldlM_cons, addGroup_objectives objectivesRead]
      exact tail _
    · exact tail _
  rw [whole, bindAll_eq]
  rfl

end Model

/-- An answer that reports `sat` and lists values is satisfiable in their model. -/
theorem Outcome.classify_block {values objectives : List (Variable × Value)}
    (valuesRead : ∀ x ∈ values, table.Reads x)
    (objectivesRead : ∀ x ∈ objectives, table.Reads x) {first second : List String}
    (objectiveLine : first = [listing ["objectives"] objectives] ∨ first = [] ∧ objectives = [])
    (valueLine : second = [listing [] values] ∨ second = [] ∧ values = []) :
    classify SExpr.normalize table ("sat" :: (first ++ second)) =
      .ok (.satisfiable (Model.ofValues values objectives)) := by
  have status : status? ("sat" :: (first ++ second)) = some "sat" := by
    simp [status?]
    decide
  have model := Model.ofLines_block valuesRead objectivesRead objectiveLine valueLine
  simp [classify, status, model, Except.map, ofModel, Model.isFinite_ofValues]

end SmtDialogue
