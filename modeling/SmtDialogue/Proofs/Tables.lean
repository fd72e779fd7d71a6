import SmtDialogue.Program.Basic
import SmtDialogue.Proofs.Digits

/-!
# Symbol tables

A word that is introduced once has one kind, and the symbol of a word that is reported
stands for one variable: the input it is, or else the first objective over it. Lists
kept by word are in ascending order and hold what was put into them.
-/

namespace SmtDialogue

namespace Keyed

variable {α : Type} {key : α → WordId}

theorem get?_foldl_put {xs : List α}
    (distinct : (xs.map key).Nodup) {x : α} (acc : List α)
    (h : x ∈ xs ∨ get? key (key x) acc = some x ∧ key x ∉ xs.map key) :
    get? key (key x) (xs.foldl (fun acc y => put key y acc) acc) = some x := by
  induction xs generalizing acc with
  | nil => simpa using h
  | cons y rest ih =>
    rw [List.map_cons, List.nodup_cons] at distinct
    refine ih distinct.2 _ ?_
    rcases h with member | ⟨found, absent⟩
    · rcases List.mem_cons.mp member with rfl | member
      · exact .inr ⟨get?_put_self key x acc, distinct.1⟩
      · exact .inl member
    · rw [List.map_cons, List.mem_cons, not_or] at absent
      exact .inr ⟨by rw [get?_put_of_ne fun same => absent.1 same.symm, found], absent.2⟩

/-- An entry for a new word is added to the others. -/
theorem perm_put {x : α} {xs : List α} (absent : key x ∉ xs.map key) :
    (put key x xs).Perm (x :: xs) := by
  induction xs with
  | nil => exact .refl _
  | cons y rest ih =>
    rw [List.map_cons, List.mem_cons, not_or] at absent
    rw [put]
    split
    · exact .refl _
    · rw [if_neg absent.1]
      exact ((ih absent.2).cons y).trans (.swap x y rest)

theorem mem_of_mem_put {x z : α} {xs : List α} (h : z ∈ put key x xs) : z = x ∨ z ∈ xs := by
  induction xs with
  | nil => exact .inl (List.mem_singleton.mp h)
  | cons y rest ih =>
    rw [put] at h
    split at h
    · exact List.mem_cons.mp h
    · split at h
      · exact (List.mem_cons.mp h).imp_right (List.mem_cons_of_mem y)
      · rcases List.mem_cons.mp h with rfl | member
        · exact .inr List.mem_cons_self
        · exact (ih member).imp_right (List.mem_cons_of_mem y)

theorem ascending_put {x : α} {xs : List α}
    (ascending : xs.Pairwise fun a b => (key a).index < (key b).index) :
    (put key x xs).Pairwise fun a b => (key a).index < (key b).index := by
  induction xs with
  | nil => exact List.pairwise_singleton _ _
  | cons y rest ih =>
    obtain ⟨first, others⟩ := List.pairwise_cons.mp ascending
    rw [put]
    split
    · next below =>
      refine List.pairwise_cons.mpr ⟨?_, ascending⟩
      intro z member
      rcases List.mem_cons.mp member with rfl | member
      · exact below
      · exact UInt64.lt_trans below (first z member)
    · split
      · next same =>
        rw [← same] at first
        exact List.pairwise_cons.mpr ⟨first, others⟩
      · next notBelow differ =>
        refine List.pairwise_cons.mpr ⟨?_, ih others⟩
        intro z member
        rcases mem_of_mem_put member with rfl | member
        · -- the words differ, so their numbers do
          have apart : (key y).index ≠ (key z).index := by
            intro same
            exact differ (by rw [← WordId.mk.injEq] at same; exact same.symm)
          exact UInt64.lt_of_le_of_ne (UInt64.not_lt.mp notBelow) apart
        · exact first z member

theorem foldl_put_spec {xs acc : List α} (distinct : ((acc ++ xs).map key).Nodup)
    (ascending : acc.Pairwise fun a b => (key a).index < (key b).index) :
    (xs.foldl (fun acc x => put key x acc) acc).Perm (acc ++ xs) ∧
      (xs.foldl (fun acc x => put key x acc) acc).Pairwise
        fun a b => (key a).index < (key b).index := by
  induction xs generalizing acc with
  | nil => simpa using ascending
  | cons x rest ih =>
    have moved : ((x :: acc) ++ rest).Perm (acc ++ x :: rest) := List.perm_middle.symm
    have absent : key x ∉ acc.map key := by
      have nodup := (moved.map key).nodup_iff.mpr distinct
      rw [List.cons_append, List.map_cons, List.nodup_cons, List.map_append] at nodup
      exact fun member => nodup.1 (List.mem_append_left _ member)
    have added := (perm_put absent).append_right rest
    obtain ⟨kept, sorted⟩ := ih ((added.trans moved).map key |>.nodup_iff.mpr distinct)
      (ascending_put ascending)
    exact ⟨kept.trans (added.trans moved), sorted⟩

theorem ascending_ofList (xs : List α) :
    (ofList key xs).Pairwise fun a b => (key a).index < (key b).index := by
  have fold : ∀ acc : List α, acc.Pairwise (fun a b => (key a).index < (key b).index) →
      (xs.foldl (fun acc x => put key x acc) acc).Pairwise
        fun a b => (key a).index < (key b).index := by
    induction xs with
    | nil => exact fun _ ascending => ascending
    | cons x rest ih => exact fun acc ascending => ih _ (ascending_put ascending)
  exact fold [] .nil

theorem mem_of_mem_ofList {x : α} {xs : List α} (member : x ∈ ofList key xs) : x ∈ xs := by
  have fold : ∀ acc : List α, x ∈ xs.foldl (fun acc x => put key x acc) acc →
      x ∈ xs ∨ x ∈ acc := by
    clear member
    induction xs with
    | nil => exact fun _ inside => .inr inside
    | cons y rest ih =>
      intro acc inside
      rcases ih _ inside with later | earlier
      · exact .inl (List.mem_cons_of_mem y later)
      · rcases mem_of_mem_put earlier with rfl | old
        · exact .inl List.mem_cons_self
        · exact .inr old
  exact (fold [] member).resolve_right List.not_mem_nil

/-- The last entry of a word is the one that is found. -/
theorem get?_ofList (id : WordId) (xs : List α) :
    get? key id (ofList key xs) = (xs.filter fun x => key x = id).getLast? := by
  have fold : ∀ acc : List α, get? key id (xs.foldl (fun acc x => put key x acc) acc) =
      ((xs.filter fun x => key x = id).getLast?).or (get? key id acc) := by
    induction xs with
    | nil => exact fun _ => rfl
    | cons x rest ih =>
      intro acc
      rw [List.foldl_cons, ih]
      by_cases same : key x = id
      · subst same
        rw [get?_put_self, List.filter_cons_of_pos (by simp), List.getLast?_cons]
        cases (rest.filter fun y => key y = key x).getLast? <;> rfl
      · rw [get?_put_of_ne same, List.filter_cons_of_neg (by simpa using same)]
  rw [ofList, fold, get?, List.find?_nil, Option.or_none]

/-- Entries for different words are all kept, in ascending order. -/
theorem ofList_spec {xs : List α} (distinct : (xs.map key).Nodup) :
    (ofList key xs).Perm xs ∧
      (ofList key xs).Pairwise fun a b => (key a).index < (key b).index :=
  foldl_put_spec distinct .nil

/-- Entries for different words can be added in any order. -/
theorem ofList_eq_of_perm {xs ys : List α} (perm : xs.Perm ys) (distinct : (xs.map key).Nodup) :
    ofList key xs = ofList key ys := by
  obtain ⟨left, ascendingLeft⟩ := ofList_spec distinct
  obtain ⟨right, ascendingRight⟩ := ofList_spec ((perm.map key).nodup_iff.mp distinct)
  refine List.Perm.eq_of_pairwise ?_ ascendingLeft ascendingRight
    (left.trans (perm.trans right.symm))
  exact fun a b _ _ below above => absurd below (UInt64.lt_asymm above)

end Keyed

namespace WordId

theorem toList_text (id : WordId) : id.text.toList = 's' :: Nat.toDigits 10 id.index.toNat := by
  simp [text]

/-- The symbol of a word starts with its own letter. -/
theorem text_ne (id : WordId) {name : String} (h : name.toList.head? ≠ some 's') :
    id.text ≠ name := by
  rintro rfl
  exact h (by rw [toList_text]; rfl)

theorem ofSymbol?_text (id : WordId) : ofSymbol? id.text = some id := by
  have small : id.index.toNat < UInt64.size := id.index.toNat_lt
  simp [ofSymbol?, toList_text, Numeral.isDigits_toDigits, Numeral.decimal_toDigits, small]

end WordId

/-- A word that is introduced once has the kind it is introduced with. -/
theorem Program.wordKind?_of_mem {p : Program} (distinct : (p.words.map Prod.fst).Nodup)
    {w : WordId × Kind} (h : w ∈ p.words) : p.wordKind? w.1 = some w.2 := by
  have found := Keyed.get?_foldl_put distinct [] (.inl h)
  rw [wordKind?, wordKinds, Keyed.ofList, found]
  rfl

namespace SymbolTable

/-- The first variable of each word is kept, and no other. -/
theorem filter_foldl_addVariable (vs : List Variable) (known : List Variable) (id : WordId) :
    (vs.foldl Program.addVariable known).filter (fun v => v.id = id) =
      if known.any (fun v => v.id = id) then known.filter (fun v => v.id = id)
      else (vs.find? fun v => v.id = id).toList := by
  induction vs generalizing known with
  | nil =>
    split
    · rfl
    · next none => simpa using none
  | cons v rest ih =>
    rw [List.foldl_cons, ih, Program.addVariable]
    by_cases here : v.id = id
    · subst here
      by_cases old : known.any (fun w => w.id = v.id) = true
      · simp only [old, if_true]
      · have none : known.filter (fun w => w.id = v.id) = [] := by simpa using old
        simp [old, none]
    · split <;> simp [here]

/-- The symbols of one word stand for the same variable. -/
theorem resolve_of_ofSymbol? {table : SymbolTable} {symbol : String} {id : WordId}
    {found : Option Variable} (named : WordId.ofSymbol? symbol = some id)
    (resolved : table.resolve id.text = .ok found) : table.resolve symbol = .ok found := by
  rw [resolve, WordId.ofSymbol?_text] at resolved
  rw [resolve, named]
  dsimp only at resolved ⊢
  split at resolved
  · exact resolved
  · exact resolved
  · cases resolved

end SymbolTable

namespace Program

/-- The variables an answer can mention, those of one word in the order they count. -/
def mentioned (p : Program) : List Variable :=
  p.inputs.map Input.var ++ p.objectives.filterMap p.objectiveVariable?

/-- The symbol of a word stands for the first variable of that word. -/
theorem resolve_text (p : Program) (id : WordId) :
    p.symbolTable.resolve id.text = .ok (p.mentioned.find? fun v => v.id = id) := by
  have kept := SymbolTable.filter_foldl_addVariable p.mentioned [] id
  simp only [List.any_nil, Bool.false_eq_true, if_false] at kept
  have only : p.symbolTable.withId id = (p.mentioned.find? fun v => v.id = id).toList := kept
  rw [SymbolTable.resolve, WordId.ofSymbol?_text]
  simp only [only]
  cases p.mentioned.find? fun v => v.id = id <;> rfl

theorem distinct_inputs {p : Program} (distinct : (p.words.map Prod.fst).Nodup) :
    (p.inputs.map fun i => i.var.id).Nodup := by
  simp only [words, List.map_append, List.map_map, List.append_assoc] at distinct
  exact (List.nodup_append.mp distinct).1

/-- The input over a word, which is the only one. -/
theorem find?_input {p : Program} (distinct : (p.words.map Prod.fst).Nodup) {i : Input}
    (member : i ∈ p.inputs) : p.inputs.find? (fun j => j.var.id = i.var.id) = some i := by
  have some : (p.inputs.find? fun j => j.var.id = i.var.id).isSome = true :=
    List.find?_isSome.mpr ⟨i, member, by simp⟩
  obtain ⟨j, found⟩ := Option.isSome_iff_exists.mp some
  have same : j.var.id = i.var.id := by simpa using List.find?_some found
  rw [found, List.inj_on_of_nodup_map (distinct_inputs distinct)
    (List.mem_of_find?_eq_some found) member same]

theorem wordKind?_input {p : Program} (distinct : (p.words.map Prod.fst).Nodup) {i : Input}
    (member : i ∈ p.inputs) : p.wordKind? i.var.id = some i.var.kind := by
  have introduced : (i.var.id, i.var.kind) ∈ p.words :=
    List.mem_append_left _ (List.mem_append_left _ (List.mem_map_of_mem member))
  exact wordKind?_of_mem distinct introduced

/-- An input stands for itself. -/
theorem resolve_input {p : Program} (distinct : (p.words.map Prod.fst).Nodup) {i : Input}
    (member : i ∈ p.inputs) : p.symbolTable.resolve i.var.id.text = .ok (some i.var) := by
  rw [resolve_text, mentioned, List.find?_append, List.find?_map]
  have found := find?_input distinct member
  simp only [Function.comp_def, found]
  rfl

/-- The name that the value of an objective is reported under: that of the input it is,
or else of the first objective over the same word. -/
def reportedName (p : Program) (id : WordId) : String :=
  match p.inputs.find? fun i => i.var.id = id with
  | some i => i.var.name
  | none => ((p.objectives.find? fun o => o.id = id).map Objective.name).getD id.text

theorem reportedName_input {p : Program} (distinct : (p.words.map Prod.fst).Nodup)
    {i : Input} (listed : i ∈ p.inputs) : p.reportedName i.var.id = i.var.name := by
  rw [reportedName, find?_input distinct listed]

/-- Every objective over a word that is no input is a variable of it, so the first one
counts. -/
theorem find?_mentioned {p : Program} {id : WordId} (apart : ∀ i ∈ p.inputs, i.var.id ≠ id)
    {kind : Kind} (introduced : p.wordKind? id = some kind) :
    p.mentioned.find? (fun v => v.id = id) =
      (p.objectives.find? fun o => o.id = id).map fun o => ⟨id, o.name, kind⟩ := by
  have none : p.inputs.find? (fun i => i.var.id = id) = none :=
    List.find?_eq_none.mpr fun i hi => by simpa using apart i hi
  have reads : ∀ o : Objective, o.id = id → p.objectiveVariable? o = some ⟨id, o.name, kind⟩ := by
    intro o same
    rw [objectiveVariable?, same, introduced]
    rfl
  have counts : (fun o => (p.objectiveVariable? o).any fun v => v.id = id) =
      fun o => decide (o.id = id) := by
    funext o
    by_cases same : o.id = id
    · simp [reads o same, same]
    · rw [objectiveVariable?]
      cases p.wordKind? o.id <;> simp [same]
  rw [mentioned, List.find?_append, List.find?_map]
  simp only [Function.comp_def, none, Option.map_none, Option.none_or]
  rw [List.find?_filterMap, counts]
  cases found : p.objectives.find? fun o => o.id = id with
  | none => rfl
  | some o =>
    have same : o.id = id := by simpa using List.find?_some found
    simp [reads o same]

theorem resolve_objective {p : Program} (distinct : (p.words.map Prod.fst).Nodup) {o : Objective}
    (member : o ∈ p.objectives) {kind : Kind} (introduced : p.wordKind? o.id = some kind) :
    p.symbolTable.resolve o.id.text = .ok (some ⟨o.id, p.reportedName o.id, kind⟩) := by
  rw [resolve_text, reportedName]
  cases found : p.inputs.find? fun i => i.var.id = o.id with
  | some i =>
    have same : i.var.id = o.id := by simpa using List.find?_some found
    have own := wordKind?_input distinct (List.mem_of_find?_eq_some found)
    rw [same, introduced] at own
    cases own
    rw [mentioned, List.find?_append, List.find?_map]
    simp only [Function.comp_def, found, Option.map_some, Option.some_or]
    rw [← same]
  | none =>
    have apart : ∀ i ∈ p.inputs, i.var.id ≠ o.id := by simpa using found
    have some : (p.objectives.find? fun other => other.id = o.id).isSome = true :=
      List.find?_isSome.mpr ⟨o, member, by simp⟩
    obtain ⟨other, here⟩ := Option.isSome_iff_exists.mp some
    rw [find?_mentioned apart introduced, here]
    rfl

end Program

end SmtDialogue
