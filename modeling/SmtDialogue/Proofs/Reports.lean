import SmtDialogue.Answer.Outcome
import SmtDialogue.Proofs.Results

/-!
# What the groups of an answer report

An item of a model is passed over, rejected, or makes a binding, and a strict reading
differs from a lenient one only in what becomes of the rejected ones. So each group of
lines has a report of its own, and a model holds the reports of its groups, the later
bindings in place of earlier ones.
-/

namespace SmtDialogue

namespace SymbolTable

/-- No two variables are of the same word. -/
def Distinct (table : SymbolTable) : Prop :=
  (table.entries.map Variable.id).Nodup

instance (table : SymbolTable) : Decidable table.Distinct :=
  inferInstanceAs (Decidable (table.entries.map Variable.id).Nodup)

variable {table : SymbolTable}

theorem resolve_eq_some {symbol : String} {v : Variable}
    (found : table.resolve symbol = .ok (some v)) :
    v ∈ table.entries ∧ WordId.ofSymbol? symbol = some v.id := by
  rw [resolve] at found
  split at found
  · cases found
  · next id named =>
    split at found
    · cases found
    · next only one =>
      cases found
      have member : v ∈ table.withId id := by simp [one]
      obtain ⟨entry, same⟩ := List.mem_filter.mp member
      rw [of_decide_eq_true same]
      exact ⟨entry, named⟩
    · cases found

/-- A symbol stands for no variable when it names no word, or one without variables. -/
theorem resolve_eq_none_iff {symbol : String} :
    table.resolve symbol = .ok none ↔
      (WordId.ofSymbol? symbol).all (fun id => (table.withId id).isEmpty) = true := by
  rw [resolve]
  cases WordId.ofSymbol? symbol with
  | none => simp
  | some id =>
    cases words : table.withId id with
    | nil => simp [words]
    | cons v rest => cases rest <;> simp [words]

/-- A word has at most one variable, so no symbol is ambiguous. -/
theorem Distinct.resolve (distinct : table.Distinct) (symbol : String) :
    ∃ found, table.resolve symbol = .ok found := by
  rw [SymbolTable.resolve]
  split
  · exact ⟨none, rfl⟩
  · next id named =>
    split
    · exact ⟨none, rfl⟩
    · next only one => exact ⟨some only, rfl⟩
    · next several =>
      have distinct : ((table.withId id).map Variable.id).Nodup :=
        (List.filter_sublist.map Variable.id).nodup distinct
      have same : ∀ v ∈ table.withId id, v.id = id := by simp [withId]
      cases words : table.withId id with
      | nil => simp_all
      | cons v rest =>
        cases rest with
        | nil => simp_all
        | cons w others =>
          rw [words] at distinct same
          have equal : v.id = w.id := by rw [same v (by simp), same w (by simp)]
          simp [equal] at distinct

end SymbolTable

namespace Binding

variable {table : SymbolTable}

/-- The binding that an item makes, if it is accepted. -/
def ofItem? (table : SymbolTable) (item : SExpr) : Option Binding :=
  match readItem table item with
  | .ok (.bound b) => some b
  | _ => none

/-- Whether a strict reading fails at a model with this item alone. -/
def rejects (table : SymbolTable) (item : SExpr) : Bool :=
  !(extract table .strict "" (.app [.atom (.symbol "model"), item])).isOk

/-- Whether an item is about a variable at whose kind decoding its value overflows. -/
def overflows (table : SymbolTable) (item : SExpr) : Bool :=
  match readItem table item with
  | .ok (.rejected .overflow) => true
  | _ => false

theorem rejects_eq (table : SymbolTable) (item : SExpr) :
    rejects table item =
      match readItem table item with
      | .ok .ignored | .ok (.bound _) => false
      | .ok (.rejected _) | .error _ => true := by
  have items : items? (.app [.atom (.symbol "model"), item]) = some [item] := rfl
  simp only [rejects, extract, items, readItems]
  cases readItem table item with
  | error a => rfl
  | ok what => cases what <;> rfl

/-- What becomes of an item, by what decides it: its symbol, the variables of the symbol, its
shape, and the decoding of its value. -/
inductive Becomes (table : SymbolTable) (item : SExpr) : Except Ambiguity Item → Prop where
  | unnamed (none : symbol? item = none) :
    Becomes table item (.ok (.rejected (.unrecognizedShape item)))
  | ambiguous {symbol : String} {a : Ambiguity} (claimed : table.resolve symbol = .error a) :
    Becomes table item (.error a)
  | foreign {symbol : String} (named : symbol? item = some symbol)
      (unresolved : table.resolve symbol = .ok none) : Becomes table item (.ok .ignored)
  | valueless {symbol : String} {v : Variable} (named : symbol? item = some symbol)
      (resolved : table.resolve symbol = .ok (some v)) (none : value? item = none) :
    Becomes table item (.ok (.rejected (.unrecognizedShape item)))
  | undecoded {symbol : String} {v : Variable} {value : SExpr} {reason : DecodeFailure}
      (named : symbol? item = some symbol) (resolved : table.resolve symbol = .ok (some v))
      (valued : value? item = some value) (failed : Value.decode v.kind value = .error reason) :
    Becomes table item (.ok (.rejected reason))
  | decoded {symbol : String} {v : Variable} {value : SExpr} {x : Value}
      (named : symbol? item = some symbol) (resolved : table.resolve symbol = .ok (some v))
      (valued : value? item = some value) (accepted : Value.decode v.kind value = .ok x) :
    Becomes table item (.ok (.bound ⟨v.id, v.name, x⟩))

theorem becomes_readItem (table : SymbolTable) (item : SExpr) :
    Becomes table item (readItem table item) := by
  rw [readItem]
  split
  · next none => exact .unnamed none
  · next symbol named =>
    split
    · next claimed => exact .ambiguous claimed
    · next unresolved => exact .foreign named unresolved
    · next resolved =>
      split
      · next none => exact .valueless named resolved none
      · next valued =>
        split
        · next accepted => exact .decoded named resolved valued accepted
        · next failed => exact .undecoded named resolved valued failed

/-- An item is passed over, rejected or makes a binding. -/
theorem readItem_cases (distinct : table.Distinct) (item : SExpr) :
    (readItem table item = .ok .ignored ∧ ofItem? table item = none ∧
        rejects table item = false) ∨
      (∃ reason, readItem table item = .ok (.rejected reason) ∧ ofItem? table item = none ∧
        rejects table item = true) ∨
      ∃ b, readItem table item = .ok (.bound b) ∧ ofItem? table item = some b ∧
        rejects table item = false := by
  have becomes := becomes_readItem table item
  rw [rejects_eq, ofItem?]
  generalize readItem table item = outcome at becomes ⊢
  cases becomes with
  | @ambiguous symbol _ claimed =>
    obtain ⟨_, resolved⟩ := distinct.resolve symbol
    cases claimed.symm.trans resolved
  | foreign => exact .inl ⟨rfl, rfl, rfl⟩
  | unnamed | valueless | undecoded => exact .inr (.inl ⟨_, rfl, rfl, rfl⟩)
  | decoded => exact .inr (.inr ⟨_, rfl, rfl, rfl⟩)

/-- The binding that a symbol with a value stands for: the variable of the symbol, and the
value decoded at its kind. -/
def Gives (table : SymbolTable) (symbol : String) (value : SExpr) (b : Binding) : Prop :=
  ∃ v, table.resolve symbol = .ok (some v) ∧ b.id = v.id ∧ b.name = v.name ∧
    Value.decode v.kind value = .ok b.value

theorem readItem_eq_bound {item : SExpr} {b : Binding} :
    readItem table item = .ok (.bound b) ↔
      ∃ symbol value, symbol? item = some symbol ∧ value? item = some value ∧
        Gives table symbol value b := by
  constructor
  · intro read
    have becomes := becomes_readItem table item
    rw [read] at becomes
    cases becomes with
    | decoded named resolved valued accepted =>
      exact ⟨_, _, named, valued, _, resolved, rfl, rfl, accepted⟩
  · rintro ⟨symbol, value, named, valued, v, resolved, id, name, decoded⟩
    simp only [readItem, named, resolved, valued, decoded]
    rw [← id, ← name]

/-- A binding is of a variable of the table and decoded at its kind. -/
theorem ofItem?_eq_some {item : SExpr} {b : Binding} (made : ofItem? table item = some b) :
    ∃ v ∈ table.entries, b.id = v.id ∧ b.name = v.name ∧
      ∃ value, Value.decode v.kind value = .ok b.value := by
  rw [ofItem?] at made
  split at made
  · next bound read =>
    cases made
    obtain ⟨_, value, -, -, v, resolved, id, name, decoded⟩ := readItem_eq_bound.mp read
    exact ⟨v, (SymbolTable.resolve_eq_some resolved).1, id, name, value, decoded⟩
  · cases made

theorem overflows_iff {item : SExpr} :
    overflows table item = true ↔
      ∃ symbol value v, symbol? item = some symbol ∧ value? item = some value ∧
        table.resolve symbol = .ok (some v) ∧ Value.decode v.kind value = .error .overflow := by
  unfold overflows
  constructor
  · intro overflow
    split at overflow
    · next read =>
      have becomes := becomes_readItem table item
      rw [read] at becomes
      cases becomes with
      | undecoded named resolved valued failed =>
        exact ⟨_, _, _, named, valued, resolved, failed⟩
    · cases overflow
  · rintro ⟨symbol, value, v, named, valued, resolved, failed⟩
    simp [readItem, named, resolved, valued, failed]

/-- Only values for variables of one kind overflow. -/
theorem exists_of_overflows {item : SExpr} (overflow : overflows table item = true) :
    ∃ v ∈ table.entries, v.kind = .int 0 := by
  obtain ⟨_, _, v, _, _, resolved, failed⟩ := overflows_iff.mp overflow
  exact ⟨v, (SymbolTable.resolve_eq_some resolved).1, Value.kind_of_decode_overflow failed⟩

/-- A lenient reading makes the bindings of the items that are accepted, unless one overflows. -/
theorem readItems_lenient (distinct : table.Distinct) (fail : DecodeFailure → AnswerError)
    (items : List SExpr) :
    readItems table .lenient fail items =
      if items.any (overflows table) then .error (fail .overflow)
      else .ok (items.filterMap (ofItem? table)) := by
  induction items with
  | nil => rfl
  | cons item rest ih =>
    rw [readItems, List.filterMap_cons, List.any_cons, overflows]
    rcases readItem_cases distinct item with ⟨read, none, _⟩ | ⟨reason, read, none, _⟩ |
      ⟨b, read, some, _⟩
    · simp only [read, none, ih, Bool.false_or]
    · rw [read, none]
      cases reason with
      | overflow => simp
      | _ => simp [ih]
    · simp only [read, some, ih, Bool.false_or]
      split <;> rfl

/-- A strict reading fails unless no item is rejected, and then makes the same bindings. -/
theorem readItems_strict (distinct : table.Distinct) (fail : DecodeFailure → AnswerError)
    (items : List SExpr) :
    (∃ bs, readItems table .strict fail items = .ok bs) ↔
      ∀ item ∈ items, rejects table item = false := by
  induction items with
  | nil => simp [readItems]
  | cons item rest ih =>
    rw [readItems, List.forall_mem_cons, ← ih]
    rcases readItem_cases distinct item with ⟨read, _, keeps⟩ | ⟨_, read, _, drops⟩ |
      ⟨b, read, _, keeps⟩
    · simp [read, keeps]
    · simp [read, drops]
    · simp [read, keeps, Except.map_eq_ok]

theorem readItems_lenient_of_strict {fail : DecodeFailure → AnswerError} {items : List SExpr}
    {bs : List Binding} (read : readItems table .strict fail items = .ok bs) :
    readItems table .lenient fail items = .ok bs := by
  induction items generalizing bs with
  | nil => exact read
  | cons item rest ih =>
    rw [readItems] at read ⊢
    split at read
    · cases read
    · next item' read' => exact ih read
    · cases read
    · obtain ⟨others, later, rfl⟩ := Except.map_eq_ok.mp read
      rw [ih later]
      rfl

/-- What a strict reading of a model accepts, a lenient one reads the same way. -/
theorem extract_lenient_of_strict {line : String} {tree : SExpr} {bs : List Binding}
    (read : extract table .strict line tree = .ok bs) :
    extract table .lenient line tree = .ok bs := by
  simp only [extract] at read ⊢
  split at read
  · exact readItems_lenient_of_strict read
  · cases read

theorem extract_lenient (distinct : table.Distinct) (line : String) (tree : SExpr) :
    extract table .lenient line tree =
      if ((items? tree).getD []).any (overflows table) then
        .error (.undecodable line tree .overflow)
      else .ok (((items? tree).getD []).filterMap (ofItem? table)) := by
  rw [extract]
  cases items? tree with
  | none => rfl
  | some items => exact readItems_lenient distinct _ items

end Binding

/-- What one group of lines says. -/
structure Report where
  bindings : List Binding
  objectives : List ObjectiveValue

namespace Report

variable (normalizer : Normalizer) (table : SymbolTable) (strictness : Strictness)

/-- The report of a group: the values of objectives, or else bindings. -/
def ofGroup (text : String) : Except AnswerError Report :=
  match SExpr.parse text with
  | .error e =>
    match strictness with
    | .strict => .error (.unreadable e)
    | .lenient => if e.fault.cause = .overflow then .error (.unreadable e) else .ok ⟨[], []⟩
  | .ok tree =>
    if (normalizer tree).overflows then .error (.undecodable text (normalizer tree) .overflow)
    else if ObjectiveValue.isObjectives (normalizer tree) then
      (ObjectiveValue.extract table text (normalizer tree)).map fun os => ⟨[], os⟩
    else
      (Binding.extract table strictness text (normalizer tree)).map fun bs => ⟨bs, []⟩

variable {normalizer table}

/-- Whether a text is read as values of objectives. -/
def IsObjectives (normalizer : Normalizer) (text : String) (tree : SExpr) : Prop :=
  SExpr.parse text = .ok tree ∧ (normalizer tree).overflows = false ∧
    ObjectiveValue.isObjectives (normalizer tree) = true

/-- What comes of a group, by what decides it: whether it is read, whether normalizing it
overflows, and whether it lists values of objectives. -/
inductive Yields (normalizer : Normalizer) (table : SymbolTable) (text : String) :
    Strictness → Except AnswerError Report → Prop where
  | unread {strictness : Strictness} {e : ReadError} (unread : SExpr.parse text = .error e)
      (counts : strictness = .lenient → e.fault.cause = .overflow) :
    Yields normalizer table text strictness (.error (.unreadable e))
  | dropped {e : ReadError} (unread : SExpr.parse text = .error e)
      (fault : e.fault.cause ≠ .overflow) : Yields normalizer table text .lenient (.ok ⟨[], []⟩)
  | overflowing {strictness : Strictness} {tree : SExpr} (read : SExpr.parse text = .ok tree)
      (overflow : (normalizer tree).overflows = true) :
    Yields normalizer table text strictness
      (.error (.undecodable text (normalizer tree) .overflow))
  | objectives {strictness : Strictness} {tree : SExpr} {outcome : Except AnswerError Report}
      (listed : IsObjectives normalizer text tree)
      (extracted : (ObjectiveValue.extract table text (normalizer tree)).map (⟨[], ·⟩) = outcome) :
    Yields normalizer table text strictness outcome
  | bindings {strictness : Strictness} {tree : SExpr} {outcome : Except AnswerError Report}
      (read : SExpr.parse text = .ok tree) (fits : (normalizer tree).overflows = false)
      (model : ObjectiveValue.isObjectives (normalizer tree) = false)
      (extracted :
        (Binding.extract table strictness text (normalizer tree)).map (⟨·, []⟩) = outcome) :
    Yields normalizer table text strictness outcome

theorem yields_ofGroup (normalizer : Normalizer) (table : SymbolTable) (strictness : Strictness)
    (text : String) :
    Yields normalizer table text strictness (ofGroup normalizer table strictness text) := by
  rw [ofGroup]
  cases read : SExpr.parse text with
  | error e =>
    cases strictness with
    | strict => exact .unread read nofun
    | lenient =>
      by_cases overflow : e.fault.cause = .overflow
      · simpa [overflow] using Yields.unread read fun _ => overflow
      · simpa [overflow] using Yields.dropped read overflow
  | ok tree =>
    dsimp only
    split_ifs with overflow listed
    · exact .overflowing read overflow
    · exact .objectives ⟨read, by simpa using overflow, listed⟩ rfl
    · exact .bindings read (by simpa using overflow) (by simpa using listed) rfl

theorem ofGroup_of_isObjectives {text : String} {tree : SExpr}
    (listed : IsObjectives normalizer text tree) :
    ofGroup normalizer table strictness text =
      (ObjectiveValue.extract table text (normalizer tree)).map (⟨[], ·⟩) := by
  obtain ⟨read, fits, objectives⟩ := listed
  simp [ofGroup, read, fits, objectives]

theorem ofGroup_of_model {text : String} {tree : SExpr} (read : SExpr.parse text = .ok tree)
    (fits : (normalizer tree).overflows = false)
    (model : ObjectiveValue.isObjectives (normalizer tree) = false) :
    ofGroup normalizer table strictness text =
      (Binding.extract table strictness text (normalizer tree)).map (⟨·, []⟩) := by
  simp [ofGroup, read, fits, model]

theorem ofGroup_lenient_of_strict {text : String} {r : Report}
    (said : ofGroup normalizer table .strict text = .ok r) :
    ofGroup normalizer table .lenient text = .ok r := by
  have yields := yields_ofGroup normalizer table .strict text
  rw [said] at yields
  cases yields with
  | objectives listed extracted => rw [ofGroup_of_isObjectives _ listed, extracted]
  | bindings read fits model extracted =>
    obtain ⟨bs, strict, rfl⟩ := Except.map_eq_ok.mp extracted
    rw [ofGroup_of_model _ read fits model, Binding.extract_lenient_of_strict strict]
    rfl

/-- Whether a group overflows: while it is read, while it is normalized, or at the value of an
item of a model. -/
inductive Overflows (normalizer : Normalizer) (table : SymbolTable) (text : String) :
    AnswerError → Prop where
  | reading {e : ReadError} (unread : SExpr.parse text = .error e)
      (overflow : e.fault.cause = .overflow) : Overflows normalizer table text (.unreadable e)
  | normalizing {tree : SExpr} (read : SExpr.parse text = .ok tree)
      (overflow : (normalizer tree).overflows = true) :
      Overflows normalizer table text (.undecodable text (normalizer tree) .overflow)
  | decoding {tree : SExpr} {items : List SExpr} {item : SExpr}
      (read : SExpr.parse text = .ok tree) (fits : (normalizer tree).overflows = false)
      (model : Binding.items? (normalizer tree) = some items) (member : item ∈ items)
      (overflow : Binding.overflows table item = true) :
      Overflows normalizer table text (.undecodable text (normalizer tree) .overflow)

theorem Overflows.isOverflow {text : String} {e : AnswerError}
    (overflows : Overflows normalizer table text e) : e.isOverflow = true := by
  cases overflows with
  | reading _ overflow => simp [AnswerError.isOverflow, overflow]
  | normalizing | decoding => rfl

theorem isObjectives_of_items? {tree : SExpr} {items : List SExpr}
    (model : Binding.items? tree = some items) : ObjectiveValue.isObjectives tree = false := by
  rcases tree with a | (_ | ⟨head, rest⟩)
  · cases model
  · rfl
  · by_contra objectives
    have named : head.symbol? = some "objectives" :=
      of_decide_eq_true (Bool.eq_true_of_not_eq_false objectives)
    cases head with
    | app items => cases named
    | atom a => simp [Binding.items?, SExpr.isSymbol, named, SExpr.isAtom] at model

/-- Exactly values of objectives and overflows make a lenient reading fail. -/
theorem ofGroup_lenient_eq_error (distinct : table.Distinct) {text : String} {e : AnswerError} :
    ofGroup normalizer table .lenient text = .error e ↔
      Overflows normalizer table text e ∨
        ∃ tree, IsObjectives normalizer text tree ∧
          ObjectiveValue.extract table text (normalizer tree) = .error e := by
  constructor
  · intro failed
    have yields := yields_ofGroup normalizer table .lenient text
    rw [failed] at yields
    cases yields with
    | unread unread counts => exact .inl (.reading unread (counts rfl))
    | overflowing read overflow => exact .inl (.normalizing read overflow)
    | @objectives _ tree _ listed extracted =>
      exact .inr ⟨tree, listed, Except.map_eq_error.mp extracted⟩
    | @bindings _ tree _ read fits _ extracted =>
      rw [Except.map_eq_error, Binding.extract_lenient distinct] at extracted
      split at extracted
      · next some =>
        cases extracted
        obtain ⟨item, member, overflow⟩ := List.any_eq_true.mp some
        cases model : Binding.items? (normalizer tree) with
        | none => simp [model] at member
        | some items =>
          rw [model] at member
          exact .inl (.decoding read fits model member overflow)
      · cases extracted
  · rintro (overflow | ⟨tree, listed, failed⟩)
    · cases overflow with
      | reading unread overflow => simp [ofGroup, unread, overflow]
      | normalizing read overflow => simp [ofGroup, read, overflow]
      | @decoding tree items item read fits model member overflow =>
        have some : items.any (Binding.overflows table) = true :=
          List.any_eq_true.mpr ⟨item, member, overflow⟩
        rw [ofGroup_of_model _ read fits (isObjectives_of_items? model)]
        simp [Binding.extract_lenient distinct, model, some, Except.map]
    · rw [ofGroup_of_isObjectives _ listed, failed]
      rfl

end Report

namespace Model

/-- Adds what a group says. -/
def add (m : Model) (r : Report) : Model :=
  (m.bindAll r.bindings).addObjectives r.objectives

theorem addGroup_eq (normalizer : Normalizer) (table : SymbolTable) (strictness : Strictness)
    (m : Model) (text : String) :
    addGroup normalizer table strictness m text =
      (Report.ofGroup normalizer table strictness text).map m.add := by
  rw [addGroup, Report.ofGroup]
  cases SExpr.parse text with
  | error fault =>
    cases strictness with
    | strict => rfl
    | lenient =>
      dsimp only
      split <;> simp [Except.map, add, bindAll, addObjectives]
  | ok tree =>
    dsimp only
    split
    · rfl
    split
    · cases ObjectiveValue.extract table text (normalizer tree) <;> rfl
    · cases Binding.extract table strictness text (normalizer tree) <;>
        simp [Except.map, add, addObjectives]

theorem bindAll_eq (m : Model) (bs : List Binding) :
    m.bindAll bs =
      ⟨bs.foldl (fun acc b => Keyed.put Binding.id b acc) m.bindings, m.objectives⟩ := by
  induction bs generalizing m with
  | nil => rfl
  | cons b rest ih => exact ih (m.bind b)

/-- The model of some reports: the last binding of every word, in ascending order, and
the values of objectives as they were said. -/
def ofReports (rs : List Report) : Model :=
  ⟨Keyed.ofList Binding.id (rs.flatMap Report.bindings), rs.flatMap Report.objectives⟩

theorem foldl_add_eq (rs : List Report) (m : Model) :
    rs.foldl add m =
      ⟨(rs.flatMap Report.bindings).foldl (fun acc b => Keyed.put Binding.id b acc) m.bindings,
        m.objectives ++ rs.flatMap Report.objectives⟩ := by
  induction rs generalizing m with
  | nil => simp
  | cons r rest ih =>
    rw [List.foldl_cons, ih, add, bindAll_eq]
    simp [addObjectives, List.foldl_append]

/-- Every group is read on its own, and the model holds what they report. -/
theorem ofLines_eq (normalizer : Normalizer) (table : SymbolTable) (strictness : Strictness)
    (lines : List String) :
    ofLines normalizer table strictness lines =
      ((Group.ofLines lines).mapM (Report.ofGroup normalizer table strictness)).map ofReports := by
  rw [ofLines, Except.foldlM_eq_map (addGroup_eq normalizer table strictness)]
  congr 1
  funext rs
  rw [foldl_add_eq]
  rfl

end Model

end SmtDialogue
