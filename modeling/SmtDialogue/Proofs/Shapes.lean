import SmtDialogue.Proofs.Leniency

/-!
# Shapes of items

An item of a model gives a value to a symbol in one of two shapes: a definition without
parameters, or a pair. What is made of a definition without a value is neither: its word
is looked up as the symbol that is defined, while its two items are taken for a pair, so
that the word is also the value. Without such items a strict reading makes its bindings of
documented shapes alone, and the formats in which a model is printed are read alike.
-/

namespace SmtDialogue

namespace Binding

/-- The shapes in which an item gives a value to a symbol. -/
inductive Shape (symbol : String) (value : SExpr) : SExpr → Prop where
  | definition (sort : SExpr) :
    Shape symbol value
      (.app [.atom (.symbol "define-fun"), .atom (.symbol symbol), .app [], sort, value])
  | pair : Shape symbol value (.app [.atom (.symbol symbol), value])

/-- A definition of a symbol with no value. -/
def bareDefinition (symbol : String) : SExpr :=
  .app [.atom (.symbol "define-fun"), .atom (.symbol symbol)]

section

variable {symbol : String} {value item : SExpr}

theorem Shape.value?_eq (shape : Shape symbol value item) : value? item = some value := by
  cases shape with
  | definition sort => rfl
  | pair => rfl

/-- A pair of `define-fun` and a value is about the value. -/
theorem Shape.symbol?_eq (shape : Shape symbol value item) (other : symbol ≠ "define-fun") :
    symbol? item = some symbol := by
  cases shape with
  | definition sort => rfl
  | pair => simp [symbol?, SExpr.isSymbol, SExpr.symbol?, other]

theorem symbol?_bareDefinition : symbol? (bareDefinition symbol) = some symbol := rfl

theorem value?_bareDefinition :
    value? (bareDefinition symbol) = some (.atom (.symbol symbol)) := rfl

theorem eq_symbol_of_symbol? {e : SExpr} (named : e.symbol? = some symbol) :
    e = .atom (.symbol symbol) := by
  cases e with
  | app items => cases named
  | atom a => cases a <;> simp_all [SExpr.symbol?]

/-- An item that is about a symbol and has a value gives it to that symbol, or else is a
definition without a value. -/
theorem shape_or_bare (named : symbol? item = some symbol) (valued : value? item = some value) :
    Shape symbol value item ∨
      item = bareDefinition symbol ∧ value = .atom (.symbol symbol) := by
  rw [value?.eq_def] at valued
  split at valued
  · next head name params sort last =>
    split at valued
    · next shaped =>
      obtain ⟨headed, rfl, -⟩ := shaped
      cases valued
      have named' : name.symbol? = some symbol := by simpa [symbol?, headed] using named
      obtain rfl := eq_symbol_of_symbol? named'
      obtain rfl := eq_symbol_of_symbol? (of_decide_eq_true headed)
      exact .inl (.definition sort)
    · cases valued
  · next name last =>
    split at valued
    · cases valued
      cases headed : name.isSymbol "define-fun" with
      | true =>
        have named' : value.symbol? = some symbol := by simpa [symbol?, headed] using named
        obtain rfl := eq_symbol_of_symbol? named'
        obtain rfl := eq_symbol_of_symbol? (of_decide_eq_true headed)
        exact .inr ⟨rfl, rfl⟩
      | false =>
        have named' : name.symbol? = some symbol := by simpa [symbol?, headed] using named
        obtain rfl := eq_symbol_of_symbol? named'
        exact .inl .pair
    · cases valued
  · cases valued

end

section

variable {table : SymbolTable}

/-- An item of a documented shape makes a binding. -/
def Documented (table : SymbolTable) (item : SExpr) (b : Binding) : Prop :=
  ∃ symbol value, Shape symbol value item ∧ Gives table symbol value b

/-- A definition without a value makes a binding, with its symbol as the value. -/
def Misread (table : SymbolTable) (item : SExpr) (b : Binding) : Prop :=
  ∃ symbol, item = bareDefinition symbol ∧ Gives table symbol (.atom (.symbol symbol)) b

/-- Each item makes a binding as the relation says, or its symbol belongs to no variable. -/
inductive Reads (table : SymbolTable) (makes : SExpr → Binding → Prop) :
    List SExpr → List Binding → Prop where
  | nil : Reads table makes [] []
  | foreign {item rest bs} : isForeign table item = true → Reads table makes rest bs →
    Reads table makes (item :: rest) bs
  | bound {item rest b bs} : makes item b → Reads table makes rest bs →
    Reads table makes (item :: rest) (b :: bs)

/-- A symbol that resolves to a variable is no keyword. -/
theorem Gives.ne_define {symbol : String} {value : SExpr} {b : Binding}
    (gives : Gives table symbol value b) : symbol ≠ "define-fun" := by
  rintro rfl
  obtain ⟨v, resolved, -⟩ := gives
  have word : WordId.ofSymbol? "define-fun" = none := by decide
  rw [SymbolTable.resolve_eq_none_iff.mpr (by rw [word]; rfl)] at resolved
  cases resolved

/-- An item that makes a binding is of a documented shape, or misread. -/
theorem readItem_eq_bound_iff {item : SExpr} {b : Binding} :
    readItem table item = .ok (.bound b) ↔ Documented table item b ∨ Misread table item b := by
  rw [readItem_eq_bound]
  constructor
  · rintro ⟨symbol, value, named, valued, gives⟩
    rcases shape_or_bare named valued with shape | ⟨rfl, rfl⟩
    · exact .inl ⟨symbol, value, shape, gives⟩
    · exact .inr ⟨symbol, rfl, gives⟩
  · rintro (⟨symbol, value, shape, gives⟩ | ⟨symbol, rfl, gives⟩)
    · exact ⟨symbol, value, shape.symbol?_eq gives.ne_define, shape.value?_eq, gives⟩
    · exact ⟨symbol, _, symbol?_bareDefinition, value?_bareDefinition, gives⟩

/-- A strict reading accepts nothing but foreign items and items that make a binding. -/
theorem readItems_strict_eq_ok {fail : DecodeFailure → AnswerError} {items : List SExpr}
    {bs : List Binding} :
    readItems table .strict fail items = .ok bs ↔
      Reads table (fun item b => Documented table item b ∨ Misread table item b) items bs := by
  constructor
  · intro read
    induction items generalizing bs with
    | nil =>
      cases read
      exact .nil
    | cons item rest ih =>
      rw [readItems] at read
      split at read
      · cases read
      · next ignored => exact .foreign (readItem_eq_ignored.mp ignored) (ih read)
      · cases read
      · next b bound =>
        obtain ⟨others, later, rfl⟩ := Except.map_eq_ok.mp read
        exact .bound (readItem_eq_bound_iff.mp bound) (ih later)
  · intro reads
    induction reads with
    | nil => rfl
    | foreign unknown _ ih => simp only [readItems, readItem_eq_ignored.mpr unknown, ih]
    | bound makes _ ih => simp only [readItems, readItem_eq_bound_iff.mpr makes, ih, Except.map]

theorem extract_strict_eq_ok {line : String} {tree : SExpr} {bs : List Binding} :
    extract table .strict line tree = .ok bs ↔
      ∃ items, items? tree = some items ∧
        Reads table (fun item b => Documented table item b ∨ Misread table item b) items bs := by
  cases found : items? tree with
  | none => simp [extract, found]
  | some items => simp [extract, found, readItems_strict_eq_ok]

/-- No definition without a value is about a variable. -/
def NoneBare (table : SymbolTable) (items : List SExpr) : Prop :=
  ∀ symbol, bareDefinition symbol ∈ items → isForeign table (bareDefinition symbol) = true

theorem Misread.not_foreign {item : SExpr} {b : Binding} (misread : Misread table item b) :
    isForeign table item = false := by
  have read := readItem_eq_bound_iff.mpr (.inr misread)
  rw [← Bool.not_eq_true, ← readItem_eq_ignored, read]
  rintro ⟨⟩

/-- The only documented shape of a definition without a value makes no binding. -/
theorem not_documented_bareDefinition {symbol : String} {b : Binding} :
    ¬Documented table (bareDefinition symbol) b := by
  rintro ⟨name, value, shape, gives⟩
  cases shape with
  | pair => exact gives.ne_define rfl

theorem Reads.foreign_or_makes {makes : SExpr → Binding → Prop} {items : List SExpr}
    {bs : List Binding} (reads : Reads table makes items bs) {item : SExpr}
    (member : item ∈ items) : isForeign table item = true ∨ ∃ b ∈ bs, makes item b := by
  induction reads with
  | nil => cases member
  | foreign unknown _ ih =>
    rcases List.mem_cons.mp member with rfl | member
    · exact .inl unknown
    · exact ih member
  | bound made _ ih =>
    rcases List.mem_cons.mp member with rfl | member
    · exact .inr ⟨_, List.mem_cons_self, made⟩
    · refine (ih member).imp_right ?_
      rintro ⟨b, inside, made⟩
      exact ⟨b, List.mem_cons_of_mem _ inside, made⟩

theorem Reads.imp {makes makes' : SExpr → Binding → Prop} {items : List SExpr}
    {bs : List Binding} (reads : Reads table makes items bs)
    (same : ∀ item ∈ items, ∀ b, makes item b → makes' item b) :
    Reads table makes' items bs := by
  induction reads with
  | nil => exact .nil
  | foreign unknown _ ih =>
    exact .foreign unknown (ih fun item member => same item (List.mem_cons_of_mem _ member))
  | bound made _ ih =>
    exact .bound (same _ List.mem_cons_self _ made)
      (ih fun item member => same item (List.mem_cons_of_mem _ member))

theorem reads_documented_iff {items : List SExpr} {bs : List Binding} :
    Reads table (Documented table) items bs ↔
      NoneBare table items ∧
        Reads table (fun item b => Documented table item b ∨ Misread table item b) items bs := by
  constructor
  · intro reads
    refine ⟨fun symbol member => ?_, reads.imp fun _ _ _ => .inl⟩
    rcases reads.foreign_or_makes member with unknown | ⟨b, _, documented⟩
    · exact unknown
    · exact absurd documented not_documented_bareDefinition
  · rintro ⟨noneBare, reads⟩
    refine reads.imp fun item member b makes => makes.resolve_right fun misread => ?_
    have known := misread.not_foreign
    obtain ⟨symbol, rfl, -⟩ := misread
    rw [noneBare symbol member] at known
    cases known

end

/-- A strict reading of a model accepts items about foreign symbols, items of a documented
shape, which give the variable of their symbol the value that their last part decodes to,
and definitions without a value, whose symbol is taken for its own value. Any other item
makes it fail. Its bindings are made of documented shapes, in order, exactly when no
definition without a value is about a variable. -/
theorem extract_strict_iff (table : SymbolTable) (line : String) (tree : SExpr)
    (bs : List Binding) :
    (extract table .strict line tree = .ok bs ↔
      ∃ items, items? tree = some items ∧
        Reads table (fun item b => Documented table item b ∨ Misread table item b) items bs) ∧
    ((∃ items, items? tree = some items ∧ Reads table (Documented table) items bs) ↔
      ∃ items, items? tree = some items ∧ NoneBare table items ∧
        extract table .strict line tree = .ok bs) := by
  refine ⟨extract_strict_eq_ok, exists_congr fun items => ?_⟩
  refine and_congr_right fun found => ?_
  rw [reads_documented_iff, extract_strict_eq_ok, found]
  simp

/-- A word of a declared sort. -/
def declaredTable : SymbolTable := ⟨[⟨⟨0⟩, "x", .sort "U" none⟩]⟩

/-- A definition without a value binds the variable to its own symbol, and no item of the
model has a documented shape that makes this binding. -/
theorem bareDefinition_bound :
    extract declaredTable .strict "((define-fun s0))" (.app [bareDefinition "s0"]) =
        .ok [⟨⟨0⟩, "x", ⟨.sort "U" none, .element none "s0", rfl⟩⟩] ∧
      ¬∀ table line tree bs, extract table .strict line tree = .ok bs →
        ∀ b ∈ bs, ∃ items, items? tree = some items ∧
          ∃ item ∈ items, Documented table item b := by
  have read : extract declaredTable .strict "((define-fun s0))" (.app [bareDefinition "s0"]) =
      .ok [⟨⟨0⟩, "x", ⟨.sort "U" none, .element none "s0", rfl⟩⟩] := by decide
  refine ⟨read, fun all => ?_⟩
  obtain ⟨items, found, item, member, documented⟩ := all _ _ _ _ read _ List.mem_cons_self
  cases found
  obtain rfl := List.mem_singleton.mp member
  exact not_documented_bareDefinition documented

/-- A symbol with a value, and the sort that a definition states. -/
structure Assigned where
  symbol : String
  sort : SExpr
  value : SExpr

namespace Assigned

def definition (x : Assigned) : SExpr :=
  .app [.atom (.symbol "define-fun"), .atom (.symbol x.symbol), .app [], x.sort, x.value]

def pair (x : Assigned) : SExpr :=
  .app [.atom (.symbol x.symbol), x.value]

end Assigned

/-- The formats in which solvers print a model. -/
inductive Format where
  /-- Definitions that follow the head `model`. -/
  | headed
  /-- A list of definitions. -/
  | headless
  | pairs

namespace Format

def item : Format → Assigned → SExpr
  | .headed | .headless => Assigned.definition
  | .pairs => Assigned.pair

def tree (format : Format) (xs : List Assigned) : SExpr :=
  match format with
  | .headed => .app (.atom (.symbol "model") :: xs.map format.item)
  | .headless | .pairs => .app (xs.map format.item)

end Format

variable {table : SymbolTable}

namespace Format

theorem shape_item (format : Format) (x : Assigned) :
    Shape x.symbol x.value (format.item x) := by
  cases format with
  | headed => exact .definition x.sort
  | headless => exact .definition x.sort
  | pairs => exact .pair

theorem isAtom_item (format : Format) (x : Assigned) : (format.item x).isAtom = false := by
  cases format <;> rfl

theorem items?_tree (format : Format) (xs : List Assigned) :
    items? (format.tree xs) = some (xs.map format.item) := by
  have apps : ∀ e ∈ xs.map format.item, e.isAtom = false := by
    intro e member
    obtain ⟨x, _, rfl⟩ := List.mem_map.mp member
    exact format.isAtom_item x
  cases format with
  | headed => rfl
  | headless => exact items?_of_apps apps
  | pairs => exact items?_of_apps apps

end Format

/-- The bindings of symbols with values, whatever the model was printed as. -/
def assign (table : SymbolTable) (strictness : Strictness) :
    List Assigned → Except (Ambiguity ⊕ DecodeFailure) (List Binding)
  | [] => .ok []
  | x :: rest =>
    match table.resolve x.symbol with
    | .error a => .error (.inl a)
    | .ok none => assign table strictness rest
    | .ok (some v) =>
      match Value.decode v.kind x.value with
      | .ok value => (assign table strictness rest).map (⟨v.id, v.name, value⟩ :: ·)
      | .error reason =>
        match strictness with
        | .strict => .error (.inr reason)
        | .lenient =>
          if reason = .overflow then .error (.inr reason) else assign table strictness rest

/-- An ambiguity, or a reason why a model is undecodable, as it is reported. -/
def report (line : String) (tree : SExpr) : Ambiguity ⊕ DecodeFailure → AnswerError
  | .inl a => .ambiguous a
  | .inr reason => .undecodable line tree reason

theorem readItems_items (format : Format) (strictness : Strictness) (line : String)
    (tree : SExpr) {xs : List Assigned} (others : ∀ x ∈ xs, x.symbol ≠ "define-fun") :
    readItems table strictness (.undecodable line tree) (xs.map format.item) =
      (assign table strictness xs).mapError (report line tree) := by
  induction xs with
  | nil => rfl
  | cons x rest ih =>
    have ih := ih fun y member => others y (List.mem_cons_of_mem _ member)
    have shape := format.shape_item x
    have named := shape.symbol?_eq (others x List.mem_cons_self)
    rw [List.map_cons, readItems, assign, ih]
    simp only [readItem, named, shape.value?_eq]
    cases table.resolve x.symbol with
    | error a => rfl
    | ok found =>
      cases found with
      | none => rfl
      | some v =>
        dsimp only
        cases Value.decode v.kind x.value with
        | ok value => cases assign table strictness rest <;> rfl
        | error reason =>
          cases strictness with
          | strict => rfl
          | lenient =>
            dsimp only
            split <;> rfl

/-- A model says the same in every format: each symbol that the table knows is bound to the
value decoded at the kind of its variable, in order. The readings of all formats fail at
the first ambiguous symbol, and strict ones at the first undecodable value, for the same
reason. -/
theorem extract_format (format : Format) (strictness : Strictness) (line : String)
    {xs : List Assigned} (others : ∀ x ∈ xs, x.symbol ≠ "define-fun") :
    extract table strictness line (format.tree xs) =
      (assign table strictness xs).mapError (report line (format.tree xs)) := by
  simp only [extract, format.items?_tree]
  exact readItems_items format strictness line (format.tree xs) others

/-- A symbol like the head of a model, a value that does not fit, and a symbol twice. -/
def assortedValues : List Assigned :=
  let int := SExpr.atom (.symbol "Int")
  [⟨"model", int, .atom (.int 7 none)⟩, ⟨"s1", int, .atom (.string "5")⟩,
    ⟨"s0", int, .atom (.int 3 none)⟩, ⟨"s00", .app [], .atom (.int 4 none)⟩]

/-- In each format a lenient reading drops the value that does not fit, and a strict one
fails at it. -/
theorem extract_format_assorted :
    (∀ x ∈ assortedValues, x.symbol ≠ "define-fun") ∧
      ∀ format : Format,
        extract Sample.objectiveTable .lenient "" (format.tree assortedValues) =
            .ok [⟨⟨0⟩, "x", .ofInteger 3⟩, ⟨⟨0⟩, "x", .ofInteger 4⟩] ∧
          extract Sample.objectiveTable .strict "" (format.tree assortedValues) =
            .error (.undecodable "" (format.tree assortedValues)
              (.kindMismatch .integer (.atom (.string "5")))) ∧
          extract Sample.ambiguousTable .lenient "" (format.tree assortedValues) =
            .error (.ambiguous ⟨"s0", ["x", "x'"]⟩) := by
  have others : ∀ x ∈ assortedValues, x.symbol ≠ "define-fun" := by decide
  refine ⟨others, fun format => ⟨?_, ?_, ?_⟩⟩
  · rw [extract_format format .lenient "" others]
    have assigned : assign Sample.objectiveTable .lenient assortedValues =
      .ok [⟨⟨0⟩, "x", .ofInteger 3⟩, ⟨⟨0⟩, "x", .ofInteger 4⟩] := by decide
    rw [assigned]
    rfl
  · rw [extract_format format .strict "" others]
    have fails : assign Sample.objectiveTable .strict assortedValues =
      .error (.inr (.kindMismatch .integer (.atom (.string "5")))) := by decide
    rw [fails]
    rfl
  · rw [extract_format format .lenient "" others]
    have fails : assign Sample.ambiguousTable .lenient assortedValues =
      .error (.inl ⟨"s0", ["x", "x'"]⟩) := by decide
    rw [fails]
    rfl

end Binding

end SmtDialogue
