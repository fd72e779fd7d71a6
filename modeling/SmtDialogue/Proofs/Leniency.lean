import SmtDialogue.Proofs.Reports
import SmtDialogue.Sample.Table

/-!
# Lenient and strict readings

A lenient reading of a model is the strict reading of the model without the items that a
strict one rejects, unless one of these overflows. Items about symbols that the table does
not know count in neither. A whole answer that is read strictly is read the same way
leniently, where nothing but an overflow and values of objectives can make the reading fail.
-/

namespace SmtDialogue

/-- The error with another tree as the one that is undecodable. -/
def AnswerError.withTree (tree : SExpr) : AnswerError → AnswerError
  | .undecodable line _ reason => .undecodable line tree reason
  | e => e

namespace SExpr

/-- A model with the items that pass a test. A tree that is no model stays as it is. -/
def keepItems (keep : SExpr → Bool) : SExpr → SExpr
  | .atom a => .atom a
  | .app [] => .app []
  | .app (head :: rest) =>
    if head.isSymbol "model" then .app (head :: rest.filter keep)
    else if (head :: rest).all fun e => !e.isAtom then .app ((head :: rest).filter keep)
    else .app (head :: rest)

end SExpr

namespace Binding

theorem items?_of_apps {items : List SExpr} (apps : ∀ e ∈ items, e.isAtom = false) :
    items? (.app items) = some items := by
  cases items with
  | nil => rfl
  | cons head rest =>
    have plain : head.isSymbol "model" = false := by
      cases head with
      | atom a => cases apps _ List.mem_cons_self
      | app _ => rfl
    have all : ((head :: rest).all fun e => !e.isAtom) = true := by simpa using apps
    simp only [items?, plain, all, if_true, Bool.false_eq_true, if_false]

theorem items?_keepItems (keep : SExpr → Bool) (tree : SExpr) :
    items? (tree.keepItems keep) = (items? tree).map (List.filter keep) := by
  cases tree with
  | atom a => rfl
  | app items =>
    cases items with
    | nil => rfl
    | cons head rest =>
      rw [SExpr.keepItems]
      split
      · next headed => simp [items?, headed]
      · next plain =>
        split
        · next all =>
          have apps : ∀ e ∈ head :: rest, e.isAtom = false := by simpa using all
          rw [items?_of_apps apps, items?_of_apps fun e member =>
            apps e (List.mem_of_mem_filter member)]
          rfl
        · next mixed => simp [items?, plain, mixed]

section

variable {table : SymbolTable}

/-- Without the rejected items the strict reading is the lenient one. -/
theorem readItems_strict_kept (distinct : table.Distinct) (fail : DecodeFailure → AnswerError)
    {items : List SExpr} (fits : items.any (overflows table) = false) :
    readItems table .strict fail (items.filter fun item => !rejects table item) =
      readItems table .lenient fail items := by
  have kept : ∀ item ∈ items.filter fun item => !rejects table item,
      rejects table item = false := by
    intro item member
    simpa using List.of_mem_filter member
  obtain ⟨bs, read⟩ := (readItems_strict distinct fail _).mpr kept
  have same := readItems_lenient_of_strict read
  -- a rejected item makes no binding, so the kept ones make them all
  have silent : (ofItem? table) = fun item =>
      if (!rejects table item) = true then ofItem? table item else none := by
    funext item
    rcases readItem_cases distinct item with ⟨_, none, keeps⟩ | ⟨_, _, none, drops⟩ |
      ⟨_, _, _, keeps⟩
    · simp [none]
    · simp [none]
    · simp [keeps]
  have keptFit : (items.filter fun item => !rejects table item).any (overflows table) = false := by
    rw [List.any_eq_false] at fits ⊢
    exact fun item member => fits item (List.mem_of_mem_filter member)
  rw [readItems_lenient distinct, keptFit, if_neg Bool.false_ne_true, List.filterMap_filter,
    ← silent] at same
  rw [read, readItems_lenient distinct, fits, if_neg Bool.false_ne_true, same]

/-- The symbol of an item belongs to no variable. -/
def isForeign (table : SymbolTable) (item : SExpr) : Bool :=
  (symbol? item).any fun symbol =>
    (WordId.ofSymbol? symbol).all fun id => (table.withId id).isEmpty

theorem readItem_eq_ignored {item : SExpr} :
    readItem table item = .ok .ignored ↔ isForeign table item = true := by
  have foreign : isForeign table item = true ↔
      ∃ symbol, symbol? item = some symbol ∧ table.resolve symbol = .ok none := by
    simp only [isForeign, Option.any_eq_true, SymbolTable.resolve_eq_none_iff]
  rw [foreign]
  constructor
  · intro read
    have becomes := becomes_readItem table item
    rw [read] at becomes
    cases becomes with
    | foreign named unresolved => exact ⟨_, named, unresolved⟩
  · rintro ⟨symbol, named, unresolved⟩
    simp [readItem, named, unresolved]

theorem readItems_keep_foreign {keep : SExpr → Bool}
    (drops : ∀ item, keep item = false → isForeign table item = true) (strictness : Strictness)
    (fail : DecodeFailure → AnswerError) (items : List SExpr) :
    readItems table strictness fail (items.filter keep) =
      readItems table strictness fail items := by
  induction items with
  | nil => rfl
  | cons item rest ih =>
    cases kept : keep item with
    | true =>
      rw [List.filter_cons_of_pos kept, readItems, readItems, ih]
    | false =>
      rw [List.filter_cons_of_neg (by simp [kept]), ih, readItems.eq_2,
        readItem_eq_ignored.mpr (drops item kept)]

/-- The tree is only mentioned in the error. -/
theorem readItems_withTree (strictness : Strictness) (line : String) (tree other : SExpr)
    (items : List SExpr) :
    readItems table strictness (.undecodable line other) items =
      (readItems table strictness (.undecodable line tree) items).mapError (.withTree other) := by
  induction items with
  | nil => rfl
  | cons item rest ih =>
    simp only [readItems]
    cases readItem table item with
    | error a => rfl
    | ok what =>
      cases what with
      | ignored => exact ih
      | rejected reason =>
        cases strictness with
        | strict => rfl
        | lenient =>
          dsimp only
          split
          · rfl
          · exact ih
      | bound b =>
        simp only [ih]
        cases readItems table strictness (.undecodable line tree) rest <;> rfl

theorem extract_strict_of_no_items {tree : SExpr} (none : items? tree = none) (line : String) :
    extract table .strict line tree =
        .error (.undecodable line tree (.unexpectedRoot "model")) ∧
      extract table .lenient line tree = .ok [] := by
  simp [extract, none]

theorem extract_lenient_eq_error (distinct : table.Distinct) {line : String} {tree : SExpr}
    {e : AnswerError} :
    extract table .lenient line tree = .error e ↔
      e = .undecodable line tree .overflow ∧
        ∃ items, items? tree = some items ∧ ∃ item ∈ items, overflows table item = true := by
  have listed : (∃ items, items? tree = some items ∧ ∃ item ∈ items, overflows table item = true) ↔
      ((items? tree).getD []).any (overflows table) = true := by
    cases items? tree <;> simp
  rw [extract_lenient distinct, listed]
  split
  · next some => simp [some, eq_comm]
  · next none => simp [none]

/-- The two readings agree on the items that are kept, unless the lenient one overflows. -/
theorem extract_lenient_eq_strict_kept_iff (distinct : table.Distinct) (line : String)
    {tree : SExpr} {items : List SExpr} (some : items? tree = some items) :
    extract table .lenient line tree =
        extract table .strict line (tree.keepItems fun item => !rejects table item) ↔
      ∀ item ∈ items, overflows table item = false := by
  have kept := items?_keepItems (fun item => !rejects table item) tree
  rw [some, Option.map_some] at kept
  have accepts : ∃ bs, readItems table .strict
      (.undecodable line (tree.keepItems fun item => !rejects table item))
      (items.filter fun item => !rejects table item) = .ok bs :=
    (readItems_strict distinct _ _).mpr fun item member => by
      simpa using List.of_mem_filter member
  constructor
  · intro same item member
    by_contra overflow
    have failed : extract table .lenient line tree = .error (.undecodable line tree .overflow) :=
      (extract_lenient_eq_error distinct).mpr
        ⟨rfl, items, some, item, member, by simpa using overflow⟩
    obtain ⟨bs, read⟩ := accepts
    rw [failed, extract, kept] at same
    cases same.trans read
  · intro fits
    have none : items.any (overflows table) = false := by simpa using fits
    simp only [extract, kept, some]
    rw [readItems_strict_kept distinct _ none, readItems_lenient distinct, none,
      readItems_lenient distinct, none, if_neg Bool.false_ne_true, if_neg Bool.false_ne_true]

theorem extract_strict (distinct : table.Distinct) (line : String) {tree : SExpr}
    {items : List SExpr} (some : items? tree = some items) :
    (∃ bs, extract table .strict line tree = .ok bs) ↔
      ∀ item ∈ items, rejects table item = false := by
  simp only [extract, some]
  exact readItems_strict distinct _ items

theorem extract_keep_foreign {keep : SExpr → Bool}
    (drops : ∀ item, keep item = false → isForeign table item = true) (strictness : Strictness)
    (line : String) (tree : SExpr) :
    extract table strictness line (tree.keepItems keep) =
      (extract table strictness line tree).mapError (.withTree (tree.keepItems keep)) := by
  simp only [extract, items?_keepItems]
  cases items? tree with
  | none => cases strictness <;> rfl
  | some items =>
    dsimp only [Option.map_some]
    rw [readItems_keep_foreign drops, readItems_withTree strictness line tree]

end

end Binding

namespace Outcome

variable {normalizer : Normalizer} {table : SymbolTable}

theorem classify_of_sat {first : String} (status : Text.trim first = "sat")
    (lines : List String) :
    classify normalizer table (first :: lines) =
      (Model.ofLines normalizer table .strict lines).map ofModel := by
  simp [classify, status?, status]

theorem classify_of_unknown {first : String} (status : Text.trim first = "unknown")
    (lines : List String) :
    classify normalizer table (first :: lines) =
      (Model.ofLines normalizer table .lenient lines).map .unknown := by
  simp [classify, status?, status]

theorem classify_sat (lines : List String) :
    classify normalizer table ("sat" :: lines) =
      (Model.ofLines normalizer table .strict lines).map ofModel :=
  classify_of_sat (by decide) lines

theorem classify_unknown (lines : List String) :
    classify normalizer table ("unknown" :: lines) =
      (Model.ofLines normalizer table .lenient lines).map .unknown :=
  classify_of_unknown (by decide) lines

theorem model?_ofModel (m : Model) : (ofModel m).model? = some m := by
  rw [ofModel]
  split <;> rfl

end Outcome

theorem Model.ofLines_lenient_of_strict {normalizer : Normalizer} {table : SymbolTable}
    {lines : List String} {m : Model} (read : ofLines normalizer table .strict lines = .ok m) :
    ofLines normalizer table .lenient lines = .ok m := by
  rw [ofLines_eq] at read ⊢
  obtain ⟨reports, said, rfl⟩ := Except.map_eq_ok.mp read
  have each := (Except.mapM_eq_ok.mp said).imp fun _ _ => Report.ofGroup_lenient_of_strict
  rw [Except.mapM_eq_ok.mpr each]
  rfl

theorem Model.exists_of_ofLines_lenient_eq_error {normalizer : Normalizer} {table : SymbolTable}
    (distinct : table.Distinct) {lines : List String} {e : AnswerError}
    (fails : ofLines normalizer table .lenient lines = .error e) :
    ∃ text ∈ Group.ofLines lines, Report.Overflows normalizer table text e ∨
      ∃ tree, Report.IsObjectives normalizer text tree ∧
        ObjectiveValue.extract table text (normalizer tree) = .error e := by
  rw [ofLines_eq] at fails
  cases said : (Group.ofLines lines).mapM (Report.ofGroup normalizer table .lenient) with
  | ok reports => simp [said, Except.map] at fails
  | error e' =>
    rw [said] at fails
    cases fails
    obtain ⟨before, text, after, split, _, fails⟩ := Except.mapM_eq_error.mp said
    refine ⟨text, ?_, (Report.ofGroup_lenient_eq_error distinct).mp fails⟩
    simp [split]

theorem Model.ofLines_lenient_of_overflows {normalizer : Normalizer} {table : SymbolTable}
    (distinct : table.Distinct) {lines : List String} {text : String}
    (group : text ∈ Group.ofLines lines) {e : AnswerError}
    (overflow : Report.Overflows normalizer table text e) :
    ∃ e', ofLines normalizer table .lenient lines = .error e' := by
  cases read : ofLines normalizer table .lenient lines with
  | error e' => exact ⟨e', rfl⟩
  | ok m =>
    rw [ofLines_eq] at read
    obtain ⟨reports, said, _⟩ := Except.map_eq_ok.mp read
    obtain ⟨r, one⟩ := Except.exists_mapM_eq_ok.mp ⟨reports, said⟩ text group
    cases one.symm.trans ((Report.ofGroup_lenient_eq_error distinct).mpr (.inl overflow))

/-- A lenient reading fails at a model exactly when decoding an item overflows, which takes a
variable of a signed kind of width zero. Otherwise it is the strict reading of the model
without the items that the strict one rejects, and of nothing where there is no model. The
strict reading succeeds when no item is rejected, and then both agree. Items about foreign
symbols can be left out of both. An answer that has a model under `sat` has it under
`unknown`, where only an overflow and values of objectives make the reading fail, and every
overflow does. -/
theorem Binding.lenient_eq_strict_kept {table : SymbolTable} (distinct : table.Distinct)
    (normalizer : Normalizer) :
    (∀ line tree,
      (∀ e, extract table .lenient line tree = .error e ↔
        e = .undecodable line tree .overflow ∧
          ∃ items, items? tree = some items ∧ ∃ item ∈ items, overflows table item = true) ∧
      (items? tree = none →
        extract table .strict line tree =
            .error (.undecodable line tree (.unexpectedRoot "model")) ∧
          extract table .lenient line tree = .ok []) ∧
      (∀ items, items? tree = some items →
        (extract table .lenient line tree =
            extract table .strict line (tree.keepItems fun item => !rejects table item) ↔
          ∀ item ∈ items, overflows table item = false) ∧
          ((∃ bs, extract table .strict line tree = .ok bs) ↔
            ∀ item ∈ items, rejects table item = false)) ∧
      (∀ bs, extract table .strict line tree = .ok bs →
        extract table .lenient line tree = .ok bs) ∧
      ∀ strictness keep, (∀ item, keep item = false → isForeign table item = true) →
        extract table strictness line (tree.keepItems keep) =
          (extract table strictness line tree).mapError (.withTree (tree.keepItems keep))) ∧
    (∀ item, overflows table item = true → ∃ v ∈ table.entries, v.kind = .int 0) ∧
    ∀ lines,
      (∀ outcome m, Outcome.classify normalizer table ("sat" :: lines) = .ok outcome →
        outcome.model? = some m →
          Outcome.classify normalizer table ("unknown" :: lines) = .ok (.unknown m)) ∧
      (∀ e, Outcome.classify normalizer table ("unknown" :: lines) = .error e →
        ∃ text ∈ Group.ofLines lines, Report.Overflows normalizer table text e ∨
          ∃ tree, SExpr.parse text = .ok tree ∧
            ObjectiveValue.isObjectives (normalizer tree) = true ∧
            ObjectiveValue.extract table text (normalizer tree) = .error e) ∧
      ∀ text ∈ Group.ofLines lines, ∀ e, Report.Overflows normalizer table text e →
        ∃ e', Outcome.classify normalizer table ("unknown" :: lines) = .error e' := by
  refine ⟨?_, fun _ => exists_of_overflows, ?_⟩
  · intro line tree
    refine ⟨fun _ => extract_lenient_eq_error distinct,
      fun none => extract_strict_of_no_items none line, ?_,
      fun _ => extract_lenient_of_strict, fun strictness keep drops =>
        extract_keep_foreign drops strictness line tree⟩
    intro items some
    exact ⟨extract_lenient_eq_strict_kept_iff distinct line some, extract_strict distinct line some⟩
  · intro lines
    refine ⟨?_, ?_, ?_⟩
    · intro outcome m classified has
      rw [Outcome.classify_sat] at classified
      obtain ⟨read, strict, rfl⟩ := Except.map_eq_ok.mp classified
      rw [Outcome.model?_ofModel] at has
      cases has
      rw [Outcome.classify_unknown, Model.ofLines_lenient_of_strict strict]
      rfl
    · intro e fails
      rw [Outcome.classify_unknown] at fails
      cases read : Model.ofLines normalizer table .lenient lines with
      | ok m => simp [read, Except.map] at fails
      | error e' =>
        rw [read] at fails
        cases fails
        obtain ⟨text, group, overflow | ⟨tree, ⟨parsed, _, objectives⟩, unread⟩⟩ :=
          Model.exists_of_ofLines_lenient_eq_error distinct read
        · exact ⟨text, group, .inl overflow⟩
        · exact ⟨text, group, .inr ⟨tree, parsed, objectives, unread⟩⟩
    · intro text group e overflow
      obtain ⟨e', failed⟩ := Model.ofLines_lenient_of_overflows distinct group overflow
      exact ⟨e', by rw [Outcome.classify_unknown, failed]; rfl⟩

/-- An item with too many values, one that is read, and one about another symbol. -/
def Binding.assorted : List SExpr := [
  .app [.atom (.symbol "s0"), .atom (.int 1 none), .atom (.int 2 none)],
  .app [.atom (.symbol "s1"), .atom (.int 5 none)],
  .app [.atom (.symbol "k!0")]]

/-- Of three items the one with a single value makes a binding, and the one about another
symbol counts in neither reading. Under `unknown` one answer is read as it is under `sat`,
and one fails at the value of its objective. -/
theorem Binding.lenient_eq_strict_kept_assorted :
    Sample.objectiveTable.Distinct ∧
      extract Sample.objectiveTable .lenient "" (.app assorted) =
        .ok [⟨⟨1⟩, "y", .ofInteger 5⟩] ∧
      (¬∃ bs, extract Sample.objectiveTable .strict "" (.app assorted) = .ok bs) ∧
      extract Sample.objectiveTable .strict "" (.app assorted.dropLast) =
        (extract Sample.objectiveTable .strict "" (.app assorted)).mapError
          (.withTree (.app assorted.dropLast)) ∧
      Outcome.classify SExpr.normalize Sample.objectiveTable ["unknown", "((s1 5) (k!0))"] =
        .ok (.unknown ⟨[⟨⟨1⟩, "y", .ofInteger 5⟩], []⟩) ∧
      ∃ text ∈ Group.ofLines ["(objectives (s2 low))"], ∃ tree, SExpr.parse text = .ok tree ∧
        ObjectiveValue.isObjectives (SExpr.normalize tree) = true := by
  have distinct : Sample.objectiveTable.Distinct := by decide
  obtain ⟨models, _, answers⟩ := lenient_eq_strict_kept distinct SExpr.normalize
  obtain ⟨_, _, items, _, foreign⟩ := models "" (.app assorted)
  obtain ⟨kept, accepts⟩ := items assorted rfl
  refine ⟨distinct, (kept.mpr (by decide)).trans (by decide), ?_, ?_, ?_, ?_⟩
  · intro read
    exact absurd (accepts.mp read _ List.mem_cons_self) (by decide)
  · have rest : (SExpr.app assorted).keepItems (fun item =>
        !isForeign Sample.objectiveTable item) = .app assorted.dropLast := by decide
    rw [← rest]
    exact foreign .strict _ (by simp)
  · have strict : Outcome.classify SExpr.normalize Sample.objectiveTable
        ["sat", "((s1 5) (k!0))"] =
          .ok (.satisfiable ⟨[⟨⟨1⟩, "y", .ofInteger 5⟩], []⟩) := by decide +kernel
    exact (answers _).1 _ _ strict rfl
  · have fails : Outcome.classify SExpr.normalize Sample.objectiveTable
        ["unknown", "(objectives (s2 low))"] =
          .error (.undecodable "(objectives (s2 low))"
            (.app [.atom (.symbol "objectives"),
              .app [.atom (.symbol "s2"), .atom (.symbol "low")]])
            (.unrecognizedExtended (.atom (.symbol "low")))) := by decide +kernel
    obtain ⟨text, group, overflow | ⟨tree, parsed, objectives, _⟩⟩ := (answers _).2.1 _ fails
    · exact absurd overflow.isOverflow (by decide)
    · exact ⟨text, group, tree, parsed, objectives⟩

/-- Under `unknown` an answer without values of objectives fails when a power in it has too many
coefficients, and a lenient reading of a model fails when a variable is of a signed kind of
width zero. -/
theorem Binding.lenient_overflows :
    Sample.objectiveTable.Distinct ∧
      (let lines := ["((s0 (root-obj (^ x 18446744073709551615) 1)))"]
      Group.ofLines lines = lines ∧
        Outcome.classify SExpr.normalize Sample.objectiveTable ("unknown" :: lines) =
          .error (.unreadable
            ⟨⟨43, .overflow⟩, "((s0 (root-obj (^ x 18446744073709551615) 1)))"⟩)) ∧
      SymbolTable.Distinct ⟨[⟨⟨0⟩, "x", .int 0⟩]⟩ ∧
      (let tree := SExpr.app [.app [.atom (.symbol "s0"), .atom (.int 1 none)]]
      extract ⟨[⟨⟨0⟩, "x", .int 0⟩]⟩ .lenient "((s0 1))" tree =
        .error (.undecodable "((s0 1))" tree .overflow)) := by
  decide +kernel

end SmtDialogue
