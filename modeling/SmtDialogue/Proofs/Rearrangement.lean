import SmtDialogue.Proofs.Closed
import SmtDialogue.Proofs.Leniency
import SmtDialogue.Proofs.Normalizing
import SmtDialogue.Proofs.Occurrences

/-!
# Answers in another order

The items of an expression can stand in another order, and so can expressions that begin
and end with a line. Either way the same items are read, so when no word occurs twice the
bindings of the model are the same. What counts is where groups end, so a bar inside a word
has to be taken for the beginning or the end of a quoted symbol.
-/

namespace SmtDialogue

/-- The items of one expression are those of the other in some order: what stands behind
a symbol, or all if none of them is an atom. The other order is not one that overflows, which
some orders behind the names of foldable applications do. -/
inductive SExpr.Shuffled : SExpr → SExpr → Prop where
  | headed (name : String) {xs ys : List SExpr} (perm : xs.Perm ys)
      (fits : SExpr.foldOverflows (.atom (.symbol name) :: ys) = false) :
      Shuffled (.app (.atom (.symbol name) :: xs)) (.app (.atom (.symbol name) :: ys))
  | plain {xs ys : List SExpr} (apps : ∀ x ∈ xs, x.isAtom = false) (perm : xs.Perm ys) :
      Shuffled (.app xs) (.app ys)

namespace SExpr

/-- The items of a model are normalized one by one. -/
theorem normalize_model (items : List SExpr) :
    normalize (.app (.atom (.symbol "model") :: items)) =
      .app (.atom (.symbol "model") :: items.map normalize) := by
  simp [normalize, normalizeList, normalizeList_eq_map, wrappedPlace?, symbol?, fold, literal?]

theorem shuffled_normalize_model {xs ys : List SExpr} (perm : xs.Perm ys) :
    Shuffled (normalize (.app (.atom (.symbol "model") :: xs)))
      (normalize (.app (.atom (.symbol "model") :: ys))) := by
  rw [normalize_model, normalize_model]
  exact .headed "model" (perm.map normalize) rfl

theorem normalize_apps {items : List SExpr} (apps : ∀ x ∈ items, (normalize x).isAtom = false) :
    normalize (.app items) = .app (items.map normalize) := by
  cases items with
  | nil => rfl
  | cons head rest =>
    have first := apps head List.mem_cons_self
    cases head with
    | atom a => cases first
    | app inner =>
      have place : wrappedPlace? (.app inner :: rest) = none := rfl
      rw [normalize, place, normalizeList_eq_map, List.map_cons]
      cases whole : normalize (.app inner) with
      | atom a =>
        rw [whole] at first
        cases first
      | app items => rfl

theorem shuffled_normalize_apps {xs ys : List SExpr}
    (apps : ∀ x ∈ xs, (normalize x).isAtom = false) (perm : xs.Perm ys) :
    Shuffled (normalize (.app xs)) (normalize (.app ys)) := by
  rw [normalize_apps apps, normalize_apps fun y member => apps y (perm.mem_iff.mpr member)]
  refine .plain (fun x member => ?_) (perm.map normalize)
  obtain ⟨y, inside, rfl⟩ := List.mem_map.mp member
  exact apps y inside

theorem Shuffled.overflows_eq_false {e f : SExpr} (shuffled : Shuffled e f)
    (fits : e.overflows = false) : f.overflows = false := by
  cases shuffled with
  | headed name perm stays =>
    simp only [overflows, Bool.or_eq_false_iff, overflowsAny_eq_false,
      List.forall_mem_cons] at fits ⊢
    exact ⟨stays, trivial, fun y member => fits.2.2 y (perm.mem_iff.mpr member)⟩
  | @plain xs ys apps perm =>
    simp only [overflows, Bool.or_eq_false_iff, overflowsAny_eq_false] at fits ⊢
    refine ⟨?_, fun y member => fits.2 y (perm.mem_iff.mpr member)⟩
    cases ys with
    | nil => rfl
    | cons head rest =>
      have first := apps head (perm.mem_iff.mpr List.mem_cons_self)
      cases head with
      | atom a => cases first
      | app inner => rfl

end SExpr

namespace Binding

variable {table : SymbolTable} {e f : SExpr}

theorem items?_shuffled (shuffled : SExpr.Shuffled e f) :
    items? e = none ∧ items? f = none ∨
      ∃ xs ys, items? e = some xs ∧ items? f = some ys ∧ xs.Perm ys := by
  cases shuffled with
  | headed name perm fits =>
    by_cases model : name = "model"
    · subst model
      exact .inr ⟨_, _, rfl, rfl, perm⟩
    · have other : SExpr.isSymbol "model" (.atom (.symbol name)) = false := by
        simpa [SExpr.isSymbol, SExpr.symbol?] using model
      simp [items?, other, SExpr.isAtom]
  | plain apps perm =>
    refine .inr ⟨_, _, items?_of_apps apps, items?_of_apps fun y member => ?_, perm⟩
    exact apps y (perm.mem_iff.mpr member)

theorem exists_extract_shuffled (distinct : table.Distinct) (shuffled : SExpr.Shuffled e f)
    {strictness : Strictness} {line : String}
    (read : ∃ bs, extract table strictness line e = .ok bs) (other : String) :
    ∃ bs, extract table strictness other f = .ok bs := by
  cases strictness with
  | lenient =>
    obtain ⟨bs, read⟩ := read
    rw [extract_lenient distinct] at read
    split at read
    · cases read
    · next fits =>
      have fits : ((items? f).getD []).any (overflows table) ≠ true := by
        rcases items?_shuffled shuffled with ⟨_, none⟩ | ⟨xs, ys, first, second, perm⟩
        · simp [none]
        · simpa [first, second, perm.mem_iff] using fits
      exact ⟨_, (extract_lenient distinct other f).trans (if_neg fits)⟩
  | strict =>
    rcases items?_shuffled shuffled with ⟨none, _⟩ | ⟨xs, ys, first, second, perm⟩
    · obtain ⟨bs, read⟩ := read
      rw [(extract_strict_of_no_items none line).1] at read
      cases read
    · have kept := (extract_strict distinct line first).mp read
      exact (extract_strict distinct other second).mpr fun item member =>
        kept item (perm.mem_iff.mpr member)

end Binding

namespace ObjectiveValue

variable {table : SymbolTable} {e f : SExpr}

theorem isObjectives_of_apps {items : List SExpr} (apps : ∀ x ∈ items, x.isAtom = false) :
    isObjectives (.app items) = false := by
  cases items with
  | nil => rfl
  | cons head rest =>
    cases head with
    | atom a => cases apps _ List.mem_cons_self
    | app _ => rfl

theorem isObjectives_shuffled (shuffled : SExpr.Shuffled e f) :
    isObjectives f = isObjectives e := by
  cases shuffled with
  | headed name perm fits => rfl
  | plain apps perm =>
    rw [isObjectives_of_apps apps,
      isObjectives_of_apps fun y member => apps y (perm.mem_iff.mpr member)]

/-- The reason of a failure decides nothing else. -/
theorem exists_readItem (fail other : DecodeFailure → AnswerError) {item : SExpr}
    (read : ∃ o, readItem table fail item = .ok o) : ∃ o, readItem table other item = .ok o := by
  obtain ⟨o, read⟩ := read
  rw [readItem.eq_def] at read ⊢
  split at read
  · next name value =>
    cases named : named? table name with
    | error a => simp [named] at read
    | ok found =>
      rw [named] at read
      cases found <;>
      · obtain ⟨bound, holds, rfl⟩ := Except.map_eq_ok.mp read
        rw [Except.mapError_eq_ok] at holds
        exact ⟨_, by simp only [holds, Except.mapError, Except.map]; rfl⟩
  · cases read

theorem exists_readItems {fail : DecodeFailure → AnswerError} {items : List SExpr} :
    (∃ os, readItems table fail items = .ok os) ↔
      ∀ item ∈ items, ∃ o, readItem table fail item = .ok o := by
  induction items with
  | nil => simp [readItems]
  | cons item rest ih =>
    rw [readItems, List.forall_mem_cons, ← ih]
    cases readItem table fail item with
    | error reason => simp
    | ok o => simp [Except.map_eq_ok]

theorem exists_extract_shuffled (shuffled : SExpr.Shuffled e f) {line : String}
    (objectives : isObjectives e = true) (read : ∃ os, extract table line e = .ok os)
    (other : String) : ∃ os, extract table other f = .ok os := by
  cases shuffled with
  | plain apps perm =>
    rw [isObjectives_of_apps apps] at objectives
    cases objectives
  | headed name perm fits =>
    have headed : SExpr.isSymbol "objectives" (.atom (.symbol name)) = true := objectives
    simp only [extract, headed, if_true, exists_readItems] at read ⊢
    exact fun item member => exists_readItem _ _ (read item (perm.mem_iff.mpr member))

end ObjectiveValue

namespace Report

variable {normalizer : Normalizer} {table : SymbolTable} {strictness : Strictness}
  {text other : String}

/-- Two groups are read as the same items in some order. -/
def Reordered (normalizer : Normalizer) (text other : String) : Prop :=
  text = other ∨ ∃ e f, SExpr.parse text = .ok e ∧ SExpr.parse other = .ok f ∧
    (normalizer e).Shuffled (normalizer f)

theorem exists_ofGroup_reordered (distinct : table.Distinct)
    (reordered : Reordered normalizer text other)
    (said : ∃ r, ofGroup normalizer table strictness text = .ok r) :
    ∃ r, ofGroup normalizer table strictness other = .ok r := by
  rcases reordered with rfl | ⟨e, f, first, second, shuffled⟩
  · exact said
  · simp only [ofGroup, first, second, ObjectiveValue.isObjectives_shuffled shuffled] at said ⊢
    obtain ⟨r, said⟩ := said
    split_ifs at said with overflow objectives
    · have fits := shuffled.overflows_eq_false (by simpa using overflow)
      obtain ⟨os, read, _⟩ := Except.map_eq_ok.mp said
      obtain ⟨os', read'⟩ :=
        ObjectiveValue.exists_extract_shuffled shuffled objectives ⟨os, read⟩ other
      rw [fits, if_neg Bool.false_ne_true, if_pos objectives, read']
      exact ⟨_, rfl⟩
    · have fits := shuffled.overflows_eq_false (by simpa using overflow)
      obtain ⟨bs, read, _⟩ := Except.map_eq_ok.mp said
      obtain ⟨bs', read'⟩ := Binding.exists_extract_shuffled distinct shuffled ⟨bs, read⟩ other
      rw [fits, if_neg Bool.false_ne_true, if_neg objectives, read']
      exact ⟨_, rfl⟩

theorem accepted_reordered (reordered : Reordered normalizer text other) :
    (accepted normalizer table text).Perm (accepted normalizer table other) := by
  rcases reordered with rfl | ⟨e, f, first, second, shuffled⟩
  · exact .refl _
  · simp only [accepted, first, second, ObjectiveValue.isObjectives_shuffled shuffled]
    split
    · exact .refl _
    · rcases Binding.items?_shuffled shuffled with ⟨none, none'⟩ | ⟨xs, ys, some, some', perm⟩
      · rw [none, none']
      · rw [some, some']
        exact perm.filterMap _

end Report

/-- Two answers with the same expressions, where the items of each one, or the complete
expressions themselves, stand in another order. An expression is complete where its group
ends. -/
inductive Rearranged (normalizer : Normalizer) : List String → List String → Prop where
  | items {lines others : List String}
      (each : List.Forall₂ (Report.Reordered normalizer) (Group.ofLines lines)
        (Group.ofLines others)) : Rearranged normalizer lines others
  | expressions {blocks others : List (List String)} (rest : List String)
      (closed : ∀ block ∈ blocks, Group.Closed block) (perm : blocks.Perm others) :
      Rearranged normalizer (blocks.flatten ++ rest) (others.flatten ++ rest)

namespace Rearranged

variable {normalizer : Normalizer} {table : SymbolTable} {strictness : Strictness}
  {lines others : List String}

/-- Expressions on lines of their own are complete when no bar stands inside a word. -/
theorem of_whole {blocks others : List (List String)} (rest : List String)
    (whole : ∀ block ∈ blocks, Group.Whole block) (perm : blocks.Perm others) :
    Rearranged normalizer (blocks.flatten ++ rest) (others.flatten ++ rest) :=
  .expressions rest (fun block member => (whole block member).closed) perm

/-- The same items make the same bindings in some order. -/
theorem perm_occurrences (rearranged : Rearranged normalizer lines others) :
    (occurrences normalizer table lines).Perm (occurrences normalizer table others) := by
  cases rearranged with
  | items each =>
    have groups : ∀ {gs hs : List String}, List.Forall₂ (Report.Reordered normalizer) gs hs →
        (gs.flatMap (Report.accepted normalizer table)).Perm
          (hs.flatMap (Report.accepted normalizer table)) := by
      intro gs hs each
      induction each with
      | nil => exact .refl _
      | cons first _ ih => exact (Report.accepted_reordered first).append ih
    exact groups each
  | expressions rest closed perm => exact (Group.perm_ofLines closed perm rest).flatMap_right _

theorem exists_ofLines (distinct : table.Distinct) (rearranged : Rearranged normalizer lines others)
    (read : ∃ m, Model.ofLines normalizer table strictness lines = .ok m) :
    ∃ m, Model.ofLines normalizer table strictness others = .ok m := by
  have groups : ∀ lines, (∃ m, Model.ofLines normalizer table strictness lines = .ok m) ↔
      ∀ text ∈ Group.ofLines lines,
        ∃ r, Report.ofGroup normalizer table strictness text = .ok r := by
    intro lines
    rw [← Except.exists_mapM_eq_ok]
    simp [Model.ofLines_eq, Except.map_eq_ok]
  rw [groups] at read ⊢
  cases rearranged with
  | items each =>
    intro text member
    obtain ⟨earlier, listed, reordered⟩ := each.exists_of_mem_right member
    exact Report.exists_ofGroup_reordered distinct reordered (read earlier listed)
  | expressions rest closed perm =>
    intro text member
    exact read text ((Group.perm_ofLines closed perm rest).mem_iff.mpr member)

end Rearranged

namespace Outcome

variable {normalizer : Normalizer} {table : SymbolTable}

/-- Only the lines behind the status describe the model. -/
theorem classify_cases {status : String} {lines : List String} {o : Outcome} {m : Model}
    (classified : classify normalizer table (status :: lines) = .ok o)
    (has : o.model? = some m) :
    ∃ strictness, Model.ofLines normalizer table strictness lines = .ok m ∧
      ∀ others m', Model.ofLines normalizer table strictness others = .ok m' →
        ∃ o', classify normalizer table (status :: others) = .ok o' ∧ o'.model? = some m' := by
  have same : ∀ others : List String, status? (status :: others) = status? (status :: lines) :=
    fun _ => rfl
  rw [classify] at classified
  split at classified
  · cases classified
    cases has
  · cases classified
    cases has
  · next unknown =>
    obtain ⟨read, lenient, rfl⟩ := Except.map_eq_ok.mp classified
    cases has
    refine ⟨.lenient, lenient, fun others m' read' => ⟨.unknown m', ?_, rfl⟩⟩
    simp [classify, same others, unknown, read', Except.map]
  · next sat =>
    obtain ⟨read, strict, rfl⟩ := Except.map_eq_ok.mp classified
    rw [model?_ofModel] at has
    cases has
    refine ⟨.strict, strict, fun others m' read' => ⟨ofModel m', ?_, model?_ofModel m'⟩⟩
    simp [classify, same others, sat, read', Except.map]
  · cases classified
    cases has

/-- A model is sorted by word, each value is one of its variable in the form of its kind,
and the last accepted item of a word decides. When no word has two, the items of an
expression and the expressions themselves can stand in another order. Among the latter are all
that are read on lines of their own and have no bar inside a word. -/
theorem model_of_classify (distinct : table.Distinct) {status : String} {lines : List String}
    {o : Outcome} {m : Model} (classified : classify normalizer table (status :: lines) = .ok o)
    (has : o.model? = some m) :
    (m.bindings.Pairwise fun a b => a.id.index < b.id.index) ∧
      (∀ b ∈ m.bindings, ∃ v ∈ table.entries, b.id = v.id ∧ b.name = v.name ∧
        b.value.kind = v.kind ∧ b.value.Canonical) ∧
      (∀ id, m.get? id = ((occurrences normalizer table lines).filter
        fun b => b.id = id).getLast?.map Binding.value) ∧
      (((occurrences normalizer table lines).map Binding.id).Nodup →
        ∀ others, Rearranged normalizer lines others →
          ∃ o' m', classify normalizer table (status :: others) = .ok o' ∧
            o'.model? = some m' ∧ m'.bindings = m.bindings) ∧
      ∀ (blocks others : List (List String)) (rest : List String), lines = blocks.flatten ++ rest →
        (∀ block ∈ blocks, Group.Whole block) → blocks.Perm others →
          Rearranged normalizer lines (others.flatten ++ rest) := by
  obtain ⟨strictness, read, again⟩ := classify_cases classified has
  refine ⟨?_, Model.typed_ofLines distinct read, Model.get?_ofLines distinct read, ?_, ?_⟩
  · rw [Model.bindings_ofLines distinct read]
    exact Keyed.ascending_ofList _
  · intro once others rearranged
    obtain ⟨m', read'⟩ := rearranged.exists_ofLines distinct ⟨m, read⟩
    obtain ⟨o', classified', has'⟩ := again others m' read'
    refine ⟨o', m', classified', has', ?_⟩
    rw [Model.bindings_ofLines distinct read, Model.bindings_ofLines distinct read',
      Keyed.ofList_eq_of_perm rearranged.perm_occurrences once]
  · rintro blocks others rest rfl whole perm
    exact .of_whole rest whole perm

/-- Two pairs, two definitions and a pair, each expression on lines of its own. -/
def scattered : List (List String) := [
  ["((s3 #xff)", " (s8 Green))"],
  ["(model (define-fun s9 () T T!val!0)", "  (define-fun s1 () Int (- 42)))"],
  ["((s0 true))"]]

/-- The first two expressions with their items in the other order. -/
def turned : List (List String) := [
  ["((s8 Green)", " (s3 #xff))"],
  ["(model (define-fun s1 () Int (- 42))", "  (define-fun s9 () T T!val!0))"],
  ["((s0 true))"]]

def gathered : Model where
  bindings := [
    ⟨⟨0⟩, "b", .ofBool true⟩,
    ⟨⟨1⟩, "n", .ofInteger (-42)⟩,
    ⟨⟨3⟩, "i", .ofBits true 8 (-1)⟩,
    ⟨⟨8⟩, "color", ⟨Sample.color, .element (some 1) "Green", by decide⟩⟩,
    ⟨⟨9⟩, "t", ⟨.sort "T" none, .element none "T!val!0", by decide⟩⟩]
  objectives := []

theorem rearranged_turned :
    Rearranged SExpr.normalize scattered.flatten turned.flatten := by
  have groups : Group.ofLines scattered.flatten = scattered.map (String.intercalate "\n") := by
    decide +kernel
  have others : Group.ofLines turned.flatten = turned.map (String.intercalate "\n") := by
    decide +kernel
  refine .items ?_
  rw [groups, others]
  refine .cons (.inr ⟨
      .app [.app [.atom (.symbol "s3"), .atom (.int 255 (some 8))],
        .app [.atom (.symbol "s8"), .atom (.symbol "Green")]],
      .app [.app [.atom (.symbol "s8"), .atom (.symbol "Green")],
        .app [.atom (.symbol "s3"), .atom (.int 255 (some 8))]],
      by decide +kernel, by decide +kernel,
      SExpr.shuffled_normalize_apps (by decide +kernel) (.swap _ _ _)⟩)
    (.cons (.inr ⟨
      .app [.atom (.symbol "model"),
        .app [.atom (.symbol "define-fun"), .atom (.symbol "s9"), .app [], .atom (.symbol "T"),
          .atom (.symbol "T!val!0")],
        .app [.atom (.symbol "define-fun"), .atom (.symbol "s1"), .app [], .atom (.symbol "Int"),
          .atom (.int (-42) none)]],
      .app [.atom (.symbol "model"),
        .app [.atom (.symbol "define-fun"), .atom (.symbol "s1"), .app [], .atom (.symbol "Int"),
          .atom (.int (-42) none)],
        .app [.atom (.symbol "define-fun"), .atom (.symbol "s9"), .app [], .atom (.symbol "T"),
          .atom (.symbol "T!val!0")]],
      by decide +kernel, by decide +kernel,
      SExpr.shuffled_normalize_model (.swap _ _ _)⟩) (.cons (.inl rfl) .nil))

/-- The bindings are the same with the last expression first, and with the items of two
expressions the other way round. -/
theorem model_of_classify_scattered :
    classify SExpr.normalize Sample.mixedTable ("sat" :: scattered.flatten) =
        .ok (.satisfiable gathered) ∧
      (gathered.bindings.Pairwise fun a b => a.id.index < b.id.index) ∧
      (∀ b ∈ gathered.bindings, b.value.Canonical) ∧
      gathered.get? ⟨3⟩ = some (.ofBits true 8 (-1)) ∧
      ∀ others ∈ [scattered.reverse.flatten, turned.flatten], ∃ o m,
        classify SExpr.normalize Sample.mixedTable ("sat" :: others) = .ok o ∧
          o.model? = some m ∧ m.bindings = gathered.bindings := by
  have classified : classify SExpr.normalize Sample.mixedTable ("sat" :: scattered.flatten) =
      .ok (.satisfiable gathered) := by decide +kernel
  obtain ⟨sorted, typed, found, any, whole⟩ := model_of_classify (by decide) classified rfl
  have once : ((occurrences SExpr.normalize Sample.mixedTable scattered.flatten).map
      Binding.id).Nodup := by decide +kernel
  have reversed : Rearranged SExpr.normalize scattered.flatten scattered.reverse.flatten := by
    have perm := (List.reverse_perm scattered).symm
    simpa using whole scattered _ [] (by simp) (by decide +kernel) perm
  refine ⟨classified, sorted, fun b member => ?_, (found ⟨3⟩).trans (by decide +kernel), ?_⟩
  · obtain ⟨_, _, _, _, _, canonical⟩ := typed b member
    exact canonical
  · exact List.forall_mem_cons.mpr ⟨any once _ reversed,
      List.forall_mem_singleton.mpr (any once _ rearranged_turned)⟩

/-- Two expressions that are read line by line cannot change places when one has a bar inside
a word: with that one first, both lines are one group. -/
theorem model_of_classify_barred :
    ¬∀ (table : SymbolTable) (lines others : List String) (o : Outcome) (m : Model),
      table.Distinct → (∀ line ∈ lines, ∃ e, SExpr.parse line = .ok e) → lines.Perm others →
        classify SExpr.normalize table ("sat" :: lines) = .ok o → o.model? = some m →
          ((occurrences SExpr.normalize table lines).map Binding.id).Nodup →
            ∃ o' m', classify SExpr.normalize table ("sat" :: others) = .ok o' ∧
              o'.model? = some m' ∧ m'.bindings = m.bindings := by
  intro unchanged
  have read : ∀ line ∈ ["((s1 2))", "((s0|x 1))"], ∃ e, SExpr.parse line = .ok e := by
    have second : SExpr.parse "((s0|x 1))" =
        .ok (.app [.app [.atom (.symbol "s0|x"), .atom (.int 1 none)]]) := by decide +kernel
    have first : SExpr.parse "((s1 2))" =
        .ok (.app [.app [.atom (.symbol "s1"), .atom (.int 2 none)]]) := by decide +kernel
    exact List.forall_mem_cons.mpr ⟨⟨_, first⟩, List.forall_mem_singleton.mpr ⟨_, second⟩⟩
  have classified : classify SExpr.normalize Sample.objectiveTable
      ["sat", "((s1 2))", "((s0|x 1))"] =
        .ok (.satisfiable ⟨[⟨⟨1⟩, "y", .ofInteger 2⟩], []⟩) := by decide +kernel
  have fails : classify SExpr.normalize Sample.objectiveTable
      ["sat", "((s0|x 1))", "((s1 2))"] =
        .error (.unreadable ⟨⟨11, .trailingInput⟩, "((s0|x 1))\n((s1 2))"⟩) := by decide +kernel
  obtain ⟨o, m, swapped, _⟩ := unchanged Sample.objectiveTable _ _ _ _ (by decide) read
    (.swap _ _ _) classified rfl (by decide +kernel)
  rw [fails] at swapped
  cases swapped

end Outcome

end SmtDialogue
