import SmtDialogue.Proofs.Reports

/-!
# How answers fail

The groups of an answer fail in three ways: a group cannot be read, a tree cannot be
decoded, or a symbol of it is ambiguous in the table. So a table without ambiguous symbols
leaves the first two, and one complete answer never fails for a number of models.
-/

namespace SmtDialogue

/-- A failure of one group of lines. -/
inductive AnswerError.OfGroup (table : SymbolTable) : AnswerError → Prop
  | unreadable (e : ReadError) : OfGroup table (.unreadable e)
  | undecodable (line : String) (tree : SExpr) (reason : DecodeFailure) :
    OfGroup table (.undecodable line tree reason)
  | ambiguous {symbol : String} {a : Ambiguity} (claimed : table.resolve symbol = .error a) :
    OfGroup table (.ambiguous a)

namespace AnswerError.OfGroup

variable {table : SymbolTable}

/-- With one variable for each word no symbol is ambiguous. -/
theorem ne_ambiguous (distinct : table.Distinct) {e : AnswerError} (origin : OfGroup table e)
    (a : Ambiguity) : e ≠ .ambiguous a := by
  rintro rfl
  cases origin with
  | @ambiguous symbol _ claimed =>
    obtain ⟨found, resolved⟩ := distinct.resolve symbol
    rw [claimed] at resolved
    cases resolved

theorem ne_modelCount {e : AnswerError} (origin : OfGroup table e) (expected actual : Nat)
    (raw : String) : e ≠ .modelCount expected actual raw := by
  rintro rfl
  cases origin

end AnswerError.OfGroup

open AnswerError (OfGroup)

section

variable {table : SymbolTable} {fail : DecodeFailure → AnswerError} {e : AnswerError}

theorem Binding.readItem_eq_error {item : SExpr} {a : Ambiguity}
    (failed : readItem table item = .error a) : ∃ symbol, table.resolve symbol = .error a := by
  have becomes := becomes_readItem table item
  rw [failed] at becomes
  cases becomes with
  | ambiguous claimed => exact ⟨_, claimed⟩

theorem Binding.readItems_eq_error {strictness : Strictness}
    (rejection : ∀ reason, OfGroup table (fail reason)) {items : List SExpr}
    (failed : readItems table strictness fail items = .error e) : OfGroup table e := by
  induction items with
  | nil => cases failed
  | cons item rest ih =>
    rw [readItems] at failed
    split at failed
    · next read =>
      obtain ⟨symbol, claimed⟩ := readItem_eq_error read
      cases failed
      exact .ambiguous claimed
    · exact ih failed
    · cases strictness with
      | strict =>
        cases failed
        exact rejection _
      | lenient =>
        dsimp only at failed
        split at failed
        · cases failed
          exact rejection _
        · exact ih failed
    · exact ih (Except.map_eq_error.mp failed)

theorem Binding.extract_eq_error {strictness : Strictness} {line : String} {tree : SExpr}
    (failed : extract table strictness line tree = .error e) : OfGroup table e := by
  simp only [extract] at failed
  split at failed
  · exact readItems_eq_error (fun reason => .undecodable line tree reason) failed
  · cases strictness with
    | strict =>
      cases failed
      exact .undecodable line tree _
    | lenient => cases failed

theorem ObjectiveValue.readItem_eq_error (rejection : ∀ reason, OfGroup table (fail reason))
    {item : SExpr} (failed : readItem table fail item = .error e) : OfGroup table e := by
  have bounds : ∀ (kind : Kind) (value : SExpr) (name : String),
      ((bound kind value).mapError fail).map (ObjectiveValue.mk name) = .error e →
        OfGroup table e := by
    intro kind value name failed
    obtain ⟨reason, _, rfl⟩ := Except.mapError_eq_error.mp (Except.map_eq_error.mp failed)
    exact rejection reason
  unfold readItem at failed
  split at failed
  · next name value =>
    split at failed
    · next claimed =>
      cases failed
      rw [named?] at claimed
      split at claimed
      · exact .ambiguous claimed
      · cases claimed
    · exact bounds _ _ _ failed
    · exact bounds _ _ _ failed
  · cases failed
    exact rejection _

theorem ObjectiveValue.readItems_eq_error (rejection : ∀ reason, OfGroup table (fail reason))
    {items : List SExpr} (failed : readItems table fail items = .error e) : OfGroup table e := by
  induction items with
  | nil => cases failed
  | cons item rest ih =>
    rw [readItems] at failed
    split at failed
    · next read =>
      cases failed
      exact readItem_eq_error rejection read
    · exact ih (Except.map_eq_error.mp failed)

theorem ObjectiveValue.extract_eq_error {line : String} {tree : SExpr}
    (failed : extract table line tree = .error e) : OfGroup table e := by
  unfold extract at failed
  split at failed
  · split at failed
    · exact readItems_eq_error (fun reason => .undecodable line _ reason) failed
    · cases failed
      exact .undecodable line _ _
  · cases failed
    exact .undecodable line _ _

theorem Report.ofGroup_eq_error {normalizer : Normalizer} {strictness : Strictness} {text : String}
    (failed : ofGroup normalizer table strictness text = .error e) : OfGroup table e := by
  have yields := yields_ofGroup normalizer table strictness text
  rw [failed] at yields
  cases yields with
  | unread => exact .unreadable _
  | overflowing => exact .undecodable text _ _
  | objectives _ extracted =>
    exact ObjectiveValue.extract_eq_error (Except.map_eq_error.mp extracted)
  | bindings _ _ _ extracted => exact Binding.extract_eq_error (Except.map_eq_error.mp extracted)

/-- A complete answer fails with the failure of one of its groups. -/
theorem Outcome.classify_eq_error {normalizer : Normalizer} {lines : List String}
    (failed : classify normalizer table lines = .error e) : OfGroup table e := by
  have models : ∀ strictness,
      Model.ofLines normalizer table strictness (lines.drop 1) = .error e → OfGroup table e := by
    intro strictness failed
    rw [Model.ofLines_eq, Except.map_eq_error, Except.mapM_eq_error] at failed
    obtain ⟨_, text, _, _, _, failed⟩ := failed
    exact Report.ofGroup_eq_error failed
  unfold classify at failed
  split at failed
  · cases failed
  · cases failed
  · exact models _ (Except.map_eq_error.mp failed)
  · exact models _ (Except.map_eq_error.mp failed)
  · cases failed

end

end SmtDialogue
