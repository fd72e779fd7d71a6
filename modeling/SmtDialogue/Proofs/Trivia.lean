import SmtDialogue.Proofs.Closed
import SmtDialogue.Proofs.Leniency
import SmtDialogue.Sample.Table

/-!
# Lines that say nothing

A blank line between two expressions of an answer makes no group, so it is as if it were
not there. A line with a comment does make one, although there is no expression in it. A
lenient reading leaves that group out, but a strict one fails there unless it has failed
before. So under `sat` an answer is read as before only where the comment is never
reached, or where what follows fails in the very same way.
-/

namespace SmtDialogue

namespace Group

/-- A line with nothing but a comment on it. -/
def IsComment (line : String) : Prop :=
  ∃ blanks note, line.toList = blanks ++ ';' :: note ∧
    (∀ c ∈ blanks, Text.isAsciiBlank c = true) ∧ '\n' ∉ note

/-- A blank line, or one with nothing but a comment on it. -/
def IsTrivia (line : String) : Prop :=
  Text.isBlankText line = true ∨ IsComment line

/-- Blanks neither open nor close anything. -/
theorem follow_blanks {blanks : List Char} (blank : ∀ c ∈ blanks, Text.isBlank c = true)
    (rest : List Char) : Reach.start.follow (blanks ++ rest) = Reach.start.follow rest := by
  induction blanks with
  | nil => rfl
  | cons c blanks ih =>
    obtain ⟨first, others⟩ := List.forall_mem_cons.mp blank
    have plain : ∀ d, Text.isBlank d = false → c ≠ d := by
      rintro d no rfl
      rw [no] at first
      cases first
    have quote := plain '"' (by decide)
    have bar := plain '|' (by decide)
    have comment := plain ';' (by decide)
    have opening := plain '(' (by decide)
    have closing := plain ')' (by decide)
    rw [← ih others]
    simp [Reach.follow, Reach.start, quote, bar, comment, opening, closing]

variable {line : String}

theorem IsTrivia.follow (trivia : IsTrivia line) : Reach.start.follow line.toList = .start := by
  rcases trivia with blank | ⟨blanks, note, written, blank, _⟩
  · have nothing := follow_blanks (List.all_eq_true.mp blank) []
    rwa [List.append_nil] at nothing
  · rw [written, follow_blanks fun c member => Text.isBlank_of_isAsciiBlank (blank c member)]
    rfl

theorem IsComment.isBlankText (comment : IsComment line) : Text.isBlankText line = false := by
  obtain ⟨blanks, note, written, _⟩ := comment
  rw [Text.isBlankText, List.all_eq_false]
  exact ⟨';', by simp [written], by decide⟩

theorem IsComment.ofText (comment : IsComment line) : ofText line = [line] := by
  simp [Group.ofText, comment.isBlankText]

/-- Where nothing is open, such a line is a group of its own or none. -/
theorem ofLines_trivia (trivia : IsTrivia line) (lines : List String) :
    ofLines (line :: lines) = ofText line ++ ofLines lines := by
  have closed : Reach.start.isClosed = true := rfl
  simp only [ofLines, fromLines, trivia.follow, closed, if_true]
  rfl

/-- There is no expression in a comment. -/
theorem IsComment.parse (comment : IsComment line) :
    SExpr.parse line = .error ⟨⟨line.utf8ByteSize, .unexpectedEnd⟩, line⟩ := by
  obtain ⟨blanks, note, written, blank, rest⟩ := comment
  have none : Lexeme.cut .blank line.toList = [] := by
    rw [written, cut_blanks_append blank, cut_comment rest]
  have lexemes : Lexeme.ofText line = [] := List.map_eq_nil_iff.mp none
  rw [SExpr.parse, lexemes]
  rfl

end Group

/-- What a strict reading says of a line without an expression. -/
def AnswerError.nothingIn (line : String) : AnswerError :=
  .unreadable ⟨⟨line.utf8ByteSize, .unexpectedEnd⟩, line⟩

open SmtDialogue.Group (Closed IsTrivia IsComment)

variable {normalizer : Normalizer} {table : SymbolTable} {line : String} {before : List String}

namespace Model

/-- Two models fail at the same group. -/
theorem foldlM_addGroup_eq_error {strictness : Strictness} {groups : List String} (m : Model)
    {e : AnswerError} :
    groups.foldlM (addGroup normalizer table strictness) m = .error e ↔
      groups.foldlM (addGroup normalizer table strictness) empty = .error e := by
  simp only [Except.foldlM_eq_map (addGroup_eq normalizer table strictness),
    Except.map_eq_error]

theorem ofLines_append (closed : Closed before) (strictness : Strictness) (after : List String) :
    ofLines normalizer table strictness (before ++ after) =
      ofLines normalizer table strictness before >>= fun m =>
        (Group.ofLines after).foldlM (addGroup normalizer table strictness) m := by
  rw [ofLines, Group.ofLines_append closed, List.foldlM_append]
  rfl

theorem ofLines_insert_blank (closed : Closed before) (blank : Text.isBlankText line = true)
    (strictness : Strictness) (after : List String) :
    ofLines normalizer table strictness (before ++ line :: after) =
      ofLines normalizer table strictness (before ++ after) := by
  have none : Group.ofText line = [] := if_pos blank
  rw [ofLines_append closed, ofLines_append closed, Group.ofLines_trivia (.inl blank), none,
    List.nil_append]

/-- A comment is left out of a lenient reading. -/
theorem ofLines_insert_lenient (closed : Closed before) (comment : IsComment line)
    (after : List String) :
    ofLines normalizer table .lenient (before ++ line :: after) =
      ofLines normalizer table .lenient (before ++ after) := by
  have passes : ∀ m, addGroup normalizer table .lenient m line = .ok m := by
    intro m
    rw [addGroup, comment.parse]
    rfl
  rw [ofLines_append closed, ofLines_append closed, Group.ofLines_trivia (.inr comment),
    comment.ofText]
  simp only [List.singleton_append, List.foldlM_cons, passes]
  rfl

/-- A strict reading that comes to a comment fails there. -/
theorem ofLines_insert_strict (closed : Closed before) (comment : IsComment line)
    (after : List String) :
    ofLines normalizer table .strict (before ++ line :: after) =
      ofLines normalizer table .strict before >>= fun _ => .error (.nothingIn line) := by
  have fails : ∀ m, addGroup normalizer table .strict m line = .error (.nothingIn line) := by
    intro m
    rw [addGroup, comment.parse]
    rfl
  rw [ofLines_append closed, Group.ofLines_trivia (.inr comment), comment.ofText]
  simp only [List.singleton_append, List.foldlM_cons, fails]
  rfl

/-- So it is as before only where it fails in front of the comment, or behind it in the
same way. -/
theorem ofLines_insert_strict_iff (closed : Closed before) (comment : IsComment line)
    (after : List String) :
    ofLines normalizer table .strict (before ++ line :: after) =
        ofLines normalizer table .strict (before ++ after) ↔
      (∃ e, ofLines normalizer table .strict before = .error e) ∨
        ofLines normalizer table .strict after = .error (.nothingIn line) := by
  rw [ofLines_insert_strict closed comment, ofLines_append closed]
  cases ofLines normalizer table .strict before with
  | error e => simp [Bind.bind, Except.bind]
  | ok m =>
    simp only [Bind.bind, Except.bind, reduceCtorEq, exists_false, false_or]
    rw [eq_comm, foldlM_addGroup_eq_error, ofLines]

end Model

namespace Outcome

theorem ofModel_injective : Function.Injective ofModel := by
  intro m n same
  have models := congrArg model? same
  rw [model?_ofModel, model?_ofModel] at models
  exact Option.some.inj models

/-- A line without an expression, where nothing is open, is as good as not there, unless it
is a comment under `sat`. Then the answer is as before only where it already fails in front
of the comment, or where it would fail behind it in the same way. -/
theorem classify_insert_iff {first : String}
    (status : Text.trim first = "sat" ∨ Text.trim first = "unknown") (closed : Closed before)
    (trivia : IsTrivia line) (after : List String) :
    (classify normalizer table (first :: (before ++ line :: after)) =
        classify normalizer table (first :: (before ++ after)) ↔
      Text.isBlankText line = true ∨ Text.trim first = "unknown" ∨
        (∃ e, classify normalizer table (first :: before) = .error e) ∨
        classify normalizer table (first :: after) = .error (.nothingIn line)) ∧
      (Text.trim first = "sat" → Text.isBlankText line = false →
        (∃ o, classify normalizer table (first :: before) = .ok o) →
          classify normalizer table (first :: (before ++ line :: after)) =
            .error (.nothingIn line)) := by
  rcases trivia with blank | comment
  · have same : classify normalizer table (first :: (before ++ line :: after)) =
        classify normalizer table (first :: (before ++ after)) := by
      rcases status with sat | unknown
      · simp only [classify_of_sat sat, Model.ofLines_insert_blank closed blank]
      · simp only [classify_of_unknown unknown, Model.ofLines_insert_blank closed blank]
    simp [same, blank]
  · rcases status with sat | unknown
    · have other : Text.trim first ≠ "unknown" := by simp [sat]
      simp only [classify_of_sat sat, comment.isBlankText, other, false_or, reduceCtorEq,
        Except.map_eq_error, Except.map_eq_ok]
      constructor
      · rw [Except.map_inj ofModel_injective, Model.ofLines_insert_strict_iff closed comment]
      · rintro - - ⟨o, m, read, rfl⟩
        rw [Model.ofLines_insert_strict closed comment, read]
        rfl
    · have other : Text.trim first ≠ "sat" := by simp [unknown]
      have same : classify normalizer table (first :: (before ++ line :: after)) =
          classify normalizer table (first :: (before ++ after)) := by
        simp only [classify_of_unknown unknown, Model.ofLines_insert_lenient closed comment]
      simp [same, unknown]

/-- A note between two values is left out after `unknown`, and an empty line after `sat`;
after `sat` a note makes a readable answer unreadable. -/
theorem classify_insert_note :
    classify SExpr.normalize Sample.objectiveTable
          ["unknown", "((s0 1))", " ; y follows", "((s1 2))"] =
        classify SExpr.normalize Sample.objectiveTable ["unknown", "((s0 1))", "((s1 2))"] ∧
      classify SExpr.normalize Sample.objectiveTable ["sat", "((s0 1))", "", "((s1 2))"] =
        classify SExpr.normalize Sample.objectiveTable ["sat", "((s0 1))", "((s1 2))"] ∧
      classify SExpr.normalize Sample.objectiveTable
          ["sat", "((s0 1))", " ; y follows", "((s1 2))"] =
        .error (.nothingIn " ; y follows") := by
  have closed : Closed ["((s0 1))"] := by decide +kernel
  have note : IsComment " ; y follows" :=
    ⟨[' '], " y follows".toList, rfl, by simp [Text.isAsciiBlank], by decide +kernel⟩
  have first : classify SExpr.normalize Sample.objectiveTable ["sat", "((s0 1))"] =
      .ok (.satisfiable ⟨[⟨⟨0⟩, "x", .ofInteger 1⟩], []⟩) := by decide +kernel
  have unknown : Text.trim "unknown" = "unknown" := by decide
  have sat : Text.trim "sat" = "sat" := by decide
  refine ⟨?_, ?_, ?_⟩
  · exact (classify_insert_iff (.inr unknown) closed (.inr note) ["((s1 2))"]).1.mpr
      (.inr (.inl unknown))
  · exact (classify_insert_iff (.inl sat) closed (.inl rfl) ["((s1 2))"]).1.mpr (.inl rfl)
  · exact (classify_insert_iff (.inl sat) closed (.inr note) ["((s1 2))"]).2 sat
      note.isBlankText ⟨_, first⟩

/-- A comment under the status makes an answer with a model unreadable. -/
theorem classify_note_unreadable :
    ¬∀ (table : SymbolTable) (first line : String) (before after : List String),
      Text.trim first = "sat" ∨ Text.trim first = "unknown" → Closed before →
        IsTrivia line → classify SExpr.normalize table (first :: (before ++ line :: after)) =
          classify SExpr.normalize table (first :: (before ++ after)) := by
  intro unchanged
  have note : IsComment "; comment" :=
    ⟨[], " comment".toList, rfl, by simp, by decide +kernel⟩
  have same := unchanged Sample.objectiveTable "sat" "; comment" [] ["((s0 1))"]
    (.inl (by decide)) rfl (.inr note)
  have fails : classify SExpr.normalize Sample.objectiveTable ["sat", "; comment", "((s0 1))"] =
      .error (.unreadable ⟨⟨9, .unexpectedEnd⟩, "; comment"⟩) := by decide +kernel
  have reads : classify SExpr.normalize Sample.objectiveTable ["sat", "((s0 1))"] =
      .ok (.satisfiable ⟨[⟨⟨0⟩, "x", .ofInteger 1⟩], []⟩) := by decide +kernel
  rw [List.nil_append, List.nil_append, fails, reads] at same
  cases same

end Outcome

end SmtDialogue
