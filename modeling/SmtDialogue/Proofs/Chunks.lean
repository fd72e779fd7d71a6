import SmtDialogue.Answer.Split
import SmtDialogue.Proofs.Results
import SmtDialogue.Sample.Table

/-!
# Answers cut into chunks

Chunks of lines that are joined by the sentinel are found again when the lines are cut at
it, each with its lines and in its place. So an answer with several models has the
outcomes of its chunks, where a chunk without a status of its own has that of the first
one, and an answer with another number of chunks than expected has no outcome at all.
-/

namespace SmtDialogue

theorem chunks_eq_splitOn (sentinel : String) (lines : List String) :
    chunks sentinel lines = lines.splitOn sentinel := by
  induction lines with
  | nil => rfl
  | cons line rest ih =>
    rw [chunks, List.splitOn_cons_eq_if_modifyHead, ih]
    by_cases same : line = sentinel
    · simp [same]
    · simp only [same, if_false, beq_iff_eq]
      cases parts : rest.splitOn sentinel with
      | nil => exact absurd parts (List.splitOn_ne_nil sentinel rest)
      | cons chunk others => rfl

/-- Blocks of lines with the sentinel between them are found again. -/
theorem chunks_intercalate {sentinel : String} {blocks : List (List String)}
    (nonempty : blocks ≠ []) (apart : ∀ block ∈ blocks, sentinel ∉ block) :
    chunks sentinel (List.intercalate [sentinel] blocks) = blocks := by
  rw [chunks_eq_splitOn]
  exact List.splitOn_intercalate sentinel apart nonempty

namespace Outcome

/-- A chunk that does not start with a line that reports a status, behind such a line. -/
def inherit (status : String) : List String → List String
  | [] => [status]
  | line :: rest =>
    if Text.trim line ∈ ["sat", "unsat", "unknown", "timeout"] then line :: rest
    else status :: line :: rest

theorem withStatus_eq (status : String) (chunk : List String) :
    withStatus status chunk = inherit status chunk := by
  cases chunk with
  | nil => rfl
  | cons line rest => simp [withStatus, hasStatus, status?, inherit, statusLines]

section

variable {first : String} {chunk : List String} {others : List (List String)} {sentinel : String}

theorem head?_intercalate :
    (List.intercalate [sentinel] ((first :: chunk) :: others)).head? = some first := by
  rw [List.intercalate_cons_cons_left]
  rfl

/-- An answer that starts with `sat` or `unknown` is cut at the sentinel, and its chunks
are counted before any of them is classified. -/
theorem split_intercalate (status : Text.trim first = "sat" ∨ Text.trim first = "unknown")
    (apart : ∀ part ∈ (first :: chunk) :: others, sentinel ∉ part) (normalizer : Normalizer)
    (table : SymbolTable) (expected : Nat) :
    split normalizer table expected sentinel
        (List.intercalate [sentinel] ((first :: chunk) :: others)) =
      if expected = ((first :: chunk) :: others).length then
        ((first :: chunk) :: others).mapM fun part =>
          classify normalizer table (inherit first part)
      else
        .error (.modelCount expected ((first :: chunk) :: others).length
          (String.intercalate "\n"
            (List.intercalate [sentinel] ((first :: chunk) :: others)))) := by
  have parts := chunks_intercalate (List.cons_ne_nil (first :: chunk) others) apart
  have begins : status? (List.intercalate [sentinel] ((first :: chunk) :: others)) =
      some (Text.trim first) := by
    rw [status?, head?_intercalate]
    rfl
  have each : (fun part => classify normalizer table (withStatus first part)) =
      fun part => classify normalizer table (inherit first part) := by
    funext part
    rw [withStatus_eq]
  rw [split]
  rcases status with sat | unknown
  · simp only [begins, sat, parts, List.head?_cons, Option.bind_some, each, eq_comm, ite_not]
  · simp only [begins, unknown, parts, List.head?_cons, Option.bind_some, each, eq_comm, ite_not]

/-- Splitting undoes joining. Chunks that are joined by the sentinel are the chunks of the
lines; as many outcomes come back as there are chunks, each one that of its chunk, unless
some chunk fails, and then the first such chunk gives the error; and with any other number
of outcomes expected nothing but that number and the lines decide the error. -/
theorem split_joined (status : Text.trim first = "sat" ∨ Text.trim first = "unknown")
    (apart : ∀ part ∈ (first :: chunk) :: others, sentinel ∉ part) (normalizer : Normalizer)
    (table : SymbolTable) :
    let parts := (first :: chunk) :: others
    let lines := List.intercalate [sentinel] parts
    chunks sentinel lines = parts ∧
    (∀ outcomes, split normalizer table parts.length sentinel lines = .ok outcomes ↔
      List.Forall₂ (fun part o => classify normalizer table (inherit first part) = .ok o)
        parts outcomes) ∧
    (∀ e, split normalizer table parts.length sentinel lines = .error e ↔
      ∃ before part after, parts = before ++ part :: after ∧
        (∀ earlier ∈ before, ∃ o, classify normalizer table (inherit first earlier) = .ok o) ∧
        classify normalizer table (inherit first part) = .error e) ∧
    ∀ expected, expected ≠ parts.length →
      split normalizer table expected sentinel lines =
        .error (.modelCount expected parts.length (String.intercalate "\n" lines)) := by
  intro parts lines
  have cut := split_intercalate status apart normalizer table
  refine ⟨chunks_intercalate (List.cons_ne_nil _ _) apart, fun outcomes => ?_, fun e => ?_,
    fun expected differs => ?_⟩
  · rw [cut, if_pos rfl]
    exact Except.mapM_eq_ok
  · rw [cut, if_pos rfl]
    exact Except.mapM_eq_error
  · rw [cut, if_neg differs]

end

/-- A chunk with a status of its own, an empty one, and one that begins with a model. -/
def tripled : List (List String) :=
  [["sat ", "((s0 1))"], [], ["unknown", "((s0 true)", " (s1 2))"], ["((s1 3))"]]

/-- Four outcomes come back in order; the empty chunk is satisfiable like the first. One
less than there are chunks is an error, and so is a chunk that is read strictly with the
status it inherits. -/
theorem split_joined_tripled :
    split SExpr.normalize Sample.objectiveTable 4 "--" (List.intercalate ["--"] tripled) =
        .ok [.satisfiable ⟨[⟨⟨0⟩, "x", .ofInteger 1⟩], []⟩, .satisfiable ⟨[], []⟩,
          .unknown ⟨[⟨⟨1⟩, "y", .ofInteger 2⟩], []⟩,
          .satisfiable ⟨[⟨⟨1⟩, "y", .ofInteger 3⟩], []⟩] ∧
      split SExpr.normalize Sample.objectiveTable 3 "--" (List.intercalate ["--"] tripled) =
        .error (.modelCount 3 4
          (String.intercalate "\n" (List.intercalate ["--"] tripled))) ∧
      split SExpr.normalize Sample.objectiveTable 2 "--" ["sat", "--", "s1"] =
        .error (.undecodable "s1" (.atom (.symbol "s1")) (.unexpectedRoot "model")) := by
  have classified : List.Forall₂
      (fun part o => classify SExpr.normalize Sample.objectiveTable (inherit "sat " part) = .ok o)
      tripled [.satisfiable ⟨[⟨⟨0⟩, "x", .ofInteger 1⟩], []⟩, .satisfiable ⟨[], []⟩,
        .unknown ⟨[⟨⟨1⟩, "y", .ofInteger 2⟩], []⟩,
        .satisfiable ⟨[⟨⟨1⟩, "y", .ofInteger 3⟩], []⟩] :=
    .cons (by decide +kernel) (.cons (by decide +kernel)
      (.cons (by decide +kernel) (.cons (by decide +kernel) .nil)))
  have joined := @split_joined "sat " ["((s0 1))"] tripled.tail "--" (.inl (by decide))
    (by decide) SExpr.normalize Sample.objectiveTable
  have failing := @split_joined "sat" [] [["s1"]] "--" (.inl (by decide)) (by decide)
    SExpr.normalize Sample.objectiveTable
  refine ⟨(joined.2.1 _).mpr classified, joined.2.2.2 3 (by decide), (failing.2.2.1 _).mpr ?_⟩
  exact ⟨[["sat"]], ["s1"], [], rfl,
    List.forall_mem_singleton.mpr ⟨.satisfiable ⟨[], []⟩, by decide +kernel⟩, by decide +kernel⟩

end Outcome

end SmtDialogue
