import SmtDialogue.Dialogue
import SmtDialogue.Proofs.Chunks
import SmtDialogue.Proofs.Failures

/-!
# Status lines and sentinels

The sentinel of a valid configuration has no blanks around it and is no status, so a line
that reports a status with any blanks around it is not cut away. The first chunk of an
answer therefore starts with the status, and an answer is refused for its chunks only when
their number, which is never zero, is not the expected one.
-/

namespace SmtDialogue

theorem Dialogue.open?_eq_ok {c : Config} {d : Dialogue} : open? c = .ok d ↔ d.config = c := by
  obtain ⟨own, valid⟩ := d
  constructor
  · intro opened
    rw [open?] at opened
    split at opened
    · cases opened
      rfl
    · cases opened
  · rintro rfl
    rw [open?]
    split
    · rfl
    · next e fault =>
      rw [valid] at fault
      cases fault

namespace Config

variable {c : Config} (valid : c.validate = .ok ())

include valid

theorem sentinelFault?_eq_none : sentinelFault? c.sentinel = none := by
  rw [validate] at valid
  split at valid
  · cases valid
  · next faultless => exact faultless

theorem trim_sentinel : Text.trim c.sentinel = c.sentinel := by
  have faultless := sentinelFault?_eq_none valid
  rw [sentinelFault?] at faultless
  split at faultless
  · cases faultless
  · next edges =>
    by_contra blank
    exact edges (by simp [blank])

theorem sentinel_notMem_statusLines : c.sentinel ∉ statusLines := by
  have faultless := sentinelFault?_eq_none valid
  rw [sentinelFault?] at faultless
  split_ifs at faultless with _ _ status
  simpa using status

/-- A line that reports a status is not the sentinel, whatever blanks are around it. -/
theorem ne_sentinel {line : String} (status : Text.trim line ∈ statusLines) :
    line ≠ c.sentinel := by
  rintro rfl
  rw [trim_sentinel valid] at status
  exact sentinel_notMem_statusLines valid status

end Config

/-- There is one chunk more than there are sentinels. -/
theorem length_chunks (sentinel : String) (lines : List String) :
    (chunks sentinel lines).length = lines.count sentinel + 1 := by
  induction lines with
  | nil => rfl
  | cons line rest ih =>
    rw [chunks]
    by_cases same : line = sentinel
    · rw [if_pos same, List.length_cons, ih, same, List.count_cons_self]
    · rw [if_neg same, List.count_cons_of_ne same, ← ih]
      cases parts : chunks sentinel rest with
      | nil =>
        rw [parts] at ih
        cases ih
      | cons chunk others => rfl

/-- A first line that is not the sentinel starts the first chunk. -/
theorem exists_chunks_cons {sentinel line : String} (other : line ≠ sentinel)
    (rest : List String) :
    ∃ chunk others, chunks sentinel (line :: rest) = (line :: chunk) :: others := by
  rw [chunks, if_neg other]
  cases chunks sentinel rest with
  | nil => exact ⟨[], [], rfl⟩
  | cons chunk others => exact ⟨chunk, others, rfl⟩

namespace Outcome

variable {normalizer : Normalizer} {table : SymbolTable} {expected : Nat} {sentinel : String}
  {lines : List String}

/-- Whether an answer starts with a status that leaves models to be read. -/
def Continues (lines : List String) : Prop :=
  status? lines = some "sat" ∨ status? lines = some "unknown"

theorem Continues.exists_cons (continues : Continues lines) :
    ∃ first rest, lines = first :: rest ∧ Text.trim first ∈ statusLines := by
  cases lines with
  | nil => rcases continues with status | status <;> cases status
  | cons first rest =>
    have status : Text.trim first = "sat" ∨ Text.trim first = "unknown" :=
      continues.imp Option.some.inj Option.some.inj
    refine ⟨first, rest, rfl, ?_⟩
    rcases status with same | same <;> simp [same, statusLines]

/-- An answer that is not cut fails as a whole. -/
theorem split_of_not_continues (stops : ¬Continues lines) :
    split normalizer table expected sentinel lines =
      (classify normalizer table lines).map (List.replicate expected) := by
  obtain ⟨notSat, notUnknown⟩ := not_or.mp stops
  unfold split
  split
  · next sat => exact absurd sat notSat
  · next unknown => exact absurd unknown notUnknown
  · rfl

/-- An answer that is cut is refused for the number of its chunks, or each of them is
classified behind the status. -/
theorem split_of_continues (continues : Continues lines) {status : String} {chunk : List String}
    {others : List (List String)} (cut : chunks sentinel lines = (status :: chunk) :: others) :
    split normalizer table expected sentinel lines =
      if (chunks sentinel lines).length = expected then
        (chunks sentinel lines).mapM fun part =>
          classify normalizer table (withStatus status part)
      else
        .error (.modelCount expected (chunks sentinel lines).length
          (String.intercalate "\n" lines)) := by
  rw [split]
  rcases continues with sat | unknown
  · simp only [sat, cut, List.head?_cons, Option.bind_some, ite_not]
  · simp only [unknown, cut, List.head?_cons, Option.bind_some, ite_not]

/-- Only an answer that is cut, and into another number of chunks than is expected, is
refused for its chunks. -/
theorem split_eq_modelCount_iff
    (kept : ∀ line, Text.trim line ∈ statusLines → line ≠ sentinel) {e actual : Nat}
    {raw : String} :
    split normalizer table expected sentinel lines = .error (.modelCount e actual raw) ↔
      Continues lines ∧ actual = lines.count sentinel + 1 ∧ actual ≠ expected ∧
        e = expected ∧ raw = String.intercalate "\n" lines := by
  have sound : ∀ lines, classify normalizer table lines ≠ .error (.modelCount e actual raw) :=
    fun _ failed => (classify_eq_error failed).ne_modelCount e actual raw rfl
  by_cases continues : Continues lines
  · obtain ⟨first, rest, rfl, status⟩ := continues.exists_cons
    obtain ⟨chunk, others, cut⟩ := exists_chunks_cons (kept first status) rest
    rw [split_of_continues continues cut, length_chunks]
    by_cases counted : (first :: rest).count sentinel + 1 = expected
    · rw [if_pos counted]
      constructor
      · intro failed
        obtain ⟨_, part, _, _, _, failed⟩ := Except.mapM_eq_error.mp failed
        exact absurd failed (sound _)
      · rintro ⟨_, rfl, differs, _⟩
        exact absurd counted differs
    · rw [if_neg counted]
      constructor
      · intro refused
        cases refused
        exact ⟨continues, rfl, counted, rfl, rfl⟩
      · rintro ⟨_, rfl, _, rfl, rfl⟩
        rfl
  · rw [split_of_not_continues continues, Except.map_eq_error]
    constructor
    · exact fun failed => absurd failed (sound lines)
    · exact fun refused => absurd refused.1 continues

end Outcome

namespace Dialogue

open Outcome (Continues)

/-- No line that reports `sat` or `unknown` equals the sentinel of an accepted configuration,
so the first chunk of an answer starts with its status line. An answer is refused for its
chunks exactly when several or no models are expected, it starts with such a line, and the
number of sentinels in it does not fit; that number of chunks is never zero. -/
theorem interpret_eq_modelCount_iff {c : Config} {d : Dialogue} (opened : open? c = .ok d)
    (q : PreparedQuery) (lines : List String) :
    (∀ line, Text.trim line = "sat" ∨ Text.trim line = "unknown" → line ≠ c.sentinel) ∧
    (Continues lines → ∃ first rest chunk others, lines = first :: rest ∧
      chunks c.sentinel lines = (first :: chunk) :: others) ∧
    (∀ expected actual raw, d.interpret q lines = .error (.modelCount expected actual raw) ↔
      q.expectedModels ≠ 1 ∧ Continues lines ∧ actual = lines.count c.sentinel + 1 ∧
        actual ≠ q.expectedModels ∧ expected = q.expectedModels ∧
        raw = String.intercalate "\n" lines) ∧
    ∀ expected raw, d.interpret q lines ≠ .error (.modelCount expected 0 raw) := by
  obtain rfl := open?_eq_ok.mp opened
  have kept : ∀ line, Text.trim line ∈ statusLines → line ≠ d.config.sentinel :=
    fun _ => Config.ne_sentinel d.valid
  have refused : ∀ expected actual raw,
      d.interpret q lines = .error (.modelCount expected actual raw) ↔
        q.expectedModels ≠ 1 ∧ Continues lines ∧ actual = lines.count d.config.sentinel + 1 ∧
          actual ≠ q.expectedModels ∧ expected = q.expectedModels ∧
          raw = String.intercalate "\n" lines := by
    intro expected actual raw
    rw [interpret]
    split
    · next single =>
      rw [Except.map_eq_error]
      constructor
      · exact fun failed => absurd rfl
          ((Outcome.classify_eq_error failed).ne_modelCount expected actual raw)
      · exact fun counts => absurd single counts.1
    · next several =>
      rw [Outcome.split_eq_modelCount_iff kept]
      exact (and_iff_right several).symm
  refine ⟨fun line status => kept line ?_, fun continues => ?_, refused, fun expected raw => ?_⟩
  · rcases status with same | same <;> simp [same, statusLines]
  · obtain ⟨first, rest, rfl, status⟩ := continues.exists_cons
    obtain ⟨chunk, others, cut⟩ := exists_chunks_cons (kept first status) rest
    exact ⟨first, rest, chunk, others, rfl, cut⟩
  · intro failed
    obtain ⟨_, _, counted, _⟩ := (refused expected 0 raw).mp failed
    omega

/-- A configuration whose sentinel is two statuses in a row. -/
def twice : Config :=
  { Config.standard with sentinel := "sat sat" }

/-- The status line has a blank that ASCII does not know and is kept, the sentinel with a blank
in front is no sentinel, and three chunks are counted. -/
theorem interpret_eq_modelCount_iff_twice :
    ∃ d, open? twice = .ok d ∧
      d.interpret ⟨[], ⟨[]⟩, 2⟩ ["\u00a0sat", "sat sat", " sat sat", "sat sat"] =
        .error (.modelCount 2 3 "\u00a0sat\nsat sat\n sat sat\nsat sat") ∧
      (∀ raw, d.interpret ⟨[], ⟨[]⟩, 2⟩ ["sat", "sat sat"] ≠
        .error (.modelCount 2 0 raw)) ∧
      "\u00a0sat" ≠ twice.sentinel := by
  have valid : twice.validate = .ok () := by decide
  have opened : open? twice = .ok ⟨twice, valid⟩ := open?_eq_ok.mpr rfl
  obtain ⟨others, -, refused, -⟩ := interpret_eq_modelCount_iff opened ⟨[], ⟨[]⟩, 2⟩
    ["\u00a0sat", "sat sat", " sat sat", "sat sat"]
  obtain ⟨-, -, -, never⟩ := interpret_eq_modelCount_iff opened ⟨[], ⟨[]⟩, 2⟩
    ["sat", "sat sat"]
  refine ⟨_, opened, (refused 2 3 _).mpr ?_, never 2, others _ (.inl (by decide))⟩
  exact ⟨by decide, .inl (by decide), by decide, by decide, rfl, by decide⟩

/-- A sentinel that is not validated can be the status itself, and then there is none. -/
example : Outcome.split SExpr.normalize ⟨[]⟩ 2 "sat" ["sat", "((s0 1))"] =
    .error (.modelCount 2 0 "sat\n((s0 1))") := by
  decide

end Dialogue

end SmtDialogue
