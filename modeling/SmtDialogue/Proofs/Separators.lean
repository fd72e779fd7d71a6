import SmtDialogue.Proofs.Chunks
import SmtDialogue.Proofs.Escapes
import SmtDialogue.Proofs.Transcript

/-!
# Separators of a query

Between two models a query echoes the sentinel as a string literal. A solver that prints
what stands between the quotes prints the sentinel when no character of it is escaped,
and then the answer is cut into its models again. A valid sentinel can still hold a
backslash or a character outside ASCII; these are escaped, and the answer is not cut.
-/

namespace SmtDialogue

namespace Literal

/-- What stands between the quotes of a string literal. -/
def between (s : String) : String :=
  String.ofList (s.toList.flatMap stringChar)

theorem string_eq (s : String) : string s = "\"" ++ between s ++ "\"" := by
  rw [← String.toList_inj]
  simp [string, between]

/-- A character that is written as it is. -/
def IsPlain (c : Char) : Prop :=
  c ≠ '"' ∧ c ≠ '\\' ∧ ' ' ≤ c ∧ c ≤ '~'

theorem stringChar_of_isPlain {c : Char} (plain : IsPlain c) : stringChar c = [c] := by
  rw [stringChar, if_neg plain.1, if_pos plain.2]

theorem one_lt_length_stringChar {c : Char} (escaped : ¬IsPlain c) :
    1 < (stringChar c).length := by
  by_cases quote : c = '"'
  · subst quote
    decide
  · rw [stringChar, if_neg quote, if_neg fun plain => escaped ⟨quote, plain⟩]
    simp

theorem length_le_flatMap_stringChar (cs : List Char) :
    cs.length ≤ (cs.flatMap stringChar).length := by
  induction cs with
  | nil => simp
  | cons c cs ih =>
    have one : 1 ≤ (stringChar c).length := by
      by_cases plain : IsPlain c
      · rw [stringChar_of_isPlain plain]
        simp
      · exact (one_lt_length_stringChar plain).le
    rw [List.flatMap_cons, List.length_append, List.length_cons]
    omega

theorem flatMap_stringChar_eq_self_iff {cs : List Char} :
    cs.flatMap stringChar = cs ↔ ∀ c ∈ cs, IsPlain c := by
  induction cs with
  | nil => simp
  | cons c cs ih =>
    rw [List.forall_mem_cons, List.flatMap_cons]
    by_cases plain : IsPlain c
    · rw [stringChar_of_isPlain plain, List.singleton_append, List.cons_inj_right, ih]
      simp [plain]
    · -- an escape is longer than its character, and no other one is shorter
      have longer := one_lt_length_stringChar plain
      have others := length_le_flatMap_stringChar cs
      constructor
      · intro same
        have lengths := congrArg List.length same
        rw [List.length_append, List.length_cons] at lengths
        omega
      · exact fun all => absurd all.1 plain

/-- A text is written as it is when each of its characters is. -/
theorem between_eq_self_iff {s : String} : between s = s ↔ ∀ c ∈ s.toList, IsPlain c := by
  rw [between, ← flatMap_stringChar_eq_self_iff, ← String.toList_inj, String.toList_ofList]

end Literal

/-- A valid sentinel has no quotes and no control characters, so only a backslash or a
character outside ASCII is escaped in it. -/
theorem Config.between_sentinel_iff {c : Config} (valid : c.validate = .ok ()) :
    Literal.between c.sentinel = c.sentinel ↔
      ∀ ch ∈ c.sentinel.toList, ch ≠ '\\' ∧ ch.toNat < 128 := by
  have printable : ∀ ch ∈ c.sentinel.toList, ch ≠ '"' ∧ Text.isControl ch = false := by
    rw [validate, sentinelFault?] at valid
    split at valid
    · cases valid
    · next fault =>
      split at fault
      · cases fault
      · split at fault
        · cases fault
        · next none => simpa using none
  rw [Literal.between_eq_self_iff]
  refine forall₂_congr fun ch member => ?_
  obtain ⟨quote, control⟩ := printable ch member
  simp only [Text.isControl, Bool.or_eq_false_iff, Bool.and_eq_false_iff,
    decide_eq_false_iff_not, not_lt, not_le] at control
  have blank : ' ' ≤ ch ↔ 32 ≤ ch.toNat := Iff.rfl
  have tilde : ch ≤ '~' ↔ ch.toNat ≤ 126 := Iff.rfl
  rw [Literal.IsPlain, blank, tilde]
  constructor
  · rintro ⟨_, backslash, _, below⟩
    exact ⟨backslash, by omega⟩
  · rintro ⟨backslash, ascii⟩
    exact ⟨quote, backslash, control.1, by omega⟩

namespace Script

theorem isEcho_of_tells {command : Command} (tells : command.Tells) :
    command.isEcho = false := by
  cases command <;> first | rfl | exact absurd tells id

theorem isEcho_objective (o : Objective) : o.command.isEcho = false := by
  obtain ⟨name, id, goal⟩ := o
  cases goal <;> rfl

theorem isEcho_readback (p : Program) : ∀ command ∈ readback p, command.isEcho = false := by
  intro command member
  rw [readback, List.mem_append, List.mem_append, List.mem_singleton] at member
  rcases member with (rfl | objectives) | values
  · rfl
  · split at objectives
    · cases objectives
    · rw [List.mem_singleton.mp objectives]
      rfl
  · split at values
    · cases values
    · rw [List.mem_singleton.mp values]
      rfl

theorem isEcho_blocks (p : Program) :
    ∀ block ∈ blocks p, ∀ command ∈ block, command.isEcho = false := by
  intro block listed command member
  simp only [blocks] at listed
  split at listed
  · split at listed
    · rw [List.mem_singleton.mp listed] at member
      exact isEcho_readback p command member
    · obtain ⟨o, _, rfl⟩ := List.mem_map.mp listed
      simp only [List.mem_append, List.mem_cons, List.not_mem_nil, or_false] at member
      rcases member with ((rfl | rfl) | member) | rfl
      · rfl
      · exact isEcho_objective o
      · exact isEcho_readback p command member
      · rfl
  · rw [List.eq_of_mem_replicate listed] at member
    exact isEcho_readback p command member
  · rw [List.mem_singleton.mp listed] at member
    exact isEcho_readback p command member

theorem filter_isEcho_separated (sentinel : String) {bs : List (List Command)}
    (silent : ∀ block ∈ bs, ∀ command ∈ block, command.isEcho = false) :
    (separated sentinel bs).filter Command.isEcho =
      List.replicate (bs.length - 1) (.echo sentinel) := by
  have none : ∀ block ∈ bs, block.filter Command.isEcho = [] := by
    intro block member
    simpa using silent block member
  clear silent
  induction bs with
  | nil => rfl
  | cons block rest ih =>
    cases rest with
    | nil => simpa [separated] using none block List.mem_cons_self
    | cons next others =>
      have first := none block List.mem_cons_self
      have later := ih fun b member => none b (List.mem_cons_of_mem block member)
      have echo : [Command.echo sentinel].filter Command.isEcho = [.echo sentinel] := rfl
      rw [separated, List.filter_append, List.filter_append, first, echo, later]
      · rfl
      · simp

/-- A query echoes the sentinel once between two models, and nothing else. -/
theorem echoes_query {c : Config} {p : Program} {script : Script}
    (written : query c p = .ok script) :
    script.commands.filter Command.isEcho =
      List.replicate (p.expectedModels - 1) (.echo c.sentinel) := by
  obtain ⟨_, program, composed, rfl⟩ := query_eq_ok written
  obtain ⟨front, commands, tells⟩ := tells_of_body composed
  have quiet : front.filter Command.isEcho = [] := by
    simpa using fun command member => isEcho_of_tells (tells command member)
  have shared : (sharedObjectives p).filter Command.isEcho = [] := by
    rw [sharedObjectives]
    split
    · rfl
    · simp [isEcho_objective]
  rw [commands_append, commands, commands_ofCommands, List.filter_append, List.filter_append,
    quiet, shared, runs, filter_isEcho_separated c.sentinel (isEcho_blocks p), length_blocks]
  rfl

end Script

theorem Command.text_echo (s : String) :
    (echo s).text = "(echo \"" ++ Literal.between s ++ "\")" := by
  rw [text, lines, Literal.string_eq, ← String.toList_inj]
  simp

/-- Blocks with a line between them that is no sentinel are one chunk. -/
theorem chunks_of_notMem {sentinel : String} {lines : List String} (apart : sentinel ∉ lines) :
    chunks sentinel lines = [lines] := by
  have alone : chunks sentinel (List.intercalate [sentinel] [lines]) = [lines] :=
    chunks_intercalate (by simp) (by simpa using apart)
  simpa using alone

theorem notMem_intercalate {sentinel line : String} {blocks : List (List String)}
    (differs : line ≠ sentinel) (apart : ∀ block ∈ blocks, sentinel ∉ block) :
    sentinel ∉ List.intercalate [line] blocks := by
  induction blocks with
  | nil => simp
  | cons block rest ih =>
    obtain ⟨first, others⟩ := List.forall_mem_cons.mp apart
    cases rest with
    | nil => simpa using first
    | cons next more =>
      rw [List.intercalate_cons_cons]
      simpa [first, differs.symm] using ih others

/-- Several blocks are found again behind a line exactly when it is the sentinel. -/
theorem chunks_intercalate_iff {sentinel line : String} {blocks : List (List String)}
    (several : 2 ≤ blocks.length) (apart : ∀ block ∈ blocks, sentinel ∉ block) :
    chunks sentinel (List.intercalate [line] blocks) = blocks ↔ line = sentinel := by
  constructor
  · intro found
    by_contra differs
    rw [chunks_of_notMem (notMem_intercalate differs apart)] at found
    rw [← found, List.length_singleton] at several
    omega
  · rintro rfl
    refine chunks_intercalate ?_ apart
    rintro rfl
    simp at several

/-- With a valid configuration a query for several models has one separator between two of
them, and all are alike: a solver that prints what is quoted there prints the sentinel,
and its answer is cut into the blocks of the models, exactly when the sentinel is ASCII
without a backslash. -/
theorem Script.separators_verbatim_iff {c : Config} {p : Program} {script : Script}
    (valid : c.validate = .ok ()) (written : query c p = .ok script)
    (several : 2 ≤ p.expectedModels) :
    ∃ printed,
      (script.commands.filter Command.isEcho).map Command.text =
        List.replicate (p.expectedModels - 1) ("(echo \"" ++ printed ++ "\")") ∧
      (printed = c.sentinel ↔ ∀ ch ∈ c.sentinel.toList, ch ≠ '\\' ∧ ch.toNat < 128) ∧
      ∀ blocks, blocks.length = p.expectedModels → (∀ block ∈ blocks, c.sentinel ∉ block) →
        (chunks c.sentinel (List.intercalate [printed] blocks) = blocks ↔
          ∀ ch ∈ c.sentinel.toList, ch ≠ '\\' ∧ ch.toNat < 128) := by
  refine ⟨Literal.between c.sentinel, ?_, Config.between_sentinel_iff valid, ?_⟩
  · rw [echoes_query written, List.map_replicate, Command.text_echo]
  · intro blocks length apart
    rw [← Config.between_sentinel_iff valid]
    exact chunks_intercalate_iff (length ▸ several) apart

/-- A number that is made as small as can be, with two fronts asked for. -/
def Program.fronts : Program where
  polarity := .satisfy
  sorts := []
  inputs := [⟨.exist, ⟨⟨0⟩, "x", .integer⟩⟩]
  constants := []
  tables := []
  arrays := []
  functions := []
  assumptions := []
  assignments := [⟨⟨1⟩, .bool, .lessEq, [⟨0⟩, ⟨0⟩]⟩]
  constraints := []
  output := ⟨1⟩
  objectives := [⟨"low", ⟨0⟩, .minimize⟩]
  style := .pareto 2

/-- The standard configuration with another sentinel. -/
def Config.separatedBy (sentinel : String) : Config :=
  { standard with sentinel }

theorem Script.query_fronts (sentinel : String) :
    ∃ script, query (.separatedBy sentinel) .fronts = .ok script := by
  have still : Features.varies .fronts = fun _ => false := by
    funext o
    simp [Features.varies, Features.varyingInputs, Program.fronts, Program.quantifier]
  have checked : (Features.ofProgram .fronts).check (Config.separatedBy sentinel).capabilities =
      .ok () := by
    have universal : (Features.ofProgram .fronts).universalObjectives = [] := by
      simp [Features.ofProgram, still]
    rw [Features.check, universal]
    rfl
  obtain ⟨script, composed⟩ : ∃ script,
      body (.separatedBy sentinel) .fronts (Features.ofProgram .fronts) = .ok script := ⟨_, rfl⟩
  have program : ofProgram (.separatedBy sentinel) .fronts = .ok script :=
    Except.bind_eq_ok.mpr
      ⟨(), Except.mapError_eq_ok.mpr checked, Except.mapError_eq_ok.mpr composed⟩
  exact ⟨_, Except.bind_eq_ok.mpr ⟨script, program, rfl⟩⟩

/-- A sentinel of plain characters is written as it is, and an answer of two blocks is cut
there. -/
theorem Script.separators_verbatim_iff_plain :
    ∃ script, query (.separatedBy "--next--") .fronts = .ok script ∧
      (script.commands.filter Command.isEcho).map Command.text = ["(echo \"--next--\")"] ∧
      chunks "--next--" (List.intercalate ["--next--"] [["sat", "((s0 1))"], ["sat"]]) =
        [["sat", "((s0 1))"], ["sat"]] := by
  obtain ⟨script, written⟩ := query_fronts "--next--"
  obtain ⟨printed, echoes, verbatim, cut⟩ :=
    separators_verbatim_iff (by rfl) written (by decide)
  have ascii : ∀ ch ∈ "--next--".toList, ch ≠ '\\' ∧ ch.toNat < 128 := by simp
  obtain rfl := verbatim.mpr ascii
  exact ⟨script, written, echoes, (cut _ rfl (by decide)).mpr ascii⟩

/-- A valid sentinel with a backslash is not what stands between the quotes. -/
theorem Script.separators_escaped :
    ¬∀ (c : Config) (p : Program) (script : Script), c.validate = .ok () →
      query c p = .ok script → ∀ command ∈ script.commands, command.isEcho = true →
        command.text = "(echo \"" ++ c.sentinel ++ "\")" := by
  intro verbatim
  obtain ⟨script, written⟩ := query_fronts "a\\b"
  have echoes := echoes_query written
  have member : Command.echo "a\\b" ∈ script.commands := by
    have listed : Command.echo "a\\b" ∈ script.commands.filter Command.isEcho := by
      rw [echoes]
      exact List.mem_replicate.mpr ⟨by decide, rfl⟩
    exact List.mem_of_mem_filter listed
  have same := verbatim _ _ _ (by rfl) written _ member rfl
  exact absurd same (by decide)

end SmtDialogue
