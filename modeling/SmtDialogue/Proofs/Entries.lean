import SmtDialogue.Proofs.Literals
import SmtDialogue.Proofs.Uses

/-!
# Entries of tables

A table is an array whose places are fixed one by one, each by an assertion whose index is
the literal of the place at the index kind. A fixed-width kind wraps, so the places of a
table that is longer than its range share literals: such a table is written all the same,
and its entries can only be met together where the elements at these places agree.
-/

namespace SmtDialogue

theorem Kind.cast_one_shiftLeft (width : Nat) : ((1 <<< width : Nat) : Int) = 2 ^ width := by
  rw [Nat.shiftLeft_eq, Nat.one_mul, Nat.cast_pow, Nat.cast_ofNat]

namespace Literal

/-- The reader takes the literal for the number. -/
def Denotes (literal : String) (n : Int) : Prop :=
  ∃ width, SExpr.parse literal = .ok (.atom (.int n width))

theorem Denotes.unique {literal : String} {m n : Int} (first : Denotes literal m)
    (second : Denotes literal n) : m = n := by
  obtain ⟨_, first⟩ := first
  obtain ⟨_, second⟩ := second
  rw [first] at second
  cases second
  rfl

theorem denotes_integerTerm (i : Int) : Denotes (Numeral.integerTerm i) i := by
  have parsed := Spelling.parse_of_chars _ (Spelling.proper_integer i)
    (Spelling.chars_integer i).symm
  rw [Spelling.tree_integer] at parsed
  exact ⟨none, parsed⟩

/-- A bit pattern of at least one bit reads as a word of its width. -/
theorem phrase_bits (i : Int) {width : UInt32} (positive : 0 < width) :
    Phrase (bits i width.toNat).toList (.atom (.int (i % 2 ^ width.toNat) (some width))) := by
  have phrase := Phrase.of_proper
    (Spelling.proper_bits i (UInt32.lt_iff_toNat_lt.mp positive) width.toNat_lt_size)
  have pattern : ((i % (1 <<< width.toNat : Nat)).toNat : Int) = i % 2 ^ width.toNat := by
    rw [Kind.cast_one_shiftLeft]
    exact Int.toNat_of_nonneg (Int.emod_nonneg _ (by positivity))
  rwa [Spelling.chars_bits, Spelling.bits, Spelling.tree_pattern, pattern] at phrase

/-- A bit pattern denotes an integer modulo its range. That of no bits at all has a digit
of its own. -/
theorem denotes_bits (i : Int) (width : UInt32) :
    Denotes (bits i width.toNat) (i % 2 ^ width.toNat) := by
  by_cases empty : width = 0
  · subst empty
    have zero : bits i (UInt32.toNat 0) = "#x0" := by
      have rest : i % (1 <<< 0 : Nat) = 0 := Int.emod_one i
      simp only [bits, UInt32.toNat_zero, rest]
      decide
    rw [zero, UInt32.toNat_zero, pow_zero, Int.emod_one]
    exact ⟨some 4, by decide⟩
  · exact ⟨some width, (phrase_bits i (UInt32.pos_iff_ne_zero.mpr empty)).parse⟩

end Literal

namespace Kind

/-- What is left of a place in an index kind. -/
def placeNumber (kind : Kind) (place : Nat) : Int :=
  match kind.width? with
  | some width => place % 2 ^ width.toNat
  | none => place

theorem wrap_emod_pow (signed : Bool) (width : Nat) (i : Int) :
    wrap signed width i % 2 ^ width = i % 2 ^ width := by
  rw [← cast_one_shiftLeft]
  cases signed with
  | false => exact Int.emod_emod_of_dvd i (dvd_refl _)
  | true => exact Int.bmod_emod

end Kind

/-- The literal of a place denotes what is left of the place in the index kind. -/
theorem Value.denotes_of_place {kind : Kind} {place : Nat} {index : Value}
    (made : ofPayload kind (.integer place) = .ok index) :
    Literal.Denotes index.literal (kind.placeNumber place) := by
  obtain ⟨rfl, normal⟩ := ofPayload_eq_ok.mp made
  obtain ⟨kind, payload, fits⟩ := index
  cases Payload.fits_iff.mp fits with
  | @bits signed width i sized inRange =>
    have wrapped : Kind.wrap signed width.toNat place = i := by
      simpa [Payload.normalize?, Kind.wrap?_eq_some, sized] using normal
    subst wrapped
    have denotes := Literal.denotes_bits (Kind.wrap signed width.toNat place) width
    rw [Kind.wrap_emod_pow] at denotes
    exact denotes
  | integer i =>
    cases normal
    exact Literal.denotes_integerTerm place
  | _ => cases normal

namespace Table

/-- What the literals of the places of a table denote, in order. -/
def numbers (t : Table) : List Int :=
  (List.range t.elements.length).map t.index.placeNumber

/-- A fixed-width index kind has a number for every place. -/
def Fits (t : Table) : Prop :=
  ∀ width, t.index.width? = some width → t.elements.length ≤ 2 ^ width.toNat

theorem length_numbers (t : Table) : t.numbers.length = t.elements.length := by
  simp [numbers]

/-- In a table that does not fit the first place and the one behind the range are the
same. -/
theorem nodup_numbers_iff (t : Table) : t.numbers.Nodup ↔ t.Fits := by
  rw [numbers, List.nodup_map_iff_inj_on List.nodup_range]
  constructor
  · intro distinct width bits
    by_contra longer
    have behind : 2 ^ width.toNat < t.elements.length := Nat.lt_of_not_le longer
    have same := distinct 0 (List.mem_range.mpr (Nat.zero_lt_of_lt behind)) _
      (List.mem_range.mpr behind) (by simp [Kind.placeNumber, bits])
    exact absurd same.symm (by positivity)
  · intro fits i hi j hj same
    rw [List.mem_range] at hi hj
    rw [Kind.placeNumber, Kind.placeNumber] at same
    split at same
    · next width bits =>
      have range := fits width bits
      have below : ∀ n < t.elements.length, ((n : Int) % 2 ^ width.toNat) = n := by
        intro n hn
        refine Int.emod_eq_of_lt (by omega) ?_
        exact_mod_cast Nat.lt_of_lt_of_le hn range
      rw [below i hi, below j hj] at same
      exact_mod_cast same
    · exact_mod_cast same

/-- The assertion that a table has a word at an index. -/
def entry (t : Table) (index : Value) (element : WordId) : Command :=
  .assert (.call "=" [.call "select" [.name (.table t.id), .literal index], .word element])

/-- An array with the value of the element at what the index denotes. -/
def EntryHolds {V : Type} (array : Int → V) (value : WordId → V) (index : Value)
    (element : WordId) : Prop :=
  ∀ n, Literal.Denotes index.literal n → array n = value element

/-- Elements at places with the same number have the same value. -/
def Agree {V : Type} (t : Table) (value : WordId → V) : Prop :=
  ∀ p ∈ t.numbers.zip t.elements, ∀ q ∈ t.numbers.zip t.elements,
    p.1 = q.1 → value p.2 = value q.2

section

variable {V : Type} {value : WordId → V}

theorem forall₂_entryHolds_iff {array : Int → V} {indices : List Value} {numbers : List Int}
    {elements : List WordId}
    (denotes : List.Forall₂ (fun index n => Literal.Denotes index.literal n) indices numbers) :
    List.Forall₂ (EntryHolds array value) indices elements ↔
      List.Forall₂ (fun n element => array n = value element) numbers elements := by
  induction denotes generalizing elements with
  | nil => simp
  | @cons index n indices numbers denotes _ ih =>
    have one : ∀ element, EntryHolds array value index element ↔ array n = value element :=
      fun element => ⟨fun holds => holds n denotes, fun same m other =>
        denotes.unique other ▸ same⟩
    simp only [List.forall₂_cons_left_iff, one, ih]

/-- Words at different numbers can have any values. -/
theorem agree_of_fits {t : Table} (fits : t.Fits) : t.Agree value := by
  intro p hp q hq same
  have firsts : (t.numbers.zip t.elements).map Prod.fst = t.numbers :=
    List.map_fst_zip (Nat.le_of_eq t.length_numbers)
  have distinct : ((t.numbers.zip t.elements).map Prod.fst).Nodup := by
    rw [firsts]
    exact t.nodup_numbers_iff.mpr fits
  rw [List.inj_on_of_nodup_map distinct hp hq same]

theorem exists_array_iff {t : Table} {indices : List Value}
    (denotes : List.Forall₂ (fun index n => Literal.Denotes index.literal n) indices t.numbers) :
    (∃ array, List.Forall₂ (EntryHolds array value) indices t.elements) ↔ t.Agree value := by
  simp only [forall₂_entryHolds_iff denotes, List.forall₂_iff_zip]
  constructor
  · rintro ⟨array, -, holds⟩ p hp q hq same
    rw [← holds hp, ← holds hq, same]
  · intro agree
    classical
    -- the array is read off the first element that is found for a number
    refine ⟨fun n => if found : ∃ element, (n, element) ∈ t.numbers.zip t.elements
      then value found.choose else value default, t.length_numbers, ?_⟩
    intro n element member
    have found : ∃ element, (n, element) ∈ t.numbers.zip t.elements := ⟨element, member⟩
    refine (dif_pos found).trans ?_
    exact agree _ found.choose_spec _ member rfl

end

theorem zipWith_entry_of_written {t : Table} {scope : Scope} {elements : List WordId}
    {start : Nat} {cs : List Command}
    (written : List.Forall₂ (fun (x : WordId × Nat) c => t.entryCommand scope x.2 x.1 = .ok c)
      (elements.zipIdx start) cs) :
    ∃ indices, cs = List.zipWith t.entry indices elements ∧
      List.Forall₂ (fun index place => Literal.Denotes index.literal (t.index.placeNumber place))
        indices (List.range' start elements.length) := by
  induction elements generalizing start cs with
  | nil =>
    cases written
    exact ⟨[], rfl, .nil⟩
  | cons element rest ih =>
    rw [List.zipIdx_cons] at written
    cases written with
    | cons first others =>
      obtain ⟨indices, rfl, denotes⟩ := ih others
      obtain ⟨_, index, made, rfl⟩ := entryCommand_eq_ok first
      exact ⟨index :: indices, rfl, .cons (Value.denotes_of_place made) denotes⟩

/-- The entries of a table are written for the numbers of its places. -/
theorem entryCommands_eq_ok {t : Table} {scope : Scope} {cs : List Command}
    (written : t.entryCommands scope = .ok cs) :
    ∃ indices, cs = List.zipWith t.entry indices t.elements ∧
      List.Forall₂ (fun index n => Literal.Denotes index.literal n) indices t.numbers := by
  obtain ⟨indices, same, denotes⟩ := zipWith_entry_of_written (Except.mapM_eq_ok.mp written)
  refine ⟨indices, same, List.forall₂_map_right_iff.mpr ?_⟩
  rw [List.range_eq_range']
  exact denotes

end Table

/-- The tables of a program or fragment that is accepted, with the commands it is written
as. -/
inductive Script.Accepted : List Table → List Command → Prop where
  | program {c : Config} {p : Program} {s : Script} :
    Script.ofProgram c p = .ok s → Accepted p.tables s.commands
  | query {c : Config} {p : Program} {s : Script} :
    Script.query c p = .ok s → Accepted p.tables s.commands
  | fragment {solver : Capabilities} {before after : Session} {d : Delta} {s : Script} :
    before.fragment solver d = .ok (s, after) → Accepted d.tables s.commands

namespace Script

/-- The entries stand one behind the other among the commands. -/
theorem entries_of_body {c : Config} {p : Program} {f : Features} {s : Script}
    (written : body c p f = .ok s) :
    ∃ scope entries, List.Forall₂ (fun t cs => Table.entryCommands t scope = .ok cs)
      p.tables entries ∧ entries.flatten <:+: s.commands := by
  obtain ⟨parts, shape, -, commands⟩ := body_eq_ok written
  refine ⟨_, parts.entries, shape.entries, ?_⟩
  rw [commands]
  simp only [← List.append_assoc]
  exact (List.infix_append _ _ _).trans (List.prefix_append _ _).isInfix

theorem Accepted.entries {tables : List Table} {commands : List Command}
    (accepted : Accepted tables commands) :
    ∃ scope entries, List.Forall₂ (fun t cs => Table.entryCommands t scope = .ok cs)
      tables entries ∧ entries.flatten <:+: commands := by
  cases accepted with
  | program written =>
    obtain ⟨_, _, built⟩ := Except.bind_eq_ok.mp written
    exact entries_of_body (Except.mapError_eq_ok.mp built)
  | query written =>
    obtain ⟨_, script, built, rfl⟩ := query_eq_ok written
    obtain ⟨scope, entries, each, inside⟩ := entries_of_body built
    refine ⟨scope, entries, each, ?_⟩
    rw [commands_append]
    exact inside.trans (List.prefix_append _ _).isInfix
  | fragment written =>
    obtain ⟨_, _, written⟩ := Except.bind_eq_ok.mp written
    obtain ⟨w, built, written⟩ := Except.bind_eq_ok.mp written
    cases written
    obtain ⟨parts, shape, -, commands⟩ := Delta.commands_eq_ok (Except.mapError_eq_ok.mp built)
    refine ⟨_, parts.entries, shape.entries, ?_⟩
    rw [commands_ofCommands, commands]
    exact List.infix_append _ _ _

/-- Every table of what is accepted has its entries written for the numbers of its
places. -/
theorem Accepted.indices {tables : List Table} {commands : List Command}
    (accepted : Accepted tables commands) {t : Table} (listed : t ∈ tables) :
    ∃ indices, List.zipWith t.entry indices t.elements <:+: commands ∧
      List.Forall₂ (fun index n => Literal.Denotes index.literal n) indices t.numbers := by
  obtain ⟨scope, entries, each, inside⟩ := accepted.entries
  obtain ⟨cs, member, written⟩ := each.flip.exists_of_mem_right listed
  obtain ⟨indices, rfl, denotes⟩ := Table.entryCommands_eq_ok written
  exact ⟨indices, (List.infix_of_mem_flatten member).trans inside, denotes⟩

end Script

/-- Each table of an accepted program or fragment has one entry for every element, whose
index is a literal that denotes the place modulo the range of the index kind. These numbers
are all different exactly when the kind has a number for every place. Then some array meets
all entries, whatever the values of the elements are. In general there is one exactly when
elements at places with the same number have the same value. -/
theorem Table.entries_distinct_iff {tables : List Table} {commands : List Command}
    (accepted : Script.Accepted tables commands) {t : Table} (listed : t ∈ tables) :
    ∃ indices, List.zipWith t.entry indices t.elements <:+: commands ∧
      List.Forall₂ (fun index n => Literal.Denotes index.literal n) indices t.numbers ∧
      (t.numbers.Nodup ↔ t.Fits) ∧
      ∀ (V : Type) (value : WordId → V),
        (t.Fits → ∃ array, List.Forall₂ (EntryHolds array value) indices t.elements) ∧
        ((∃ array, List.Forall₂ (EntryHolds array value) indices t.elements) ↔
          t.Agree value) := by
  obtain ⟨indices, inside, denotes⟩ := accepted.indices listed
  refine ⟨indices, inside, denotes, t.nodup_numbers_iff, fun V value => ?_⟩
  have met : (∃ array, List.Forall₂ (EntryHolds array value) indices t.elements) ↔
      t.Agree value := exists_array_iff denotes
  exact ⟨fun fits => met.mpr (agree_of_fits fits), met⟩

/-- A table of four places behind a signed index of two bits. -/
def Delta.signed : Delta where
  sorts := []
  inputs := [⟨⟨0⟩, "a", .bool⟩, ⟨⟨1⟩, "b", .bool⟩]
  constants := []
  tables := [⟨0, .int 2, .bool, [⟨0⟩, ⟨1⟩, ⟨1⟩, ⟨0⟩]⟩]
  arrays := []
  functions := []
  assignments := []
  assertions := []

/-- The two halves of a signed range denote the numbers of an unsigned one, so a table of
four places fits two bits, and there is an array for all values of its elements. -/
theorem Table.entries_distinct_iff_signed :
    ∃ s after, Session.start.fragment Config.standard.capabilities .signed = .ok (s, after) ∧
      ∃ t ∈ Delta.signed.tables, t.numbers = [0, 1, 2, 3] ∧ t.Fits ∧
        ∃ indices, List.zipWith t.entry indices t.elements <:+: s.commands ∧
          List.Forall₂ (fun index n => Literal.Denotes index.literal n) indices t.numbers ∧
          ∀ (V : Type) (value : WordId → V),
            ∃ array, List.Forall₂ (EntryHolds array value) indices t.elements := by
  obtain ⟨s, after, written⟩ : ∃ s after,
      Session.start.fragment Config.standard.capabilities .signed = .ok (s, after) :=
    ⟨_, _, rfl⟩
  obtain ⟨indices, inside, denotes, distinct, arrays⟩ :=
    entries_distinct_iff (.fragment written) (List.mem_singleton.mpr rfl)
  have numbers : numbers ⟨0, .int 2, .bool, [⟨0⟩, ⟨1⟩, ⟨1⟩, ⟨0⟩]⟩ = [0, 1, 2, 3] := by decide
  have fits : Fits ⟨0, .int 2, .bool, [⟨0⟩, ⟨1⟩, ⟨1⟩, ⟨0⟩]⟩ :=
    distinct.mp (by rw [numbers]; decide)
  exact ⟨s, after, written, _, List.mem_singleton.mpr rfl, numbers, fits, indices, inside,
    denotes, fun V value => (arrays V value).1 fits⟩

/-- Two truth values that differ, and a table of three places behind an index of one bit. -/
def Program.wrapped : Program where
  polarity := .satisfy
  sorts := []
  inputs := [⟨.exist, ⟨⟨0⟩, "a", .bool⟩⟩, ⟨.exist, ⟨⟨1⟩, "b", .bool⟩⟩]
  constants := []
  tables := [⟨0, .word 1, .bool, [⟨0⟩, ⟨0⟩, ⟨1⟩]⟩]
  arrays := []
  functions := []
  assumptions := []
  assignments := [⟨⟨2⟩, .bool, .xor, [⟨0⟩, ⟨1⟩]⟩]
  constraints := []
  output := ⟨2⟩
  objectives := []
  style := .lexicographic

/-- The first and the last place of an accepted table share a literal, and the program
demands that the words at these places differ, so no array meets the entries. -/
theorem Table.places_wrapped :
    ∃ s, Script.ofProgram .standard .wrapped = .ok s ∧
      ∃ t ∈ Program.wrapped.tables, ∃ indices,
        List.zipWith t.entry indices t.elements <:+: s.commands ∧
          indices.length = t.elements.length ∧
          (¬indices.Pairwise fun v w =>
            ∀ n, ¬(Literal.Denotes v.literal n ∧ Literal.Denotes w.literal n)) ∧
          ∀ value : WordId → Bool, value ⟨0⟩ ≠ value ⟨1⟩ →
            ¬∃ array, List.Forall₂ (EntryHolds array value) indices t.elements := by
  obtain ⟨s, written⟩ : ∃ s, Script.ofProgram .standard .wrapped = .ok s := ⟨_, rfl⟩
  have listed : ⟨0, .word 1, .bool, [⟨0⟩, ⟨0⟩, ⟨1⟩]⟩ ∈ Program.wrapped.tables :=
    List.mem_singleton.mpr rfl
  have numbers : numbers ⟨0, .word 1, .bool, [⟨0⟩, ⟨0⟩, ⟨1⟩]⟩ = [0, 1, 0] := by decide
  obtain ⟨indices, inside, denotes⟩ := Script.Accepted.indices (.program written) listed
  refine ⟨s, written, _, listed, indices, inside, ?_, ?_, fun value differ met => ?_⟩
  · rw [denotes.length_eq, length_numbers]
  · rw [numbers] at denotes
    obtain _ | ⟨first, _ | ⟨_, _ | ⟨last, _⟩⟩⟩ := denotes
    intro apart
    exact (List.pairwise_cons.mp apart).1 _ (by simp) 0 ⟨first, last⟩
  · have agree := (exists_array_iff denotes).mp met
    rw [Agree, numbers] at agree
    exact differ (agree (0, ⟨0⟩) (by decide) (0, ⟨1⟩) (by decide) rfl)

end SmtDialogue
