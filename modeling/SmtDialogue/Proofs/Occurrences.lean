import SmtDialogue.Proofs.Exact
import SmtDialogue.Proofs.Objectives
import SmtDialogue.Proofs.Reports
import SmtDialogue.Proofs.Tables

/-!
# Occurrences of variables in an answer

The items that an answer makes bindings of are its occurrences, in the order of the
text. A model keeps the last occurrence of every word, in ascending order, and each
is a value of its variable in the form that the variable's kind keeps its values in.
-/

namespace SmtDialogue

/-- A wrapped integer is within the bounds of its kind. -/
theorem Kind.bounds_of_wrap {signed : Bool} {width : UInt32} {i : Int}
    (sized : (bits signed width).lacksSign = false) (inRange : wrap signed width.toNat i = i) :
    ∃ low high, (bits signed width).bounds? = some (low, high) ∧ low ≤ i ∧ i ≤ high := by
  have positive : 0 < 1 <<< width.toNat := by
    rw [Nat.one_shiftLeft]
    exact Nat.two_pow_pos _
  cases signed with
  | false =>
    have modulus : (0 : Int) < (1 <<< width.toNat : Nat) := by exact_mod_cast positive
    have remainder : i % (1 <<< width.toNat : Nat) = i := by simpa [wrap] using inRange
    have low := Int.emod_nonneg i modulus.ne'
    have high := Int.emod_lt_of_pos i modulus
    rw [remainder] at low high
    exact ⟨_, _, rfl, low, by omega⟩
  | true =>
    have balanced : i.bmod (1 <<< width.toNat) = i := by simpa [wrap] using inRange
    have low := Int.le_bmod (x := i) positive
    have high := Int.bmod_lt (x := i) positive
    rw [balanced] at low high
    have nonzero : width ≠ 0 := by simpa [lacksSign] using sized
    have half : 1 <<< width.toNat = 2 * (1 <<< (width.toNat - 1)) := by
      rw [Nat.one_shiftLeft, Nat.one_shiftLeft]
      cases some : width.toNat with
      | zero => exact absurd (UInt32.toNat_inj.mp some) nonzero
      | succ n => rw [Nat.add_sub_cancel, Nat.pow_succ']
    exact ⟨_, _, if_neg nonzero, by omega, by omega⟩

namespace Value

/-- The payload has the form in which the kind keeps it: a fixed-width integer is within
the bounds, and a constructor carries its first position. -/
def Canonical (v : Value) : Prop :=
  match v.kind, v.payload with
  | .bits signed width, .integer i =>
    ∃ low high, (Kind.bits signed width).bounds? = some (low, high) ∧ low ≤ i ∧ i ≤ high
  | .sort name (some constructors), .element (some index) label =>
    (Kind.sort name (some constructors)).constructorIndex? label = some index ∧
      constructors[index]? = some label
  | .bool, .bool _ | .integer, .integer _ | .real, .real _ | .float, .float _
  | .double, .double _ | .string, .string _ | .char, .char _
  | .sort _ none, .element none _ => True
  | _, _ => False

/-- What is decoded as an element of an enumerated sort is at its first position. -/
theorem index_of_decode {name label : String} {constructors : List String} {a : Atom} {v : Value}
    {index : Nat} (decoded : decode (.sort name (some constructors)) (.atom a) = .ok v)
    (payload : v.payload = .element (some index) label) :
    (Kind.sort name (some constructors)).constructorIndex? label = some index := by
  obtain ⟨read, reads, normal⟩ := payload_of_decode decoded
  have same : v.payload = read := (Option.some.inj normal).symm
  cases a with
  | symbol s =>
    simp only [payloadOfAtom] at reads
    split at reads
    · next found =>
      cases reads
      rw [payload] at same
      cases same
      exact found
    · cases reads
  | _ => cases reads

theorem canonical_of_decode {kind : Kind} {e : SExpr} {v : Value}
    (decoded : decode kind e = .ok v) : v.kind = kind ∧ v.Canonical := by
  obtain ⟨a, rfl⟩ := exists_atom_of_decode decoded
  obtain rfl := kind_of_decode decoded
  refine ⟨rfl, ?_⟩
  obtain ⟨kind, payload, fits⟩ := v
  cases Payload.fits_iff.mp fits with
  | bits sized inRange => exact Kind.bounds_of_wrap sized inRange
  | constructor listed => exact ⟨index_of_decode decoded rfl, listed⟩
  | _ => trivial

end Value

namespace Report

variable {normalizer : Normalizer} {table : SymbolTable} {strictness : Strictness}

/-- The bindings that the items of a group make, in order. -/
def accepted (normalizer : Normalizer) (table : SymbolTable) (text : String) : List Binding :=
  match SExpr.parse text with
  | .error _ => []
  | .ok tree =>
    if ObjectiveValue.isObjectives (normalizer tree) then []
    else ((Binding.items? (normalizer tree)).getD []).filterMap (Binding.ofItem? table)

theorem ofGroup_lenient {text : String} {r : Report}
    (said : ofGroup normalizer table strictness text = .ok r) :
    ofGroup normalizer table .lenient text = .ok r := by
  cases strictness with
  | strict => exact ofGroup_lenient_of_strict said
  | lenient => exact said

/-- However a group is read, it reports the bindings that its items make. -/
theorem bindings_eq (distinct : table.Distinct) {text : String} {r : Report}
    (said : ofGroup normalizer table strictness text = .ok r) :
    r.bindings = accepted normalizer table text := by
  have yields := yields_ofGroup normalizer table .lenient text
  rw [ofGroup_lenient said] at yields
  rw [accepted]
  cases yields with
  | dropped unread => rw [unread]
  | objectives listed extracted =>
    obtain ⟨read, -, objectives⟩ := listed
    obtain ⟨os, -, rfl⟩ := Except.map_eq_ok.mp extracted
    simp only [read, objectives, if_true]
  | bindings read _ model extracted =>
    obtain ⟨bs, lenient, rfl⟩ := Except.map_eq_ok.mp extracted
    rw [Binding.extract_lenient distinct] at lenient
    split at lenient <;> cases lenient
    simp [read, model]

theorem of_mem_accepted {text : String} {b : Binding}
    (member : b ∈ accepted normalizer table text) :
    ∃ v ∈ table.entries, b.id = v.id ∧ b.name = v.name ∧ b.value.kind = v.kind ∧
      b.value.Canonical := by
  rw [accepted] at member
  split at member
  · cases member
  · split at member
    · cases member
    · obtain ⟨item, _, made⟩ := List.mem_filterMap.mp member
      obtain ⟨v, entry, id, name, value, decoded⟩ := Binding.ofItem?_eq_some made
      obtain ⟨kind, canonical⟩ := Value.canonical_of_decode decoded
      exact ⟨v, entry, id, name, kind, canonical⟩

end Report

/-- The bindings that the items of an answer make, in the order of its lines. -/
def occurrences (normalizer : Normalizer) (table : SymbolTable) (lines : List String) :
    List Binding :=
  (Group.ofLines lines).flatMap (Report.accepted normalizer table)

namespace Model

variable {normalizer : Normalizer} {table : SymbolTable} {strictness : Strictness}
  {lines : List String} {m : Model}

theorem bindings_ofReports (distinct : table.Distinct) {groups : List String} {rs : List Report}
    (said : List.Forall₂
      (fun text r => Report.ofGroup normalizer table strictness text = .ok r) groups rs) :
    (ofReports rs).bindings =
      Keyed.ofList Binding.id (groups.flatMap (Report.accepted normalizer table)) := by
  have same : rs.flatMap Report.bindings =
      groups.flatMap (Report.accepted normalizer table) := by
    induction said with
    | nil => rfl
    | cons first _ ih =>
      rw [List.flatMap_cons, List.flatMap_cons, Report.bindings_eq distinct first, ih]
  rw [ofReports, same]

/-- A model holds the occurrences of its lines, kept by word. -/
theorem bindings_ofLines (distinct : table.Distinct)
    (read : ofLines normalizer table strictness lines = .ok m) :
    m.bindings = Keyed.ofList Binding.id (occurrences normalizer table lines) := by
  rw [ofLines_eq] at read
  obtain ⟨rs, said, rfl⟩ := Except.map_eq_ok.mp read
  exact bindings_ofReports distinct (Except.mapM_eq_ok.mp said)

theorem typed_ofLines (distinct : table.Distinct)
    (read : ofLines normalizer table strictness lines = .ok m) :
    ∀ b ∈ m.bindings, ∃ v ∈ table.entries, b.id = v.id ∧ b.name = v.name ∧
      b.value.kind = v.kind ∧ b.value.Canonical := by
  intro b member
  rw [bindings_ofLines distinct read] at member
  obtain ⟨text, _, accepted⟩ := List.mem_flatMap.mp (Keyed.mem_of_mem_ofList member)
  exact Report.of_mem_accepted accepted

theorem get?_ofLines (distinct : table.Distinct)
    (read : ofLines normalizer table strictness lines = .ok m) (id : WordId) :
    m.get? id = ((occurrences normalizer table lines).filter
      fun b => b.id = id).getLast?.map Binding.value := by
  rw [get?, bindings_ofLines distinct read, Keyed.get?_ofList]

end Model

end SmtDialogue
