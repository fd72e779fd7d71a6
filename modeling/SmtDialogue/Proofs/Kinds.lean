import Mathlib
import SmtDialogue.Kind

/-!
# Sets of kinds

The order of kinds tells any two of them apart, so a list of kinds that is sorted has
the same kinds as before.
-/

namespace SmtDialogue.Kind

theorem compareLabels_eq_iff {as bs : List String} : compareLabels as bs = .eq ↔ as = bs := by
  induction as generalizing bs with
  | nil => cases bs <;> simp [compareLabels]
  | cons a as ih =>
    cases bs with
    | nil => simp [compareLabels]
    | cons b bs => simp [compareLabels, Ordering.then_eq_eq, ih]

theorem compare_eq_iff {a b : Kind} : compare a b = .eq ↔ a = b := by
  cases a <;> cases b
  case bits.bits => simp [compare, Ordering.then_eq_eq, UInt32.toNat_inj]
  case sort.sort _ as _ bs =>
    cases as <;> cases bs <;> simp [compare, Ordering.then_eq_eq, compareLabels_eq_iff]
  all_goals simp [compare, rank]

theorem mem_insert {kind other : Kind} {kinds : List Kind} :
    other ∈ insert kind kinds ↔ other = kind ∨ other ∈ kinds := by
  induction kinds with
  | nil => simp [insert]
  | cons first rest ih =>
    rw [insert]
    split
    · simp
    · next same =>
      rw [compare_eq_iff.mp same]
      simp
    · simp [ih, or_left_comm]

theorem mem_foldl_insert {kind : Kind} {kinds acc : List Kind} :
    kind ∈ kinds.foldl (fun acc kind => insert kind acc) acc ↔ kind ∈ acc ∨ kind ∈ kinds := by
  induction kinds generalizing acc with
  | nil => simp
  | cons first rest ih =>
    rw [List.foldl_cons, ih, mem_insert, List.mem_cons, or_assoc, or_left_comm]

theorem mem_sorted {kind : Kind} {kinds : List Kind} : kind ∈ sorted kinds ↔ kind ∈ kinds := by
  simp [sorted, mem_foldl_insert]

end SmtDialogue.Kind
