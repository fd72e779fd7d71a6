import SmtDialogue.Proofs.Words

/-!
# Polynomials read back

A polynomial is written as the sum of its terms that are not zero, highest first.
Read again it has the coefficients it had, without the zeros at the end.
-/

namespace SmtDialogue

namespace Coefficients

/-- The coefficients without the zeros at the end. -/
def trim (p : Coefficients) : Coefficients :=
  (p.reverse.dropWhile (· = 0)).reverse

/-- The coefficients without the zeros at the end, and a single zero when nothing is left. -/
def reduced (p : Coefficients) : Coefficients :=
  if trim p = [] then [0] else trim p

theorem trim_append_zero (p : Coefficients) : trim (p ++ [0]) = trim p := by
  simp [trim]

theorem trim_append_of_ne {a : Int} (h : a ≠ 0) (p : Coefficients) :
    trim (p ++ [a]) = p ++ [a] := by
  simp [trim, h]

/-- Only zeros are dropped. -/
theorem exists_eq_trim_append (p : Coefficients) :
    ∃ k, p = trim p ++ List.replicate k 0 := by
  induction p using List.reverseRecOn with
  | nil => exact ⟨0, rfl⟩
  | append_singleton p a ih =>
    by_cases h : a = 0
    · subst h
      obtain ⟨k, hk⟩ := ih
      refine ⟨k + 1, ?_⟩
      rw [trim_append_zero, List.replicate_succ', ← List.append_assoc, ← hk]
    · exact ⟨0, by simp [trim_append_of_ne h]⟩

theorem length_trim_le (p : Coefficients) : (trim p).length ≤ p.length := by
  obtain ⟨k, hk⟩ := exists_eq_trim_append p
  have lengths := congrArg List.length hk
  simp only [List.length_append, List.length_replicate] at lengths
  omega

theorem length_reduced_le {p : Coefficients} (h : (trim p).length ≤ capacity) :
    p.reduced.length ≤ capacity := by
  rw [reduced]
  split
  · decide
  · exact h

/-- Coefficients as they are read back. -/
def Stored.reduced (p : Stored) : Stored :=
  ⟨p.val.reduced, length_reduced_le (Nat.le_trans (length_trim_le p.val) p.property)⟩

theorem terms_append_zero (p : Coefficients) : terms (p ++ [0]) = terms p := by
  simp [terms, List.zipIdx_append]

theorem terms_append_of_ne {a : Int} (h : a ≠ 0) (p : Coefficients) :
    terms (p ++ [a]) = (p.length, a) :: terms p := by
  simp [terms, List.zipIdx_append, h]

theorem terms_eq_nil_iff (p : Coefficients) : terms p = [] ↔ trim p = [] := by
  induction p using List.reverseRecOn with
  | nil => simp [terms, trim]
  | append_singleton p a ih =>
    by_cases h : a = 0
    · subst h
      rw [terms_append_zero, trim_append_zero, ih]
    · simp [terms_append_of_ne h, trim_append_of_ne h]

/-- Every term stands below the length of what is kept. -/
theorem degree_lt_of_mem_terms {p : Coefficients} {degree : Nat} {c : Int}
    (h : (degree, c) ∈ terms p) : degree < (trim p).length := by
  induction p using List.reverseRecOn with
  | nil => simp [terms] at h
  | append_singleton p a ih =>
    by_cases zero : a = 0
    · subst zero
      rw [terms_append_zero] at h
      rw [trim_append_zero]
      exact ih h
    · rw [terms_append_of_ne zero] at h
      rw [trim_append_of_ne zero, List.length_append, List.length_singleton]
      rcases List.mem_cons.mp h with h | h
      · have here : degree = p.length := congrArg Prod.fst h
        omega
      · have below := ih h
        have shorter := length_trim_le p
        omega

/-- A term as a polynomial. -/
def monomial (degree : Nat) (c : Int) : Coefficients :=
  List.replicate degree 0 ++ [c]

theorem add_nil (p : Coefficients) : add p [] = p := by
  cases p <;> rfl

/-- Adding a term above a polynomial and then the polynomial puts the term behind it. -/
theorem add_monomial_add (q : Coefficients) (k : Nat) (a : Int) (acc : Coefficients) :
    add (add acc (monomial (q.length + k) a)) q =
      add acc (q ++ List.replicate k 0 ++ [a]) := by
  induction q generalizing acc with
  | nil => simp [add_nil, monomial]
  | cons b q ih =>
    have longer : monomial ((b :: q).length + k) a = 0 :: monomial (q.length + k) a := by
      rw [List.length_cons, show q.length + 1 + k = q.length + k + 1 by omega]
      rfl
    rw [longer]
    cases acc with
    | nil =>
      have rest := ih []
      simp only [add] at rest
      simp [add, rest]
    | cons x acc =>
      have rest := ih acc
      simp only [List.append_assoc] at rest
      simp [add, rest]

theorem foldl_add_terms (p acc : Coefficients) :
    (p.terms.map fun t => monomial t.1 t.2).foldl add acc = add acc (trim p) := by
  induction p using List.reverseRecOn generalizing acc with
  | nil => simp [terms, trim, add_nil]
  | append_singleton p a ih =>
    by_cases h : a = 0
    · subst h
      rw [terms_append_zero, trim_append_zero, ih]
    · obtain ⟨k, hk⟩ := exists_eq_trim_append p
      have top : p.length = (trim p).length + k := by
        simpa using congrArg List.length hk
      rw [terms_append_of_ne h, trim_append_of_ne h, List.map_cons, List.foldl_cons, ih, top,
        add_monomial_add, ← hk]

end Coefficients

namespace Spelling

open Coefficients (monomial trim reduced)

/-- A power of the variable. -/
def powerTerm (k : Nat) : Spelling := .list [bare "^", bare "x", natural k]

/-- A multiple of a term, which one does not show. -/
def scaled (c : Int) (s : Spelling) : Spelling :=
  if c = 1 then s else .list [bare "*", integer c, s]

/-- One term of a polynomial. -/
def termOf (degree : Nat) (c : Int) : Spelling :=
  match degree with
  | 0 => integer c
  | 1 => scaled c (bare "x")
  | k => scaled c (powerTerm k)

/-- The sum of several terms. -/
def sumOf : List Spelling → Spelling
  | [] => natural 0
  | [only] => only
  | several => .list (bare "+" :: several)

def polynomial (p : Coefficients) : Spelling :=
  sumOf (p.terms.map fun t => termOf t.1 t.2)

/-- A numbered root of a polynomial. -/
def root (p : Coefficients.Stored) (index : UInt32) : Spelling :=
  .list [bare "root-obj", polynomial p.val, natural index.toNat]

theorem proper_scaled (c : Int) {s : Spelling} (proper : s.Proper) : (scaled c s).Proper := by
  rw [scaled]
  split
  · exact proper
  · exact ⟨rfl, proper_bare (by decide), proper_integer c, proper, trivial⟩

theorem proper_termOf (degree : Nat) (c : Int) : (termOf degree c).Proper := by
  simp only [termOf]
  split
  · exact proper_integer c
  · exact proper_scaled c (proper_bare (by decide))
  · exact proper_scaled c
      ⟨rfl, proper_bare (by decide), proper_bare (by decide), proper_natural _, trivial⟩

theorem proper_polynomial (p : Coefficients) : (polynomial p).Proper := by
  have each : ProperList (p.terms.map fun t => termOf t.1 t.2) := by
    rw [properList_iff]
    intro s hs
    obtain ⟨t, _, rfl⟩ := List.mem_map.mp hs
    exact proper_termOf t.1 t.2
  simp only [polynomial, sumOf]
  split
  · exact proper_natural 0
  · next only heq =>
    rw [heq] at each
    exact each.1
  · exact ⟨rfl, proper_bare (by decide), each⟩

theorem chars_termOf (degree : Nat) (c : Int) :
    (termOf degree c).chars = (Coefficients.termText degree c).toList := by
  match degree with
  | 0 => simp [termOf, Coefficients.termText, chars_integer]
  | 1 =>
    by_cases one : c = 1 <;>
      simp [termOf, scaled, one, bare, Coefficients.termText, chars, charsList, chars_integer]
  | k + 2 =>
    by_cases one : c = 1 <;>
      simp [termOf, scaled, one, powerTerm, bare, natural, Coefficients.termText, chars, charsList,
        chars_integer]

theorem chars_sumOf {items : List Spelling} {texts : List String}
    (same : items.map chars = texts.map String.toList) :
    (sumOf items).chars = (match texts with
      | [] => "0"
      | [only] => only
      | several => "(+ " ++ String.intercalate " " several ++ ")").toList := by
  match items, texts, same with
  | [], [], _ => rfl
  | [s], [t], same => simpa [sumOf] using same
  | s :: s' :: rest, t :: t' :: others, same =>
    have spaced := charsList_eq_intercalate (s :: s' :: rest)
    rw [same] at spaced
    simp only [sumOf, bare, chars, charsList] at spaced ⊢
    simp [spaced, String.toList_intercalate]
  | [], _ :: _, same | _ :: _, [], same => simp at same
  | [_], _ :: _ :: _, same | _ :: _ :: _, [_], same => simp at same

theorem chars_polynomial (p : Coefficients) : (polynomial p).chars = p.term.toList := by
  have each : (p.terms.map fun t => termOf t.1 t.2).map chars =
      (p.terms.map fun t => Coefficients.termText t.1 t.2).map String.toList := by
    simp [chars_termOf]
  exact chars_sumOf each

theorem chars_root (p : Coefficients.Stored) (index : UInt32) :
    (root p index).chars = (AlgReal.root p index).term.toList := by
  simp [root, bare, natural, chars, charsList, chars_polynomial, AlgReal.term]

theorem tree_powerTerm (k : Nat) : (powerTerm k).tree =
    .app [.atom (.symbol "^"), .atom (.symbol "x"), .atom (.int k none)] := by
  simp [powerTerm, bare, natural, tree, treeList, SExpr.fold, SExpr.literal?]

theorem polynomial?_powerTerm {k : Nat} (h : k < Coefficients.capacity) :
    SExpr.polynomial? (powerTerm k).tree = some (monomial k 1) := by
  have natural : SExpr.natBelow? Coefficients.capacity (.atom (.int k none)) = some k :=
    SExpr.natBelow?_eq_some.mpr ⟨h, none, rfl⟩
  simp [tree_powerTerm, SExpr.polynomial?, SExpr.power?, natural, Coefficients.power, monomial]

/-- A multiple of a power of the variable has that multiple as its only coefficient. -/
theorem polynomial?_scaled (c : Int) {s : Spelling} {k : Nat}
    (reads : SExpr.polynomial? s.tree = some (monomial k 1)) :
    SExpr.polynomial? (scaled c s).tree = some (monomial k c) := by
  by_cases one : c = 1
  · simpa [scaled, one] using reads
  · have product : SExpr.combine? "*" [[c], monomial k 1] = some (monomial k c) := by
      simp [SExpr.combine?, Coefficients.mul, Coefficients.scale, monomial]
    have factor : SExpr.polynomial? (integer c).tree = some [c] := by
      rw [tree_integer, SExpr.polynomial?]
    simp [scaled, one, bare, tree, treeList, SExpr.fold, SExpr.literal?, SExpr.polynomial?,
      SExpr.polynomials?, factor, reads, product]

theorem polynomial?_termOf {degree : Nat} (h : degree < Coefficients.capacity) (c : Int) :
    SExpr.polynomial? (termOf degree c).tree = some (monomial degree c) := by
  match degree, h with
  | 0, _ => simp [termOf, tree_integer, SExpr.polynomial?, monomial]
  | 1, _ => exact polynomial?_scaled c (k := 1) rfl
  | k + 2, h => exact polynomial?_scaled c (polynomial?_powerTerm h)

theorem polynomials?_map {items : List Spelling} {ps : List Coefficients}
    (each : items.map (fun s => SExpr.polynomial? s.tree) = ps.map some) :
    SExpr.polynomials? (treeList items) = some ps := by
  induction items generalizing ps with
  | nil =>
    obtain rfl : ps = [] := by simpa using each
    rfl
  | cons s rest ih =>
    cases ps with
    | nil => simp at each
    | cons p ps =>
      simp only [List.map_cons, List.cons.injEq] at each
      simp [treeList, SExpr.polynomials?, each.1, ih each.2]

/-- A sum of terms has the sum of their polynomials as its own. -/
theorem polynomial?_sumOf {items : List Spelling} {ps : List Coefficients}
    (each : items.map (fun s => SExpr.polynomial? s.tree) = ps.map some) (nonempty : ps ≠ []) :
    SExpr.polynomial? (sumOf items).tree = some (ps.foldl Coefficients.add []) := by
  match items, ps, each, nonempty with
  | [], _ :: _, each, _ | [_], _ :: _ :: _, each, _ | _ :: _ :: _, [_], each, _ => simp at each
  | [s], [p], each, _ =>
    have one : SExpr.polynomial? s.tree = some p := by simpa using each
    simpa [sumOf, Coefficients.add] using one
  | s :: s' :: rest, p :: p' :: others, each, _ =>
    have parts := polynomials?_map each
    simp [sumOf, bare, tree, treeList] at parts ⊢
    simp [SExpr.fold, SExpr.literal?, SExpr.polynomial?, parts, SExpr.combine?]

/-- A polynomial reads back as its reduced coefficients, if these fit into a list. -/
theorem polynomial?_polynomial {p : Coefficients} (h : (trim p).length ≤ Coefficients.capacity) :
    SExpr.polynomial? (polynomial p).tree = some (reduced p) := by
  by_cases nothing : p.terms = []
  · have trimmed := (Coefficients.terms_eq_nil_iff p).mp nothing
    simp [polynomial, sumOf, nothing, reduced, trimmed, natural, tree, SExpr.polynomial?]
  · have trimmed : trim p ≠ [] := fun empty => nothing ((Coefficients.terms_eq_nil_iff p).mpr empty)
    have each : (p.terms.map fun t => termOf t.1 t.2).map (fun s => SExpr.polynomial? s.tree) =
        (p.terms.map fun t => monomial t.1 t.2).map some := by
      simp only [List.map_map]
      refine List.map_congr_left ?_
      rintro ⟨degree, c⟩ ht
      have below := Coefficients.degree_lt_of_mem_terms ht
      exact polynomial?_termOf (by omega) c
    rw [polynomial, polynomial?_sumOf each (by simpa using nothing),
      Coefficients.foldl_add_terms, reduced, if_neg trimmed]
    rfl

theorem tree_root (p : Coefficients.Stored) (index : UInt32) :
    (root p index).tree = .atom (.real (.root p.reduced index)) := by
  have kept := Nat.le_trans (Coefficients.length_trim_le p.val) p.property
  have number : SExpr.natBelow? UInt32.size (.atom (.int index.toNat none)) = some index.toNat :=
    SExpr.natBelow?_eq_some.mpr ⟨index.toNat_lt_size, none, rfl⟩
  simp [root, bare, natural, tree, treeList, SExpr.fold, SExpr.literal?, SExpr.root?,
    polynomial?_polynomial kept, Coefficients.length_reduced_le kept, number,
    Coefficients.Stored.reduced]

theorem polynomialOverflows_powerTerm {k : Nat} (h : k < Coefficients.capacity) :
    SExpr.polynomialOverflows (powerTerm k).tree = false := by
  have natural : SExpr.natBelow? UInt64.size (.atom (.int k none)) = some k :=
    SExpr.natBelow?_eq_some.mpr ⟨Nat.lt_trans h (by decide), none, rfl⟩
  have small : ¬Coefficients.capacity ≤ k := by omega
  simp [tree_powerTerm, SExpr.polynomialOverflows, SExpr.powerOverflows, natural, small]

theorem polynomialOverflows_scaled (c : Int) {s : Spelling} {k : Nat}
    (reads : SExpr.polynomial? s.tree = some (monomial k 1)) (h : k < Coefficients.capacity)
    (fits : SExpr.polynomialOverflows s.tree = false) :
    SExpr.polynomialOverflows (scaled c s).tree = false := by
  by_cases one : c = 1
  · simpa [scaled, one] using fits
  · have factor : SExpr.polynomial? (integer c).tree = some [c] := by
      rw [tree_integer, SExpr.polynomial?]
    have small : ¬Coefficients.capacity < k + 1 := by omega
    have single : ¬Coefficients.capacity < 1 := by decide
    have literal : SExpr.polynomialOverflows (integer c).tree = false := by
      rw [tree_integer]
      rfl
    simp [scaled, one, bare, tree, treeList, SExpr.fold, SExpr.literal?,
      SExpr.polynomialOverflows, SExpr.factorsOverflow, factor, literal, reads, fits,
      Coefficients.mul, Coefficients.scale, monomial, small, single]

theorem polynomialOverflows_termOf {degree : Nat} (h : degree < Coefficients.capacity) (c : Int) :
    SExpr.polynomialOverflows (termOf degree c).tree = false := by
  match degree, h with
  | 0, _ =>
    simp only [termOf, tree_integer]
    rfl
  | 1, h => exact polynomialOverflows_scaled c (k := 1) rfl h rfl
  | k + 2, h =>
    exact polynomialOverflows_scaled c (polynomial?_powerTerm h) h (polynomialOverflows_powerTerm h)

theorem termsOverflow_treeList {items : List Spelling}
    (each : ∀ s ∈ items, SExpr.polynomialOverflows s.tree = false) :
    SExpr.termsOverflow (treeList items) = false := by
  induction items with
  | nil => rfl
  | cons s rest ih =>
    obtain ⟨first, others⟩ := List.forall_mem_cons.mp each
    simp [treeList, SExpr.termsOverflow, first, ih others]

/-- No list of coefficients is too long to be read back. -/
theorem polynomialOverflows_polynomial {p : Coefficients}
    (h : (trim p).length ≤ Coefficients.capacity) :
    SExpr.polynomialOverflows (polynomial p).tree = false := by
  have each : ∀ s ∈ p.terms.map fun t => termOf t.1 t.2,
      SExpr.polynomialOverflows s.tree = false := by
    intro s member
    obtain ⟨⟨degree, c⟩, term, rfl⟩ := List.mem_map.mp member
    have below := Coefficients.degree_lt_of_mem_terms term
    exact polynomialOverflows_termOf (by omega) c
  simp only [polynomial, sumOf]
  split
  · rfl
  · next only alone => exact each only (by simp [alone])
  · have terms := termsOverflow_treeList each
    simp [bare, tree, treeList, SExpr.fold, SExpr.literal?, SExpr.polynomialOverflows, terms]

theorem proper_root (p : Coefficients.Stored) (index : UInt32) : (root p index).Proper := by
  have kept := Nat.le_trans (Coefficients.length_trim_le p.val) p.property
  have fits : SExpr.foldOverflows
      (treeList [bare "root-obj", polynomial p.val, natural index.toNat]) = false := by
    simp [treeList, bare, tree, SExpr.foldOverflows, SExpr.rootOverflows,
      polynomialOverflows_polynomial kept]
  exact ⟨fits, proper_bare (by decide), proper_polynomial p.val, proper_natural _, trivial⟩

end Spelling

end SmtDialogue
