import SmtDialogue.Proofs.Results
import SmtDialogue.Proofs.Words

/-!
# Polynomials of roots

The polynomial in front of a root is a term of arithmetic in one variable. It is read as a
list of coefficients, by adding, scaling and multiplying such lists. At every rational the
coefficients give the value of the term, whatever sums, products, differences and powers
it is nested from. The terms that are read are exactly those put together from integers,
variables and powers of a variable; only a product and a difference need an operand. Unless
reading them overflows, the coefficients fit into one list.
-/

namespace SmtDialogue

namespace Coefficients

variable {R : Type} [CommRing R] (v : R)

@[simp] theorem eval_nil : eval v [] = 0 := rfl

@[simp] theorem eval_cons (a : Int) (p : Coefficients) :
    eval v (a :: p) = a + v * eval v p := rfl

/-- The shorter list stands for the same number as when zeros are put behind it. -/
theorem eval_add (p q : Coefficients) : eval v (add p q) = eval v p + eval v q := by
  induction p generalizing q with
  | nil => simp [add]
  | cons a p ih =>
    cases q with
    | nil => simp [add]
    | cons b q =>
      rw [add, eval_cons, ih, eval_cons, eval_cons, Int.cast_add]
      ring

theorem eval_scale (k : Int) (p : Coefficients) : eval v (scale k p) = k * eval v p := by
  induction p with
  | nil => simp [scale]
  | cons a p ih =>
    change ((a * k : Int) : R) + v * eval v (scale k p) = k * (a + v * eval v p)
    rw [ih, Int.cast_mul]
    ring

theorem eval_mul (p q : Coefficients) : eval v (mul p q) = eval v p * eval v q := by
  induction p with
  | nil => simp [mul]
  | cons a p ih =>
    cases p with
    | nil => simp [mul, eval_scale]
    | cons b p =>
      by_cases empty : q = []
      · subst empty
        simp [mul]
      · have step : mul (a :: b :: p) q = add (scale a q) (0 :: mul (b :: p) q) := by
          simp [mul, empty]
        rw [step, eval_add, eval_scale, eval_cons, ih, eval_cons v a, Int.cast_zero]
        ring

theorem eval_power (k : Nat) : eval v (power k) = v ^ k := by
  induction k with
  | zero => simp [power]
  | succ k ih =>
    change ((0 : Int) : R) + v * eval v (power k) = v ^ (k + 1)
    rw [ih, Int.cast_zero, pow_succ']
    ring

/-- Coefficient by coefficient: each stands before the power of its place. -/
theorem eval_eq_sum (p : Coefficients) :
    eval v p = ∑ i : Fin p.length, (p[i] : R) * v ^ (i : Nat) := by
  induction p with
  | nil => rfl
  | cons a p ih =>
    rw [eval_cons, ih, Finset.mul_sum]
    refine (Eq.trans ?_ (Fin.sum_univ_succ _).symm)
    have first : (a : R) = (a : R) * v ^ 0 := by ring
    have others : ∀ i : Fin p.length, v * ((p[i] : R) * v ^ (i : Nat)) =
        (p[i] : R) * v ^ ((i : Nat) + 1) := by
      intro i
      ring
    simp only [others]
    rw [first]
    rfl

theorem eval_foldl_add (ps : List Coefficients) (acc : Coefficients) :
    eval v (ps.foldl add acc) = eval v acc + (ps.map (eval v)).sum := by
  induction ps generalizing acc with
  | nil => simp
  | cons p ps ih =>
    rw [List.foldl_cons, ih, eval_add, List.map_cons, List.sum_cons]
    ring

theorem eval_foldl_mul (ps : List Coefficients) (acc : Coefficients) :
    eval v (ps.foldl mul acc) = eval v acc * (ps.map (eval v)).prod := by
  induction ps generalizing acc with
  | nil => simp
  | cons p ps ih =>
    rw [List.foldl_cons, ih, eval_mul, List.map_cons, List.prod_cons]
    ring

/-- Adding what is scaled by minus one subtracts, from left to right. -/
theorem eval_foldl_sub (ps : List Coefficients) (acc : Coefficients) :
    eval v (ps.foldl (fun acc p => acc.add (p.scale (-1))) acc) =
      (ps.map (eval v)).foldl (· - ·) (eval v acc) := by
  induction ps generalizing acc with
  | nil => rfl
  | cons p ps ih =>
    have step : eval v (acc.add (p.scale (-1))) = eval v acc - eval v p := by
      rw [eval_add, eval_scale, Int.cast_neg, Int.cast_one]
      ring
    rw [List.foldl_cons, ih, step]
    rfl

@[simp] theorem length_add (p q : Coefficients) :
    (add p q).length = max p.length q.length := by
  induction p generalizing q with
  | nil => simp [add]
  | cons a p ih =>
    cases q with
    | nil => simp [add]
    | cons b q => simp only [add, List.length_cons, ih, Nat.succ_max_succ]

@[simp] theorem length_scale (k : Int) (p : Coefficients) : (scale k p).length = p.length :=
  List.length_map _

/-- What is joined by steps no longer than their parts is no longer than all parts. -/
theorem length_foldl_le {step : Coefficients → Coefficients → Coefficients}
    (longer : ∀ p q, (step p q).length = max p.length q.length) {n : Nat}
    {ps : List Coefficients} {acc : Coefficients} (first : acc.length ≤ n)
    (each : ∀ p ∈ ps, p.length ≤ n) : (ps.foldl step acc).length ≤ n := by
  induction ps generalizing acc with
  | nil => exact first
  | cons p ps ih =>
    obtain ⟨second, others⟩ := List.forall_mem_cons.mp each
    exact ih (by rw [longer]; exact max_le first second) others

end Coefficients

namespace SExpr

/-- What an operator of arithmetic makes of numbers. -/
def operation? (operator : String) (operands : List ℚ) : Option ℚ :=
  match operator, operands with
  | "+", terms => some terms.sum
  | "*", factors => some factors.prod
  | "-", [only] => some (-only)
  | "-", first :: rest => some (rest.foldl (· - ·) first)
  | "^", [base, exponent] =>
    if exponent.den = 1 ∧ 0 ≤ exponent.num then some (base ^ exponent.num.toNat) else none
  | _, _ => none

mutual

/-- The number that a term of arithmetic comes to when every variable is `v`. -/
def valueAt? (v : ℚ) : SExpr → Option ℚ
  | .atom (.int value _) => some value
  | .atom (.real (.exact q)) => some q
  | .atom (.symbol _) => some v
  | .app (.atom (.symbol operator) :: args) => (valuesAt? v args).bind (operation? operator)
  | _ => none

def valuesAt? (v : ℚ) : List SExpr → Option (List ℚ)
  | [] => some []
  | e :: rest => Option.map₂ List.cons (valueAt? v e) (valuesAt? v rest)

end

/-- The terms that are polynomials. The exponent is a number on its own, of any width, and the
coefficients of the power fit into one list. -/
inductive IsPolynomial : SExpr → Prop
  | integer (i : Int) : IsPolynomial (.atom (.int i none))
  | unknown (name : String) : IsPolynomial (.atom (.symbol name))
  | power (name : String) {k : Nat} (small : k < Coefficients.capacity) (width : Option UInt32) :
    IsPolynomial (.app [.atom (.symbol "^"), .atom (.symbol name), .atom (.int k width)])
  | sum {terms : List SExpr} (each : ∀ e ∈ terms, IsPolynomial e) :
    IsPolynomial (.app (.atom (.symbol "+") :: terms))
  | product {factors : List SExpr} (nonempty : factors ≠ [])
    (each : ∀ e ∈ factors, IsPolynomial e) : IsPolynomial (.app (.atom (.symbol "*") :: factors))
  | difference {operands : List SExpr} (nonempty : operands ≠ [])
    (each : ∀ e ∈ operands, IsPolynomial e) : IsPolynomial (.app (.atom (.symbol "-") :: operands))

theorem power?_eq_some {args : List SExpr} {p : Coefficients} :
    power? args = some p ↔ ∃ name k width, k < Coefficients.capacity ∧
      args = [.atom (.symbol name), .atom (.int (k : Nat) width)] ∧ p = .power k := by
  constructor
  · intro found
    unfold power? at found
    split at found
    · next name exponent =>
      obtain ⟨k, natural, rfl⟩ := Option.map_eq_some_iff.mp found
      obtain ⟨small, width, rfl⟩ := natBelow?_eq_some.mp natural
      exact ⟨name, k, width, small, rfl, rfl⟩
    · cases found
  · rintro ⟨name, k, width, small, rfl, rfl⟩
    have natural : natBelow? Coefficients.capacity (.atom (.int k width)) = some k :=
      natBelow?_eq_some.mpr ⟨small, width, rfl⟩
    rw [power?, natural, Option.map_some]

/-- An operator makes of coefficients what it makes of the numbers they give. -/
theorem operation?_of_combine? {operator : String} {ps : List Coefficients} {p : Coefficients}
    (combined : combine? operator ps = some p) (v : ℚ) :
    operation? operator (ps.map (Coefficients.eval v)) = some (p.eval v) := by
  unfold combine? at combined
  split_ifs at combined with product empty sum minus
  · subst product
    cases combined
    rw [operation?, Coefficients.eval_foldl_mul]
    simp
  · subst sum
    cases combined
    rw [operation?, Coefficients.eval_foldl_add]
    simp
  · subst minus
    match ps, combined with
    | [only], combined =>
      cases combined
      simp [operation?, Coefficients.eval_scale]
    | first :: second :: rest, combined =>
      cases combined
      rw [Coefficients.eval_foldl_sub]
      rfl

theorem isSome_combine? {operator : String} {ps : List Coefficients} :
    (combine? operator ps).isSome = true ↔
      operator = "+" ∨ operator = "*" ∧ ps ≠ [] ∨ operator = "-" ∧ ps ≠ [] := by
  unfold combine?
  split_ifs with product empty sum minus
  · subst product
    simpa using empty
  · subst product
    simpa using empty
  · simp [sum]
  · subst minus
    cases ps with
    | nil => simp
    | cons first rest => cases rest <;> simp
  · simp [product, sum, minus]

theorem polynomials?_eq_some {es : List SExpr} {ps : List Coefficients} :
    polynomials? es = some ps ↔ List.Forall₂ (fun e p => polynomial? e = some p) es ps := by
  induction es generalizing ps with
  | nil => simp [polynomials?, eq_comm]
  | cons e rest ih =>
    rw [polynomials?, List.forall₂_cons_left_iff]
    constructor
    · intro reads
      split at reads
      · next p others first later =>
        cases reads
        exact ⟨p, others, first, ih.mp later, rfl⟩
      · cases reads
    · rintro ⟨p, others, first, later, rfl⟩
      rw [first, ih.mpr later]

/-- A relation between trees and coefficients that reading a polynomial keeps. -/
structure KeptByReading (P : SExpr → Coefficients → Prop) : Prop where
  integer : ∀ i, P (.atom (.int i none)) [i]
  unknown : ∀ name, P (.atom (.symbol name)) [0, 1]
  power : ∀ name (k : Nat) width, k < Coefficients.capacity →
    P (.app [.atom (.symbol "^"), .atom (.symbol name), .atom (.int k width)]) (.power k)
  operator : ∀ {op args ps p}, List.Forall₂ P args ps → combine? op ps = some p →
    P (.app (.atom (.symbol op) :: args)) p

namespace KeptByReading

variable {P : SExpr → Coefficients → Prop}

mutual

/-- It holds of every tree that is read as a polynomial and of its coefficients. -/
theorem polynomial? (kept : KeptByReading P) :
    ∀ {e : SExpr} {p : Coefficients}, SExpr.polynomial? e = some p → P e p
  | .atom (.int i none), _, reads => by
    cases reads
    exact kept.integer i
  | .atom (.symbol name), _, reads => by
    cases reads
    exact kept.unknown name
  | .app (.atom (.symbol op) :: args), p, reads => by
    rw [SExpr.polynomial?] at reads
    split at reads
    · next caret =>
      subst caret
      obtain ⟨name, k, width, small, rfl, rfl⟩ := power?_eq_some.mp reads
      exact kept.power name k width small
    · obtain ⟨ps, parts, combined⟩ := Option.bind_eq_some_iff.mp reads
      exact kept.operator (kept.polynomials? parts) combined
  | .atom (.int _ (some _)), _, reads | .atom (.keyword _), _, reads | .atom (.real _), _, reads
  | .atom (.float _), _, reads | .atom (.double _), _, reads | .atom (.string _), _, reads
  | .app [], _, reads | .app (.app _ :: _), _, reads
  | .app (.atom (.keyword _) :: _), _, reads | .app (.atom (.int _ _) :: _), _, reads
  | .app (.atom (.real _) :: _), _, reads | .app (.atom (.float _) :: _), _, reads
  | .app (.atom (.double _) :: _), _, reads | .app (.atom (.string _) :: _), _, reads => by
    simp [SExpr.polynomial?] at reads

theorem polynomials? (kept : KeptByReading P) : ∀ {es : List SExpr} {ps : List Coefficients},
    SExpr.polynomials? es = some ps → List.Forall₂ P es ps
  | [], _, reads => by
    cases reads
    exact .nil
  | _ :: _, _, reads => by
    cases polynomials?_eq_some.mp reads with
    | cons first later =>
      exact .cons (kept.polynomial? first) (kept.polynomials? (polynomials?_eq_some.mpr later))

end

end KeptByReading

theorem valuesAt?_of_forall₂ {v : ℚ} {es : List SExpr} {ps : List Coefficients}
    (each : List.Forall₂ (fun e p => valueAt? v e = some (Coefficients.eval v p)) es ps) :
    valuesAt? v es = some (ps.map (Coefficients.eval v)) := by
  induction each with
  | nil => rfl
  | cons first _ ih =>
    rw [valuesAt?, first, ih]
    rfl

/-- Reading keeps what a term comes to. -/
theorem keptByReading_valueAt? (v : ℚ) :
    KeptByReading fun e p => valueAt? v e = some (Coefficients.eval v p) where
  integer i := by simp [valueAt?]
  unknown name := by simp [valueAt?]
  power name k width _ := by
    simp [valueAt?, valuesAt?, operation?, Coefficients.eval_power]
  operator {op args ps p} each combined := by
    rw [valueAt?, valuesAt?_of_forall₂ each]
    exact operation?_of_combine? combined v

theorem keptByReading_isPolynomial : KeptByReading fun e _ => IsPolynomial e where
  integer := .integer
  unknown := .unknown
  power name _ width small := .power name small width
  operator {op args ps p} parts combined := by
    have each : ∀ e ∈ args, IsPolynomial e := by
      intro e member
      obtain ⟨_, _, one⟩ := parts.flip.exists_of_mem_right member
      exact one
    have operands : args ≠ [] ↔ ps ≠ [] := by
      rw [← List.length_pos_iff, parts.length_eq, List.length_pos_iff]
    rcases isSome_combine?.mp (Option.isSome_of_eq_some combined) with
      rfl | ⟨rfl, some⟩ | ⟨rfl, some⟩
    · exact .sum each
    · exact .product (operands.mpr some) each
    · exact .difference (operands.mpr some) each

theorem exists_polynomials? {es : List SExpr} (each : ∀ e ∈ es, ∃ p, polynomial? e = some p) :
    ∃ ps, polynomials? es = some ps ∧ (es ≠ [] → ps ≠ []) := by
  induction es with
  | nil => exact ⟨[], rfl, fun some => absurd rfl some⟩
  | cons e rest ih =>
    obtain ⟨⟨p, first⟩, others⟩ := List.forall_mem_cons.mp each
    obtain ⟨ps, later, _⟩ := ih others
    exact ⟨p :: ps, by rw [polynomials?, first, later], fun _ => by simp⟩

/-- An operator that is no power is read when its operands are and it has as many as it
needs. -/
theorem exists_polynomial?_app {operator : String} {args : List SExpr}
    (known : operator = "+" ∨ operator = "*" ∧ args ≠ [] ∨ operator = "-" ∧ args ≠ [])
    (each : ∀ e ∈ args, ∃ p, polynomial? e = some p) :
    ∃ p, polynomial? (.app (.atom (.symbol operator) :: args)) = some p := by
  obtain ⟨ps, parts, nonempty⟩ := exists_polynomials? each
  have combined : (combine? operator ps).isSome = true := by
    rw [isSome_combine?]
    tauto
  obtain ⟨p, combined⟩ := Option.isSome_iff_exists.mp combined
  have other : operator ≠ "^" := by
    rcases known with rfl | ⟨rfl, _⟩ | ⟨rfl, _⟩ <;> decide
  exact ⟨p, by rw [polynomial?, if_neg other, parts, Option.bind_some, combined]⟩

theorem IsPolynomial.exists_polynomial? {e : SExpr} (polynomial : IsPolynomial e) :
    ∃ p, polynomial? e = some p := by
  induction polynomial with
  | integer i => exact ⟨[i], by simp [polynomial?]⟩
  | unknown name => exact ⟨[0, 1], by simp [polynomial?]⟩
  | @power name k small width =>
    have read := power?_eq_some.mpr ⟨name, k, width, small, rfl, rfl⟩
    exact ⟨.power k, by rw [polynomial?, if_pos rfl, read]⟩
  | sum _ ih => exact exists_polynomial?_app (.inl rfl) ih
  | product nonempty _ ih => exact exists_polynomial?_app (.inr (.inl ⟨rfl, nonempty⟩)) ih
  | difference nonempty _ ih => exact exists_polynomial?_app (.inr (.inr ⟨rfl, nonempty⟩)) ih

/-- The factors that were read one after the other make a product that fits. -/
theorem length_foldl_mul_le {es : List SExpr} {ps : List Coefficients} {acc : Coefficients}
    (parts : List.Forall₂ (fun e p => polynomial? e = some p) es ps)
    (fit : factorsOverflow acc es = false) (stored : acc.length ≤ Coefficients.capacity) :
    (ps.foldl Coefficients.mul acc).length ≤ Coefficients.capacity := by
  induction parts generalizing acc with
  | nil => exact stored
  | @cons e p es ps first _ ih =>
    simp only [factorsOverflow, first, Bool.or_eq_false_iff, decide_eq_false_iff_not,
      Nat.not_lt] at fit
    exact ih fit.2.2 fit.2.1

theorem termsOverflow_eq_false {es : List SExpr} {ps : List Coefficients}
    (parts : List.Forall₂ (fun e p => polynomial? e = some p) es ps)
    (fit : termsOverflow es = false) : ∀ e ∈ es, polynomialOverflows e = false := by
  induction parts with
  | nil => simp
  | @cons e p es ps first _ ih =>
    simp only [termsOverflow, first, Option.isSome_some, Bool.true_and,
      Bool.or_eq_false_iff] at fit
    exact List.forall_mem_cons.mpr ⟨fit.1, ih fit.2⟩

/-- Coefficients whose reading does not overflow fit into one list. -/
theorem keptByReading_stored : KeptByReading fun e p =>
    polynomial? e = some p ∧ (polynomialOverflows e = false → p.length ≤ Coefficients.capacity)
    where
  integer i := ⟨by simp [polynomial?], fun _ => by simp [Coefficients.capacity]⟩
  unknown name := ⟨by simp [polynomial?], fun _ => by decide⟩
  power name k width small := by
    have read := power?_eq_some.mpr ⟨name, k, width, small, rfl, rfl⟩
    refine ⟨by rw [polynomial?, if_pos rfl, read], fun _ => ?_⟩
    simpa [Coefficients.power] using small
  operator {op args ps p} each combined := by
    have parts : List.Forall₂ (fun e p => polynomial? e = some p) args ps :=
      each.imp fun _ _ => And.left
    have other : op ≠ "^" := by
      rcases isSome_combine?.mp (Option.isSome_of_eq_some combined) with
        rfl | ⟨rfl, _⟩ | ⟨rfl, _⟩ <;> decide
    refine ⟨?_, fun fit => ?_⟩
    · rw [polynomial?, if_neg other, polynomials?_eq_some.mpr parts, Option.bind_some, combined]
    · unfold polynomialOverflows at fit
      rw [if_neg other] at fit
      have fits (fit : termsOverflow args = false) :
          ∀ p ∈ ps, p.length ≤ Coefficients.capacity := by
        intro p member
        obtain ⟨e, listed, -, one⟩ := each.exists_of_mem_right member
        exact one (termsOverflow_eq_false parts fit e listed)
      unfold combine? at combined
      split_ifs at combined with product empty sum minus
      · cases combined
        rw [if_pos product] at fit
        exact length_foldl_mul_le parts fit (by simp [Coefficients.capacity])
      · cases combined
        rw [if_neg product, if_pos (.inl sum)] at fit
        exact Coefficients.length_foldl_le Coefficients.length_add (by simp) (fits fit)
      · rw [if_neg product, if_pos (.inr minus)] at fit
        match ps, fits fit, combined with
        | [only], fits, combined =>
          cases combined
          simpa using fits only (by simp)
        | first :: second :: rest, fits, combined =>
          cases combined
          obtain ⟨head, others⟩ := List.forall_mem_cons.mp fits
          exact Coefficients.length_foldl_le (by simp) head others

theorem length_le_of_polynomial? {e : SExpr} {p : Coefficients} (read : polynomial? e = some p)
    (fit : polynomialOverflows e = false) : p.length ≤ Coefficients.capacity :=
  (keptByReading_stored.polynomial? read).2 fit

theorem fold_root_eq_atom {e index : SExpr} {a : Atom} :
    fold [.atom (.symbol "root-obj"), e, index] = .atom a ↔
      ∃ (p : Coefficients.Stored) (n : Nat), polynomial? e = some p ∧
        natBelow? UInt32.size index = some n ∧ a = .real (.root p (UInt32.ofNat n)) := by
  have literal : literal? "root-obj" [e, index] = root? [e, index] := by
    simp [literal?]
  simp only [fold, literal, root?]
  cases polynomial? e with
  | none => simp
  | some p =>
    cases natBelow? UInt32.size index with
    | none => simp
    | some n =>
      by_cases stored : p.length ≤ Coefficients.capacity
      · simp [stored, eq_comm]
      · simp [stored]

/-- When a tree is read as a polynomial, its coefficients, each before the power of its place, add
up to the value of the tree at every rational. Unless reading it overflows, a tree is read exactly
when it is a polynomial, and the coefficients fit into one list. A root of the tree gets these
coefficients. -/
theorem polynomial?_valueAt? (e : SExpr) :
    (polynomialOverflows e = false →
      ((∃ p, polynomial? e = some p) ↔ IsPolynomial e) ∧
        ∀ p, polynomial? e = some p → p.length ≤ Coefficients.capacity) ∧
    (∀ p, polynomial? e = some p → ∀ v : ℚ,
      valueAt? v e = some (∑ i : Fin p.length, (p[i] : ℚ) * v ^ (i : Nat))) ∧
    ∀ index a, fold [.atom (.symbol "root-obj"), e, index] = .atom a ↔
      ∃ (p : Coefficients.Stored) (n : Nat), polynomial? e = some p ∧
        natBelow? UInt32.size index = some n ∧ a = .real (.root p (UInt32.ofNat n)) := by
  refine ⟨fun fits => ⟨⟨?_, IsPolynomial.exists_polynomial?⟩,
    fun _ reads => length_le_of_polynomial? reads fits⟩, ?_, fun _ _ => fold_root_eq_atom⟩
  · rintro ⟨p, reads⟩
    exact keptByReading_isPolynomial.polynomial? reads
  · intro p reads v
    rw [(keptByReading_valueAt? v).polynomial? reads, Coefficients.eval_eq_sum]

/-- A product of a sum and a difference in two variables, less a power and less a product with
the empty sum in it. -/
def nestedPolynomial : SExpr :=
  let app operator args := SExpr.app (.atom (.symbol operator) :: args)
  let number i := SExpr.atom (.int i none)
  let factors := [app "+" [.atom (.symbol "x"), number 1], app "-" [.atom (.symbol "y"), number 2]]
  app "-" [app "*" factors, app "^" [.atom (.symbol "x"), number 3],
    app "*" [app "+" [], number 5]]

/-- The variables of the two factors are the same one, and the last product is zero. -/
theorem polynomial?_valueAt?_nested :
    polynomial? nestedPolynomial = some [-2, -1, 1, -1] ∧
      valueAt? (1 / 2) nestedPolynomial = some (-19 / 8) := by
  have reads : polynomial? nestedPolynomial = some [-2, -1, 1, -1] := by decide
  have value := (polynomial?_valueAt? nestedPolynomial).2.1 _ reads (1 / 2)
  refine ⟨reads, value.trans (congrArg some ?_)⟩
  rw [← Coefficients.eval_eq_sum]
  norm_num

end SExpr

end SmtDialogue
