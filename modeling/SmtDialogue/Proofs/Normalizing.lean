import SmtDialogue.Answer.Normalize
import SmtDialogue.Proofs.Folded

/-!
# Folding and normalizing

A tree is folded when it is read and once more when it is normalized. What the first of
both has folded the second one would fold too, polynomials of roots included, so an
application can be folded or not before it is normalized. Two applications whose items
are normalized to the same trees are normalized to the same tree when they start with the
same symbol, or both with none. One whose items cover those of another is folded only if that
one is, and overflows only if that one does.
-/

namespace SmtDialogue.SExpr

theorem normalizeList_eq_map (items : List SExpr) : normalizeList items = items.map normalize := by
  induction items with
  | nil => rfl
  | cons e rest ih => rw [normalizeList, ih, List.map_cons]

/-- An application that stands for none of its items is folded when its items are normalized. -/
theorem normalize_app {items : List SExpr} (stays : wrappedPlace? items = none) :
    normalize (.app items) = fold (items.map normalize) := by
  rw [normalize, stays, normalizeList_eq_map]
  rfl

theorem normalize_of_natBelow? {bound n : Nat} {e : SExpr} (number : e.natBelow? bound = some n) :
    normalize e = e := by
  obtain ⟨_, _, rfl⟩ := natBelow?_eq_some.mp number
  rfl

theorem normalize_of_rational? {q : Rat} {e : SExpr} (number : e.rational? = some q) :
    normalize e = e := by
  cases e with
  | atom a => rfl
  | app items => simp [rational?] at number

/-- The operators of the polynomial language, powers apart. -/
theorem operator_of_combine? {operator : String} {ps : List Coefficients} {p : Coefficients}
    (combines : combine? operator ps = some p) :
    operator = "*" ∨ operator = "+" ∨ operator = "-" := by
  by_contra other
  obtain ⟨times, plus, minus⟩ : operator ≠ "*" ∧ operator ≠ "+" ∧ operator ≠ "-" := by
    simpa using other
  simp [combine?, times, plus, minus] at combines

/-- Folding a negated number in a polynomial negates the coefficient. -/
theorem polynomial?_fold {operator : String} {args : List SExpr} {ps : List Coefficients}
    {p : Coefficients} (parts : polynomials? args = some ps)
    (combines : combine? operator ps = some p) (other : operator ≠ "^") :
    polynomial? (fold (.atom (.symbol operator) :: args)) = some p := by
  have whole : polynomial? (.app (.atom (.symbol operator) :: args)) = some p := by
    rw [polynomial?, if_neg other, parts]
    exact combines
  cases folds : literal? operator args with
  | none => simpa [fold, folds] using whole
  | some a =>
    -- no product and no sum stands for an atom
    obtain rfl : operator = "-" := by
      rcases operator_of_combine? combines with rfl | rfl | rfl
      · cases folds
      · cases folds
      · rfl
    have negated : negation? args = some a := folds
    simp only [fold, folds]
    unfold negation? at negated
    split at negated
    · next value =>
      cases negated
      cases parts
      cases combines
      simp [polynomial?, Coefficients.scale]
    · cases parts
    · cases negated

mutual

/-- A polynomial has its coefficients after normalizing too. -/
theorem polynomial?_normalize : ∀ {e : SExpr} {p : Coefficients}, polynomial? e = some p →
    polynomial? (normalize e) = some p
  | .atom _, _, reads => reads
  | .app [], _, reads => by simp [polynomial?] at reads
  | .app (.app _ :: _), _, reads => by simp [polynomial?] at reads
  | .app (.atom (.symbol operator) :: args), p, reads => by
    rw [polynomial?] at reads
    split at reads
    · next power =>
      subst power
      unfold power? at reads
      split at reads
      · next name exponent =>
        obtain ⟨n, number, _⟩ := Option.map_eq_some_iff.mp reads
        rw [normalize_app rfl]
        simp only [List.map_cons, List.map_nil, normalize_of_natBelow? number]
        exact reads
      · cases reads
    · next other =>
      obtain ⟨ps, parts, combines⟩ := Option.bind_eq_some_iff.mp reads
      have stays : wrappedPlace? (.atom (.symbol operator) :: args) = none := by
        rcases operator_of_combine? combines with rfl | rfl | rfl <;> rfl
      rw [normalize_app stays, List.map_cons]
      exact polynomial?_fold (polynomials?_normalize parts) combines other
  | .app (.atom (.keyword _) :: _), _, reads | .app (.atom (.int _ _) :: _), _, reads
  | .app (.atom (.real _) :: _), _, reads | .app (.atom (.float _) :: _), _, reads
  | .app (.atom (.double _) :: _), _, reads | .app (.atom (.string _) :: _), _, reads => by
    simp [polynomial?] at reads

theorem polynomials?_normalize : ∀ {es : List SExpr} {ps : List Coefficients},
    polynomials? es = some ps → polynomials? (es.map normalize) = some ps
  | [], _, reads => reads
  | e :: rest, ps, reads => by
    rw [polynomials?] at reads
    split at reads
    · next first others head tail =>
      rw [List.map_cons, polynomials?, polynomial?_normalize head, polynomials?_normalize tail]
      exact reads
    · cases reads

end

/-- Only a root has an argument that normalizing may change. -/
theorem map_normalize_of_literal? {operator : String} {args : List SExpr} {a : Atom}
    (folds : literal? operator args = some a) (other : operator ≠ "root-obj") :
    args.map normalize = args := by
  rw [literal?, if_neg other] at folds
  split_ifs at folds
  · unfold negation? at folds
    split at folds
    · rfl
    · rfl
    · cases folds
  · unfold quotient? at folds
    split at folds
    · split at folds
      · next numerator denominator =>
        simp [normalize_of_rational? numerator, normalize_of_rational? denominator]
      · cases folds
    · cases folds
  · unfold indexed? at folds
    split at folds
    · unfold bitVector? at folds
      split at folds
      · split at folds
        · next width => simp [normalize_of_natBelow? width, normalize]
        · cases folds
      · cases folds
    · unfold special? at folds
      split at folds
      · next exponent significand =>
        simp [normalize_of_natBelow? exponent, normalize_of_natBelow? significand, normalize]
      · next exponent significand =>
        simp [normalize_of_natBelow? exponent, normalize_of_natBelow? significand, normalize]
      · cases folds
    · cases folds
  · unfold fields? at folds
    split at folds
    · rfl
    · cases folds

/-- What stands for an atom stands for it with its arguments normalized. -/
theorem literal?_normalize {operator : String} {args : List SExpr} {a : Atom}
    (folds : literal? operator args = some a) :
    literal? operator (args.map normalize) = some a := by
  by_cases root : operator = "root-obj"
  · subst root
    have folds : root? args = some a := folds
    change root? (args.map normalize) = some a
    unfold root? at folds
    split at folds
    · next p index =>
      split at folds
      · next coefficients n reads number =>
        simp only [List.map_cons, List.map_nil, root?, polynomial?_normalize reads,
          normalize_of_natBelow? number]
        rw [number]
        exact folds
      · cases folds
    · cases folds
  · rw [map_normalize_of_literal? folds root, folds]

/-- The operators of foldable applications are neither casts nor abstractions. -/
theorem wrappedPlace?_of_literal? {operator : String} {args : List SExpr} {a : Atom}
    (folds : literal? operator args = some a) :
    wrappedPlace? (.atom (.symbol operator) :: args) = none := by
  have foldable : operator = "-" ∨ operator = "/" ∨ operator = "_" ∨ operator = "fp" ∨
      operator = "root-obj" := by
    by_contra other
    simp only [not_or] at other
    obtain ⟨minus, slash, underscore, word, root⟩ := other
    simp [literal?, minus, slash, underscore, word, root] at folds
  rcases foldable with rfl | rfl | rfl | rfl | rfl <;> rfl

/-- Folding an application first does not change what it is normalized to. -/
theorem normalize_fold (items : List SExpr) : normalize (fold items) = normalize (.app items) := by
  unfold fold
  split
  · next operator args =>
    split
    · next a folds =>
      rw [normalize_app (wrappedPlace?_of_literal? folds), List.map_cons]
      simp [normalize, fold, literal?_normalize folds]
    · rfl
  · rfl

/-- No application is folded to a symbol. -/
theorem symbol?_fold (items : List SExpr) : (fold items).symbol? = none := by
  rcases fold_cases items with stays | ⟨a, folds, value⟩
  · rw [stays]
    rfl
  · rw [folds]
    cases a with
    | symbol name => exact value.elim
    | _ => rfl

/-- The second tree is normalized like the first one. Where it is an atom or a polynomial it is
the first one, and it overflows as a polynomial only if that one does. -/
structure Covers (e f : SExpr) : Prop where
  normal : normalize e = normalize f
  atom : ∀ {a}, f = .atom a → e = f
  polynomial : ∀ {p}, polynomial? f = some p → e = f
  overflows : polynomialOverflows f = true → polynomialOverflows e = true

theorem Covers.refl (e : SExpr) : Covers e e :=
  ⟨rfl, fun _ => rfl, fun _ => rfl, id⟩

theorem forall₂_covers_refl (es : List SExpr) : List.Forall₂ Covers es es :=
  List.forall₂_same.mpr fun e _ => .refl e

section

variable {es fs : List SExpr} {operator : String}

/-- Trees that are all atoms or polynomials are covered by themselves only. -/
theorem eq_of_covers (each : List.Forall₂ Covers es fs)
    (plain : ∀ f ∈ fs, (∃ a, f = .atom a) ∨ ∃ p, polynomial? f = some p) : es = fs := by
  induction each with
  | nil => rfl
  | cons covers _ ih =>
    obtain ⟨first, others⟩ := List.forall_mem_cons.mp plain
    rw [ih others]
    rcases first with ⟨a, same⟩ | ⟨p, reads⟩
    · rw [covers.atom same]
    · rw [covers.polynomial reads]

theorem forall_of_polynomials? {ps : List Coefficients} (parts : polynomials? es = some ps) :
    ∀ e ∈ es, ∃ p, polynomial? e = some p := by
  induction es generalizing ps with
  | nil => simp
  | cons e rest ih =>
    rw [polynomials?] at parts
    split at parts
    · next first others head tail => exact List.forall_mem_cons.mpr ⟨⟨first, head⟩, ih tail⟩
    · cases parts

theorem exists_atom_of_natBelow? {bound n : Nat} {e : SExpr}
    (number : e.natBelow? bound = some n) : ∃ a, e = .atom a := by
  obtain ⟨_, _, rfl⟩ := natBelow?_eq_some.mp number
  exact ⟨_, rfl⟩

theorem exists_atom_of_rational? {q : Rat} {e : SExpr} (number : e.rational? = some q) :
    ∃ a, e = .atom a := by
  cases e with
  | atom a => exact ⟨a, rfl⟩
  | app items => simp [rational?] at number

/-- What stands for an atom has atoms behind its name, and the polynomial of a root. -/
theorem forall_of_literal? {a : Atom} (folds : literal? operator es = some a) :
    ∀ e ∈ es, (∃ b, e = .atom b) ∨ ∃ p, polynomial? e = some p := by
  unfold literal? at folds
  split_ifs at folds
  · unfold negation? at folds
    split at folds
    · simp
    · simp
    · cases folds
  · unfold quotient? at folds
    split at folds
    · split at folds
      · next numerator denominator =>
        simpa using ⟨.inl (exists_atom_of_rational? numerator),
          .inl (exists_atom_of_rational? denominator)⟩
      · cases folds
    · cases folds
  · unfold indexed? at folds
    split at folds
    · unfold bitVector? at folds
      split at folds
      · split at folds
        · next width => simpa using .inl (exists_atom_of_natBelow? width)
        · cases folds
      · cases folds
    · unfold special? at folds
      split at folds
      · next exponent significand =>
        simpa using ⟨.inl (exists_atom_of_natBelow? exponent),
          .inl (exists_atom_of_natBelow? significand)⟩
      · next exponent significand =>
        simpa using ⟨.inl (exists_atom_of_natBelow? exponent),
          .inl (exists_atom_of_natBelow? significand)⟩
      · cases folds
    · cases folds
  · unfold fields? at folds
    split at folds
    · simp
    · cases folds
  · unfold root? at folds
    split at folds
    · split at folds
      · next reads number =>
        simpa using ⟨.inr ⟨_, reads⟩, .inl (exists_atom_of_natBelow? number)⟩
      · cases folds
    · cases folds

/-- An application of a symbol covers one of that symbol. -/
theorem exists_of_covers_app {args : List SExpr}
    (each : List.Forall₂ Covers es (.atom (.symbol operator) :: args)) :
    ∃ others, es = .atom (.symbol operator) :: others ∧ List.Forall₂ Covers others args := by
  cases each with
  | @cons e _ others _ head each =>
    obtain rfl := head.atom rfl
    exact ⟨others, rfl, each⟩

/-- What is folded to an atom is covered by itself only. -/
theorem eq_of_fold_eq_atom (each : List.Forall₂ Covers es fs) {a : Atom}
    (folds : fold fs = .atom a) : es = fs := by
  unfold fold at folds
  split at folds
  · next operator args =>
    split at folds <;> cases folds
    next literal =>
    obtain ⟨others, rfl, behind⟩ := exists_of_covers_app each
    rw [eq_of_covers behind (forall_of_literal? literal)]
  · cases folds

theorem eq_of_polynomial?_app (each : List.Forall₂ Covers es fs) {p : Coefficients}
    (reads : polynomial? (.app fs) = some p) : es = fs := by
  unfold polynomial? at reads
  split at reads
  case h_3 operator args same =>
    obtain rfl := SExpr.app.inj same
    obtain ⟨others, rfl, behind⟩ := exists_of_covers_app each
    split at reads
    · unfold power? at reads
      split at reads
      · next exponent =>
        obtain ⟨k, number, -⟩ := Option.map_eq_some_iff.mp reads
        rw [eq_of_covers behind (by simpa using .inl (exists_atom_of_natBelow? number))]
      · cases reads
    · obtain ⟨ps, parts, -⟩ := Option.bind_eq_some_iff.mp reads
      rw [eq_of_covers behind fun f hf => .inr (forall_of_polynomials? parts f hf)]
  all_goals simp_all

theorem termsOverflow_of_covers (each : List.Forall₂ Covers es fs)
    (overflow : termsOverflow fs = true) : termsOverflow es = true := by
  induction each with
  | nil => exact overflow
  | @cons e f es fs covers _ ih =>
    rw [termsOverflow, Bool.or_eq_true, Bool.and_eq_true] at overflow ⊢
    rcases overflow with here | ⟨reads, later⟩
    · exact .inl (covers.overflows here)
    · obtain ⟨p, reads⟩ := Option.isSome_iff_exists.mp reads
      obtain rfl := covers.polynomial reads
      exact .inr ⟨by simp [reads], ih later⟩

theorem factorsOverflow_of_covers (each : List.Forall₂ Covers es fs) {product : Coefficients}
    (overflow : factorsOverflow product fs = true) : factorsOverflow product es = true := by
  induction each generalizing product with
  | nil => exact overflow
  | @cons e f es fs covers _ ih =>
    rw [factorsOverflow, Bool.or_eq_true] at overflow ⊢
    rcases overflow with here | later
    · exact .inl (covers.overflows here)
    · split at later
      · next p reads =>
        obtain rfl := covers.polynomial reads
        rw [reads]
        refine .inr ?_
        simp only [Bool.or_eq_true] at later ⊢
        exact later.imp_right ih
      · cases later

/-- Behind covered items no polynomial overflows that does not without them. -/
theorem polynomialOverflows_of_covers (each : List.Forall₂ Covers es fs)
    (overflow : polynomialOverflows (.app fs) = true) : polynomialOverflows (.app es) = true := by
  unfold polynomialOverflows at overflow
  split at overflow
  case h_1 operator args same =>
    obtain rfl := SExpr.app.inj same
    obtain ⟨others, rfl, behind⟩ := exists_of_covers_app each
    rw [polynomialOverflows]
    split_ifs at overflow ⊢
    · unfold powerOverflows at overflow
      split at overflow
      · next exponent =>
        cases number : natBelow? UInt64.size exponent with
        | none => simp [number] at overflow
        | some k =>
          rw [eq_of_covers behind (by simpa using .inl (exists_atom_of_natBelow? number))]
          exact overflow
      · cases overflow
    · exact factorsOverflow_of_covers behind overflow
    · exact termsOverflow_of_covers behind overflow
  case h_2 => cases overflow

/-- A polynomial that overflows is not folded. -/
theorem fold_of_polynomialOverflows (overflow : polynomialOverflows (.app es) = true) :
    fold es = .app es := by
  unfold polynomialOverflows at overflow
  split at overflow
  case h_1 operator args same =>
    obtain rfl := SExpr.app.inj same
    have none : literal? operator args = none := by
      split_ifs at overflow with power product sum
      · rw [power]
        rfl
      · rw [product]
        rfl
      · rcases sum with rfl | rfl
        · rfl
        · -- a number behind the minus does not overflow
          change negation? args = none
          unfold negation?
          split
          · simp [termsOverflow, polynomialOverflows] at overflow
          · simp [termsOverflow, polynomialOverflows] at overflow
          · rfl
    simp [fold, none]
  case h_2 => cases overflow

theorem foldOverflows_of_covers (each : List.Forall₂ Covers es fs)
    (overflow : foldOverflows fs = true) : foldOverflows es = true := by
  unfold foldOverflows at overflow
  split at overflow
  · next operator args =>
    obtain ⟨others, rfl, behind⟩ := exists_of_covers_app each
    rw [foldOverflows]
    split_ifs at overflow ⊢
    · unfold fieldsOverflow at overflow
      split at overflow
      · rw [eq_of_covers behind (by simp)]
        exact overflow
      · cases overflow
    · unfold rootOverflows at overflow
      split at overflow
      · obtain _ | ⟨covers, _ | ⟨_, _ | _⟩⟩ := behind
        exact covers.overflows overflow
      · cases overflow
  · cases overflow

end

/-- Items that cover others, behind the same symbol if any. -/
structure Alike (es fs : List SExpr) : Prop where
  each : List.Forall₂ Covers es fs
  head : es.head?.bind symbol? = fs.head?.bind symbol?

namespace Alike

variable {es fs : List SExpr}

theorem refl (es : List SExpr) : Alike es es :=
  ⟨forall₂_covers_refl es, rfl⟩

theorem normal (alike : Alike es fs) : es.map normalize = fs.map normalize := by
  obtain ⟨each, -⟩ := alike
  induction each with
  | nil => rfl
  | cons covers _ ih => rw [List.map_cons, List.map_cons, covers.normal, ih]

/-- One more item on both sides. Only a first item has to be the same symbol. -/
theorem concat (alike : Alike es fs) {e f : SExpr} (covers : Covers e f)
    (symbol : es ≠ [] ∨ e.symbol? = f.symbol?) : Alike (es ++ [e]) (fs ++ [f]) := by
  obtain ⟨each, head⟩ := alike
  refine ⟨List.rel_append each (.cons covers .nil), ?_⟩
  cases each with
  | nil => simpa using symbol
  | cons _ _ => exact head

theorem normalize_app (alike : Alike es fs) : normalize (.app es) = normalize (.app fs) := by
  have place : wrappedPlace? es = wrappedPlace? fs := by
    rw [wrappedPlace?, wrappedPlace?, alike.head, alike.each.length_eq]
  rw [normalize, normalize, place, normalizeList_eq_map, normalizeList_eq_map, alike.normal]

theorem fold (alike : Alike es fs) : Covers (fold es) (fold fs) where
  normal := by rw [normalize_fold, normalize_fold, alike.normalize_app]
  atom folds := by rw [eq_of_fold_eq_atom alike.each folds]
  polynomial {p} reads := by
    rcases fold_cases fs with stays | ⟨a, folds, -⟩
    · rw [stays] at reads
      rw [eq_of_polynomial?_app alike.each reads]
    · rw [eq_of_fold_eq_atom alike.each folds]
  overflows overflow := by
    rcases fold_cases fs with stays | ⟨a, folds, -⟩
    · rw [stays] at overflow
      have covered := polynomialOverflows_of_covers alike.each overflow
      rwa [fold_of_polynomialOverflows covered]
    · rw [folds] at overflow
      simp [polynomialOverflows] at overflow

end Alike

end SmtDialogue.SExpr
