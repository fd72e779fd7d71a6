import SmtDialogue.Proofs.Folded

/-!
# Applications that do not overflow

Folding overflows only in an application of one of two symbols, one to fields of a word and one
to a polynomial. So one with another head does not, and neither does one whose operands are
neither numbers of a width nor polynomials that overflow.
-/

namespace SmtDialogue

namespace SExpr

/-- An operand with which no application overflows: no number of a width, and no polynomial that
overflows. -/
structure IsMild (e : SExpr) : Prop where
  unsized : ∀ i width, e ≠ .atom (.int i (some width))
  reads : polynomialOverflows e = false

theorem isMild_atom {a : Atom} (unsized : ∀ i width, a ≠ .int i (some width)) :
    (SExpr.atom a).IsMild where
  unsized i width same := unsized i width (SExpr.atom.inj same)
  reads := by simp [polynomialOverflows]

@[simp] theorem isMild_symbol (name : String) : (SExpr.atom (.symbol name)).IsMild :=
  isMild_atom (by simp)

/-- An application of a symbol that polynomials are not made with. -/
theorem isMild_app {name : String} (other : ∀ operator ∈ ["^", "*", "+", "-"], name ≠ operator)
    (args : List SExpr) : (SExpr.app (.atom (.symbol name) :: args)).IsMild := by
  simp only [List.forall_mem_cons] at other
  obtain ⟨power, product, sum, minus, -⟩ := other
  refine ⟨by simp, ?_⟩
  rw [polynomialOverflows, if_neg power, if_neg product, if_neg (not_or.mpr ⟨sum, minus⟩)]

theorem foldOverflows_of_mild {items : List SExpr} (each : ∀ e ∈ items, e.IsMild) :
    foldOverflows items = false := by
  unfold foldOverflows
  split
  · next operator args =>
    obtain ⟨-, operands⟩ := List.forall_mem_cons.mp each
    split_ifs
    · unfold fieldsOverflow
      split
      · exact absurd rfl ((operands _ List.mem_cons_self).unsized _ _)
      · rfl
    · unfold rootOverflows
      split
      · exact (operands _ List.mem_cons_self).reads
      · rfl
    · rfl
  · rfl

theorem foldOverflows_symbol {name : String} (word : name ≠ "fp") (root : name ≠ "root-obj")
    (args : List SExpr) : foldOverflows (.atom (.symbol name) :: args) = false := by
  rw [foldOverflows, if_neg word, if_neg root]

/-- A symbol with one operand has too few of them. -/
theorem foldOverflows_of_length_le {items : List SExpr} (short : items.length ≤ 2) :
    foldOverflows items = false := by
  unfold foldOverflows
  split
  · next operator args =>
    match args, short with
    | [], _ | [_], _ => simp [fieldsOverflow, rootOverflows]
  · rfl

/-- What an application is folded into heads one that does not overflow, since it is no symbol. -/
theorem foldOverflows_fold (items more : List SExpr) :
    foldOverflows (fold items :: more) = false := by
  rcases fold_cases items with stays | ⟨a, folds, value⟩
  · rw [stays]
    rfl
  · rw [folds]
    cases a <;> first | rfl | exact absurd value id

end SExpr

end SmtDialogue
