import Mathlib.Logic.Relation
import SmtDialogue.Extended

/-!
# Rules of simplification

What simplifying does to a tree is a matter of rules for single nodes: equal bounds, numbers
that can be computed, zeros and ones, and infinities beside numbers. Simplifying applies
rules from the leaves up, and what it leaves is a normal form, where no rule applies to any
node. No rule makes a tree larger.
-/

namespace SmtDialogue.Extended

/-- All nodes of a tree, the tree itself first. -/
def nodes : Extended → List Extended
  | .interval a b => .interval a b :: (a.nodes ++ b.nodes)
  | .sum a b => .sum a b :: (a.nodes ++ b.nodes)
  | .product a b => .product a b :: (a.nodes ++ b.nodes)
  | leaf => [leaf]

/-- The rules of simplification: the tree on the left becomes the one on the right. -/
inductive Rule : Extended → Extended → Prop
  | interval (e : Extended) : Rule (.interval e e) e
  | added {x y z : Value} (sum : x.add? y = some z) :
    Rule (.sum (.finite x) (.finite y)) (.finite z)
  | zeroFirst {x : Value} {e : Extended} (zero : x.isZero = true) (other : e.isFinite = false) :
    Rule (.sum (.finite x) e) e
  | zeroLast {x : Value} {e : Extended} (zero : x.isZero = true) (other : e.isFinite = false) :
    Rule (.sum e (.finite x)) e
  | absorbsLast {a b : Extended} (infinite : a.isInfinite = true)
    (absorbed : b.isAbsorbed = true) : Rule (.sum a b) a
  | absorbsFirst {a b : Extended} (infinite : b.isInfinite = true)
    (absorbed : a.isAbsorbed = true) : Rule (.sum a b) b
  | multiplied {x y z : Value} (product : x.mul? y = some z) :
    Rule (.product (.finite x) (.finite y)) (.finite z)
  | oneFirst {x : Value} {e : Extended} (one : x.isOne = true) (other : e.isFinite = false) :
    Rule (.product (.finite x) e) e
  | oneLast {x : Value} {e : Extended} (one : x.isOne = true) (other : e.isFinite = false) :
    Rule (.product e (.finite x)) e
  | scaledFirst {x : Value} {e f : Extended} (infinite : e.isInfinite = true)
    (sign : x.signum? = some .gt ∧ f = e ∨ x.signum? = some .lt ∧ f = e.negate) :
    Rule (.product (.finite x) e) f
  | scaledLast {x : Value} {e f : Extended} (infinite : e.isInfinite = true)
    (sign : x.signum? = some .gt ∧ f = e ∨ x.signum? = some .lt ∧ f = e.negate) :
    Rule (.product e (.finite x)) f
  /-- The number goes to the front of an infinity that it cannot be multiplied with. -/
  | turned {x : Value} {e : Extended} (infinite : e.isInfinite = true) (other : x.isOne = false)
    (positive : x.signum? ≠ some .gt) (negative : x.signum? ≠ some .lt) :
    Rule (.product e (.finite x)) (.product (.finite x) e)

/-- A rule applies to some node. -/
inductive Step : Extended → Extended → Prop
  | rule {a b : Extended} (applies : Rule a b) : Step a b
  | low {a b : Extended} (step : Step a b) (c : Extended) : Step (.interval a c) (.interval b c)
  | high {a b : Extended} (step : Step a b) (c : Extended) : Step (.interval c a) (.interval c b)
  | augend {a b : Extended} (step : Step a b) (c : Extended) : Step (.sum a c) (.sum b c)
  | addend {a b : Extended} (step : Step a b) (c : Extended) : Step (.sum c a) (.sum c b)
  | multiplier {a b : Extended} (step : Step a b) (c : Extended) :
    Step (.product a c) (.product b c)
  | multiplicand {a b : Extended} (step : Step a b) (c : Extended) :
    Step (.product c a) (.product c b)

/-- Rules apply one after the other. -/
abbrev Reduces : Extended → Extended → Prop :=
  Relation.ReflTransGen Step

/-- No rule applies to any node. -/
def Normal (e : Extended) : Prop :=
  ∀ f, ¬Step e f

variable {a b c d e f : Extended}

theorem eq_leaf_of_isInfinite (infinite : e.isInfinite = true) :
    ∃ kind, e = .posInfinity kind ∨ e = .negInfinity kind := by
  cases e with
  | posInfinity kind => exact ⟨kind, .inl rfl⟩
  | negInfinity kind => exact ⟨kind, .inr rfl⟩
  | _ => cases infinite

theorem isInfinite_negate (infinite : e.isInfinite = true) : e.negate.isInfinite = true := by
  obtain ⟨kind, rfl | rfl⟩ := eq_leaf_of_isInfinite infinite <;> rfl

theorem isFinite_eq_false (other : ∀ v, e = .finite v → False) : e.isFinite = false := by
  cases e with
  | finite v => exact (other v rfl).elim
  | _ => rfl

/-- A sum of simplified parts is simplified by a rule, unless there is none for it. -/
theorem rule_simplifySum (a b : Extended) :
    Rule (.sum a b) (simplifySum a b) ∨
      simplifySum a b = .sum a b ∧ ∀ e, ¬Rule (.sum a b) e := by
  unfold simplifySum
  split
  · next x y =>
    cases sum : x.add? y with
    | some z => exact .inl (.added sum)
    | none =>
      refine .inr ⟨rfl, fun e rule => ?_⟩
      cases rule with
      | added computed => simp [sum] at computed
      | zeroFirst _ other | zeroLast _ other => cases other
      | absorbsLast infinite | absorbsFirst infinite => cases infinite
  · next x other =>
    have apart : b.isFinite = false := isFinite_eq_false other
    split
    · next zero => exact .inl (.zeroFirst zero apart)
    · next nonzero =>
      split
      · next infinite => exact .inl (.absorbsFirst infinite rfl)
      · next finite =>
        refine .inr ⟨rfl, fun e rule => ?_⟩
        cases rule with
        | added => cases apart
        | zeroFirst zero => exact nonzero zero
        | zeroLast => cases apart
        | absorbsLast infinite => cases infinite
        | absorbsFirst infinite => exact finite infinite
  · next y other =>
    have apart : a.isFinite = false := isFinite_eq_false other
    split
    · next zero => exact .inl (.zeroLast zero apart)
    · next nonzero =>
      split
      · next infinite => exact .inl (.absorbsLast infinite rfl)
      · next finite =>
        refine .inr ⟨rfl, fun e rule => ?_⟩
        cases rule with
        | added => cases apart
        | zeroFirst => cases apart
        | zeroLast zero => exact nonzero zero
        | absorbsLast infinite => exact finite infinite
        | absorbsFirst infinite => cases infinite
  · next first last _ =>
    split
    · next both =>
      obtain ⟨infinite, absorbed⟩ := Bool.and_eq_true_iff.mp both
      exact .inl (.absorbsLast infinite absorbed)
    · next notLast =>
      split
      · next both =>
        obtain ⟨infinite, absorbed⟩ := Bool.and_eq_true_iff.mp both
        exact .inl (.absorbsFirst infinite absorbed)
      · next notFirst =>
        refine .inr ⟨rfl, fun e rule => ?_⟩
        cases rule with
        | added | zeroFirst => exact first _ rfl
        | zeroLast => exact last _ rfl
        | absorbsLast infinite absorbed => exact notLast (by simp [infinite, absorbed])
        | absorbsFirst infinite absorbed => exact notFirst (by simp [infinite, absorbed])

theorem rule_scaleInfinity {x : Value} (infinite : e.isInfinite = true) :
    (Rule (.product (.finite x) e) (scaleInfinity x e) ∧
        Rule (.product e (.finite x)) (scaleInfinity x e)) ∨
      scaleInfinity x e = .product (.finite x) e ∧ x.signum? ≠ some .gt ∧
        x.signum? ≠ some .lt := by
  unfold scaleInfinity
  split
  · next positive =>
    exact .inl ⟨.scaledFirst infinite (.inl ⟨positive, rfl⟩),
      .scaledLast infinite (.inl ⟨positive, rfl⟩)⟩
  · next negative =>
    exact .inl ⟨.scaledFirst infinite (.inr ⟨negative, rfl⟩),
      .scaledLast infinite (.inr ⟨negative, rfl⟩)⟩
  · next positive negative => exact .inr ⟨rfl, positive, negative⟩

/-- A number in front of an infinity that it cannot be multiplied with stays there. -/
theorem not_rule_of_unsigned {x : Value} (infinite : e.isInfinite = true)
    (other : x.isOne = false) (positive : x.signum? ≠ some .gt)
    (negative : x.signum? ≠ some .lt) (f : Extended) : ¬Rule (.product (.finite x) e) f := by
  intro rule
  cases rule with
  | multiplied => cases infinite
  | oneFirst one => simp [other] at one
  | oneLast => cases infinite
  | scaledFirst _ sign =>
    rcases sign with ⟨known, _⟩ | ⟨known, _⟩
    · exact positive known
    · exact negative known
  | scaledLast => cases infinite
  | turned => cases infinite

/-- A product of simplified parts is simplified by a rule, unless there is none for it. -/
theorem rule_simplifyProduct (a b : Extended) :
    Rule (.product a b) (simplifyProduct a b) ∨
      simplifyProduct a b = .product a b ∧ ∀ e, ¬Rule (.product a b) e := by
  unfold simplifyProduct
  split
  · next x y =>
    cases product : x.mul? y with
    | some z => exact .inl (.multiplied product)
    | none =>
      refine .inr ⟨rfl, fun e rule => ?_⟩
      cases rule with
      | multiplied computed => simp [product] at computed
      | oneFirst _ other | oneLast _ other => cases other
      | scaledFirst infinite | scaledLast infinite | turned infinite => cases infinite
  · next x other =>
    have apart : b.isFinite = false := isFinite_eq_false other
    split
    · next one => exact .inl (.oneFirst one apart)
    · next notOne =>
      rw [Bool.not_eq_true] at notOne
      split
      · next infinite =>
        rcases rule_scaleInfinity (x := x) infinite with ⟨rule, _⟩ | ⟨same, positive, negative⟩
        · exact .inl rule
        · exact .inr ⟨same, not_rule_of_unsigned infinite notOne positive negative⟩
      · next finite =>
        refine .inr ⟨rfl, fun e rule => ?_⟩
        cases rule with
        | multiplied => cases apart
        | oneFirst one => simp [notOne] at one
        | oneLast => cases apart
        | scaledFirst infinite => exact finite infinite
        | scaledLast infinite => cases infinite
        | turned infinite => cases infinite
  · next y other =>
    have apart : a.isFinite = false := isFinite_eq_false other
    split
    · next one => exact .inl (.oneLast one apart)
    · next notOne =>
      rw [Bool.not_eq_true] at notOne
      split
      · next infinite =>
        rcases rule_scaleInfinity (x := y) infinite with ⟨_, rule⟩ | ⟨same, positive, negative⟩
        · exact .inl rule
        · rw [same]
          exact .inl (.turned infinite notOne positive negative)
      · next finite =>
        refine .inr ⟨rfl, fun e rule => ?_⟩
        cases rule with
        | multiplied => cases apart
        | oneFirst => cases apart
        | oneLast one => simp [notOne] at one
        | scaledFirst infinite => cases infinite
        | scaledLast infinite => exact finite infinite
        | turned infinite => exact finite infinite
  · next first last _ =>
    refine .inr ⟨rfl, fun e rule => ?_⟩
    cases rule with
    | multiplied | oneFirst | scaledFirst => exact first _ rfl
    | oneLast | scaledLast | turned => exact last _ rfl

namespace Reduces

theorem interval (low : Reduces a b) (high : Reduces c d) :
    Reduces (.interval a c) (.interval b d) :=
  (low.lift (Extended.interval · c) fun _ _ step => .low step c).trans
    (high.lift (Extended.interval b ·) fun _ _ step => .high step b)

theorem sum (first : Reduces a b) (last : Reduces c d) : Reduces (.sum a c) (.sum b d) :=
  (first.lift (Extended.sum · c) fun _ _ step => .augend step c).trans
    (last.lift (Extended.sum b ·) fun _ _ step => .addend step b)

theorem product (first : Reduces a b) (last : Reduces c d) :
    Reduces (.product a c) (.product b d) :=
  (first.lift (Extended.product · c) fun _ _ step => .multiplier step c).trans
    (last.lift (Extended.product b ·) fun _ _ step => .multiplicand step b)

end Reduces

/-- Simplifying applies rules. -/
theorem reduces_simplify (e : Extended) : Reduces e e.simplify := by
  induction e with
  | finite v | posInfinity k | negInfinity k | epsilon k => exact .refl
  | interval low high ihlow ihhigh =>
    refine (ihlow.interval ihhigh).trans ?_
    simp only [simplify]
    split
    · next same =>
      rw [← same]
      exact .single (.rule (.interval _))
    · exact .refl
  | sum a b iha ihb =>
    refine (iha.sum ihb).trans ?_
    rw [simplify]
    rcases rule_simplifySum a.simplify b.simplify with rule | ⟨same, _⟩
    · exact .single (.rule rule)
    · rw [same]
  | product a b iha ihb =>
    refine (iha.product ihb).trans ?_
    rw [simplify]
    rcases rule_simplifyProduct a.simplify b.simplify with rule | ⟨same, _⟩
    · exact .single (.rule rule)
    · rw [same]

theorem normal_interval_iff :
    (Extended.interval a b).Normal ↔ a ≠ b ∧ a.Normal ∧ b.Normal := by
  constructor
  · intro normal
    refine ⟨?_, fun f step => normal _ (.low step b), fun f step => normal _ (.high step a)⟩
    rintro rfl
    exact normal a (.rule (.interval a))
  · rintro ⟨differ, low, high⟩ f step
    cases step with
    | rule applies =>
      cases applies
      exact differ rfl
    | low step => exact low _ step
    | high step => exact high _ step

theorem normal_sum_iff :
    (Extended.sum a b).Normal ↔ (∀ e, ¬Rule (.sum a b) e) ∧ a.Normal ∧ b.Normal := by
  constructor
  · intro normal
    exact ⟨fun e rule => normal e (.rule rule), fun f step => normal _ (.augend step b),
      fun f step => normal _ (.addend step a)⟩
  · rintro ⟨none, first, last⟩ f step
    cases step with
    | rule applies => exact none _ applies
    | augend step => exact first _ step
    | addend step => exact last _ step

theorem normal_product_iff :
    (Extended.product a b).Normal ↔ (∀ e, ¬Rule (.product a b) e) ∧ a.Normal ∧ b.Normal := by
  constructor
  · intro normal
    exact ⟨fun e rule => normal e (.rule rule), fun f step => normal _ (.multiplier step b),
      fun f step => normal _ (.multiplicand step a)⟩
  · rintro ⟨none, first, last⟩ f step
    cases step with
    | rule applies => exact none _ applies
    | multiplier step => exact first _ step
    | multiplicand step => exact last _ step

theorem normal_finite (v : Value) : (Extended.finite v).Normal := by
  rintro f ⟨⟨⟩⟩

theorem normal_of_isInfinite (infinite : e.isInfinite = true) : e.Normal := by
  obtain ⟨kind, rfl | rfl⟩ := eq_leaf_of_isInfinite infinite <;> rintro f ⟨⟨⟩⟩

/-- What a rule makes of a sum of normal forms is a normal form. -/
theorem Rule.normal_of_sum (rule : Rule (.sum a b) e) (first : a.Normal) (last : b.Normal) :
    e.Normal := by
  cases rule with
  | added => exact normal_finite _
  | zeroFirst | absorbsFirst => exact last
  | zeroLast | absorbsLast => exact first

/-- What a rule makes of a product of normal forms is a normal form. A number that goes to the
front of an infinity is not one and has no sign, so no rule applies to the new product. -/
theorem Rule.normal_of_product (rule : Rule (.product a b) e) (first : a.Normal)
    (last : b.Normal) : e.Normal := by
  cases rule with
  | multiplied => exact normal_finite _
  | oneFirst => exact last
  | oneLast => exact first
  | scaledFirst infinite sign | scaledLast infinite sign =>
    rcases sign with ⟨_, rfl⟩ | ⟨_, rfl⟩
    · exact normal_of_isInfinite infinite
    · exact normal_of_isInfinite (isInfinite_negate infinite)
  | turned infinite other positive negative =>
    exact normal_product_iff.mpr
      ⟨not_rule_of_unsigned infinite other positive negative, last, first⟩

/-- No rule applies to a simplified tree. -/
theorem normal_simplify (e : Extended) : e.simplify.Normal := by
  induction e with
  | finite v => exact normal_finite v
  | posInfinity k | negInfinity k => exact normal_of_isInfinite rfl
  | epsilon k => rintro f ⟨⟨⟩⟩
  | interval low high ihlow ihhigh =>
    simp only [simplify]
    split
    · exact ihlow
    · next differ => exact normal_interval_iff.mpr ⟨differ, ihlow, ihhigh⟩
  | sum a b iha ihb =>
    rw [simplify]
    rcases rule_simplifySum a.simplify b.simplify with rule | ⟨same, none⟩
    · exact rule.normal_of_sum iha ihb
    · rw [same]
      exact normal_sum_iff.mpr ⟨none, iha, ihb⟩
  | product a b iha ihb =>
    rw [simplify]
    rcases rule_simplifyProduct a.simplify b.simplify with rule | ⟨same, none⟩
    · exact rule.normal_of_product iha ihb
    · rw [same]
      exact normal_product_iff.mpr ⟨none, iha, ihb⟩

/-- A normal form reduces to itself only, so simplifying keeps it. -/
theorem Normal.simplify_eq (normal : e.Normal) : e.simplify = e := by
  rcases Relation.ReflTransGen.cases_head (reduces_simplify e) with same | ⟨f, step, _⟩
  · exact same.symm
  · exact absurd step (normal f)

theorem simplify_simplify (e : Extended) : e.simplify.simplify = e.simplify :=
  (normal_simplify e).simplify_eq

theorem length_nodes_of_isInfinite (infinite : e.isInfinite = true) : e.nodes.length = 1 := by
  obtain ⟨kind, rfl | rfl⟩ := eq_leaf_of_isInfinite infinite <;> rfl

theorem Rule.length_nodes_le (rule : Rule a b) : b.nodes.length ≤ a.nodes.length := by
  cases rule with
  | scaledFirst infinite sign | scaledLast infinite sign =>
    have one : b.nodes.length = 1 := by
      rcases sign with ⟨_, rfl⟩ | ⟨_, rfl⟩
      · exact length_nodes_of_isInfinite infinite
      · exact length_nodes_of_isInfinite (isInfinite_negate infinite)
    simp only [nodes, List.length_cons, one]
    omega
  | _ =>
    simp only [nodes, List.length_cons, List.length_append, List.length_nil]
    omega

theorem Step.length_nodes_le (step : Step a b) : b.nodes.length ≤ a.nodes.length := by
  induction step with
  | rule applies => exact applies.length_nodes_le
  | low | high | augend | addend | multiplier | multiplicand =>
    simp only [nodes, List.length_cons, List.length_append]
    omega

theorem Reduces.length_nodes_le (reduces : Reduces a b) :
    b.nodes.length ≤ a.nodes.length := by
  induction reduces with
  | refl => exact Nat.le_refl _
  | tail _ step ih => exact Nat.le_trans step.length_nodes_le ih

end SmtDialogue.Extended
