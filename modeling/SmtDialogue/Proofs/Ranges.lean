import SmtDialogue.Extended
import SmtDialogue.Proofs.Numbers

/-!
# What extended values stand for

An extended value stands for the results that are possible on a scale: its leaves for one
point each, an interval for everything between its bounds, sums and products for those of
any two possible results. Negating a value negates what it stands for. Simplifying it
changes nothing, as long as the bounds of every interval are single points.
-/

namespace SmtDialogue

universe u

variable {K : Type u} [Field K] [LinearOrder K]

namespace Extended

/-- Every leaf is of one kind. -/
def Over (kind : Kind) : Extended → Prop
  | .finite v => v.kind = kind
  | .posInfinity k | .negInfinity k | .epsilon k => k = kind
  | .interval a b | .sum a b | .product a b => a.Over kind ∧ b.Over kind

/-- No interval occurs. -/
def Pointed : Extended → Prop
  | .interval _ _ => False
  | .sum a b | .product a b => a.Pointed ∧ b.Pointed
  | _ => True

/-- No interval occurs inside the bounds of another one. -/
def Flat : Extended → Prop
  | .interval a b => a.Pointed ∧ b.Pointed
  | .sum a b | .product a b => a.Flat ∧ b.Flat
  | _ => True

/-- The results that are possible for an extended value. -/
def denote (S : Scale K) : Extended → Possible K
  | .finite v => {some (.finite (v.number S))}
  | .posInfinity _ => {some .posInfinity}
  | .negInfinity _ => {some .negInfinity}
  | .epsilon _ => {some (.finite S.epsilon)}
  | .interval low high => .between (low.denote S) (high.denote S)
  | .sum a b => .add (a.denote S) (b.denote S)
  | .product a b => .mul (a.denote S) (b.denote S)

variable {kind : Kind} {e a b : Extended}

theorem Over.kind_eq (one : e.Over kind) : e.kind = kind := by
  induction e with
  | finite v => exact one
  | posInfinity k | negInfinity k | epsilon k => exact one
  | interval a b iha _ | sum a b iha _ | product a b iha _ => exact iha one.1

theorem Pointed.flat (pointed : e.Pointed) : e.Flat := by
  induction e with
  | interval a b => cases pointed
  | sum a b iha ihb | product a b iha ihb => exact ⟨iha pointed.1, ihb pointed.2⟩
  | finite v | posInfinity k | negInfinity k | epsilon k => trivial

/-- Without an interval there is one result. -/
theorem Pointed.denote (S : Scale K) (pointed : e.Pointed) : ∃ o, e.denote S = {o} := by
  induction e with
  | finite v | posInfinity k | negInfinity k | epsilon k => exact ⟨_, rfl⟩
  | interval a b => cases pointed
  | sum a b iha ihb =>
    obtain ⟨o, ho⟩ := iha pointed.1
    obtain ⟨u, hu⟩ := ihb pointed.2
    exact ⟨o.add u, by rw [Extended.denote, ho, hu, Possible.add_singleton]⟩
  | product a b iha ihb =>
    obtain ⟨o, ho⟩ := iha pointed.1
    obtain ⟨u, hu⟩ := ihb pointed.2
    exact ⟨o.mul u, by rw [Extended.denote, ho, hu, Possible.mul_singleton]⟩

theorem over_minusOneTimes (one : e.Over kind) : (minusOneTimes e).Over kind := by
  rw [minusOneTimes]
  split
  · next v minusOne => exact ⟨(Value.kind_constant? minusOne).trans one.kind_eq, one⟩
  · exact one

theorem Over.negate (one : e.Over kind) : e.negate.Over kind := by
  induction e with
  | posInfinity k | negInfinity k => exact one
  | epsilon k => exact over_minusOneTimes one
  | finite v =>
    rw [Extended.negate]
    cases negation : v.neg? with
    | none => exact over_minusOneTimes one
    | some w => exact (Value.kind_neg? negation).trans one
  | interval a b iha ihb => exact ⟨ihb one.2, iha one.1⟩
  | sum a b iha ihb => exact ⟨iha one.1, ihb one.2⟩
  | product a b iha _ => exact ⟨iha one.1, one.2⟩

/-- Only at one kind does negating overflow. -/
theorem Over.kind_of_negateOverflows (one : e.Over kind) (overflow : e.negateOverflows = true) :
    kind = .int 0 := by
  induction e with
  | finite v | posInfinity k | negInfinity k => cases overflow
  | epsilon k =>
    obtain rfl : k = kind := one
    exact Kind.lacksSign_iff.mp overflow
  | interval a b iha ihb | sum a b iha ihb =>
    rcases (Bool.or_eq_true _ _).mp overflow with first | second
    · exact iha one.1 first
    · exact ihb one.2 second
  | product a b iha _ => exact iha one.1 overflow

theorem Pointed.minusOneTimes (pointed : e.Pointed) : (minusOneTimes e).Pointed := by
  rw [Extended.minusOneTimes]
  split
  · exact ⟨trivial, pointed⟩
  · exact pointed

theorem Pointed.negate (pointed : e.Pointed) : e.negate.Pointed := by
  induction e with
  | posInfinity k | negInfinity k => trivial
  | epsilon k => exact Pointed.minusOneTimes (e := .epsilon k) trivial
  | finite v =>
    rw [Extended.negate]
    cases v.neg? with
    | none => exact Pointed.minusOneTimes (e := .finite v) trivial
    | some w => trivial
  | interval a b => cases pointed
  | sum a b iha ihb => exact ⟨iha pointed.1, ihb pointed.2⟩
  | product a b iha _ => exact ⟨iha pointed.1, pointed.2⟩

theorem Flat.negate (flat : e.Flat) : e.negate.Flat := by
  induction e with
  | posInfinity k | negInfinity k => trivial
  | epsilon k => exact (Pointed.negate (e := .epsilon k) trivial).flat
  | finite v => exact (Pointed.negate (e := .finite v) trivial).flat
  | interval a b => exact ⟨flat.2.negate, flat.1.negate⟩
  | sum a b iha ihb => exact ⟨iha flat.1, ihb flat.2⟩
  | product a b iha _ => exact ⟨iha flat.1, flat.2⟩

section Denotation

variable [IsStrictOrderedRing K] (S : Scale K)

theorem denote_minusOneTimes (numeric : kind.Numeric) (one : e.Over kind) :
    (minusOneTimes e).denote S = (e.denote S).neg := by
  obtain ⟨v, minusOne, _, number⟩ := Value.constant?_minusOne numeric
  have value : v.number S = -1 := by simp [Value.number, number, AlgReal.number]
  simp only [minusOneTimes, one.kind_eq, minusOne, denote, value]
  exact Possible.neg_one_mul _

/-- Negating a value negates what it stands for. -/
theorem denote_negate (numeric : kind.Numeric) (one : e.Over kind) :
    e.negate.denote S = (e.denote S).neg := by
  induction e with
  | posInfinity k | negInfinity k =>
    rw [negate, denote, denote, Possible.neg_singleton]
    rfl
  | epsilon k => exact denote_minusOneTimes S numeric one
  | finite v =>
    rw [negate]
    cases negation : v.neg? with
    | none => exact denote_minusOneTimes S numeric one
    | some w =>
      have real : v.asReal.neg? = some w.asReal := by
        rw [← Value.asReal_neg? numeric one, negation, Option.map_some]
      have value : w.number S = -v.number S := AlgReal.number_neg? S real
      rw [denote, denote, value, Possible.neg_singleton]
      rfl
  | interval a b iha ihb =>
    rw [negate, denote, denote, iha one.1, ihb one.2, Possible.neg_between]
  | sum a b iha ihb => rw [negate, denote, denote, iha one.1, ihb one.2, Possible.neg_add]
  | product a b iha _ => rw [negate, denote, denote, iha one.1, Possible.neg_mul]

theorem denote_finite_add {x y z : Value} (numeric : kind.Numeric) (hx : x.kind = kind)
    (hy : y.kind = kind) (sum : x.add? y = some z) :
    denote S (.finite z) = denote S (.sum (.finite x) (.finite y)) := by
  have real : x.asReal.add? y.asReal = some z.asReal := by
    rw [← Value.asReal_add? numeric hx hy, sum, Option.map_some]
  have value : z.number S = x.number S + y.number S := AlgReal.number_add? S real
  simp only [denote, value, Possible.add_singleton]
  rfl

theorem denote_finite_mul {x y z : Value} (numeric : kind.Numeric) (hx : x.kind = kind)
    (hy : y.kind = kind) (product : x.mul? y = some z) :
    denote S (.finite z) = denote S (.product (.finite x) (.finite y)) := by
  have real : x.asReal.mul? y.asReal = some z.asReal := by
    rw [← Value.asReal_mul? numeric hx hy, product, Option.map_some]
  have value : z.number S = x.number S * y.number S := AlgReal.number_mul? S real
  simp only [denote, value, Possible.mul_singleton]
  rfl

theorem denote_zero {x : Value} (numeric : kind.Numeric) (hx : x.kind = kind)
    (zero : x.isZero = true) : denote S (.finite x) = {some (.finite 0)} := by
  have sign : x.asReal.signum? = some .eq := by
    rw [← Value.asReal_signum? numeric hx]
    simpa [Value.isZero] using zero
  have value : x.number S = 0 := compare_eq_iff_eq.mp (AlgReal.number_signum? S sign)
  rw [denote, value]

omit [IsStrictOrderedRing K] in
theorem denote_one {x : Value} (numeric : kind.Numeric) (hx : x.kind = kind)
    (one : x.isOne = true) : denote S (.finite x) = {some (.finite 1)} := by
  have value : x.number S = 1 := by
    simp [Value.number, Value.asReal_of_isOne numeric hx one, AlgReal.number]
  rw [denote, value]

omit [IsStrictOrderedRing K] in
/-- An infinity absorbs a number and an infinitesimal. -/
theorem denote_absorbed (infinite : a.isInfinite = true) (absorbed : b.isAbsorbed = true) :
    Possible.add (a.denote S) (b.denote S) = a.denote S := by
  cases a <;> cases infinite <;> cases b <;> cases absorbed <;>
    exact Possible.add_singleton _ _

/-- A number times an infinity. -/
theorem denote_scaleInfinity {x : Value} (numeric : kind.Numeric) (hx : x.kind = kind)
    (infinite : a.isInfinite = true) :
    (scaleInfinity x a).denote S = denote S (.product (.finite x) a) := by
  have sign : ∀ o, x.signum? = some o → compare (x.number S) 0 = o := by
    intro o known
    rw [Value.asReal_signum? numeric hx] at known
    exact AlgReal.number_signum? S known
  unfold scaleInfinity
  split
  · next above =>
    have positive : 0 < x.number S := compare_gt_iff_gt.mp (sign _ above)
    cases a <;> cases infinite <;>
      simp [denote, Possible.mul_singleton, Result.mul, Point.mul?, Point.scaled?, positive]
  · next below =>
    have negative : x.number S < 0 := compare_lt_iff_lt.mp (sign _ below)
    cases a <;> cases infinite <;>
      simp [negate, denote, Possible.mul_singleton, Result.mul, Point.mul?, Point.scaled?,
        Point.neg, negative, negative.not_gt]
  · rfl

theorem denote_simplifySum (numeric : kind.Numeric) (ha : a.Over kind) (hb : b.Over kind) :
    (simplifySum a b).denote S = denote S (.sum a b) := by
  unfold simplifySum
  split
  · next x y =>
    cases sum : x.add? y with
    | none => rfl
    | some z => exact denote_finite_add S numeric ha hb sum
  · next x _ =>
    split
    · next zero => rw [denote, denote_zero S numeric ha zero, Possible.zero_add]
    · split
      · next infinite =>
        rw [denote, Possible.add_comm]
        exact (denote_absorbed S infinite rfl).symm
      · rfl
  · next y _ =>
    split
    · next zero =>
      rw [denote, denote_zero S numeric hb zero, Possible.add_comm, Possible.zero_add]
    · split
      · next infinite => exact (denote_absorbed S infinite rfl).symm
      · rfl
  · split
    · next both =>
      obtain ⟨infinite, absorbed⟩ := Bool.and_eq_true_iff.mp both
      exact (denote_absorbed S infinite absorbed).symm
    · split
      · next both =>
        obtain ⟨infinite, absorbed⟩ := Bool.and_eq_true_iff.mp both
        rw [denote, Possible.add_comm]
        exact (denote_absorbed S infinite absorbed).symm
      · rfl

theorem denote_simplifyProduct (numeric : kind.Numeric) (ha : a.Over kind) (hb : b.Over kind) :
    (simplifyProduct a b).denote S = denote S (.product a b) := by
  unfold simplifyProduct
  split
  · next x y =>
    cases product : x.mul? y with
    | none => rfl
    | some z => exact denote_finite_mul S numeric ha hb product
  · next x _ =>
    split
    · next one => rw [denote, denote_one S numeric ha one, Possible.one_mul]
    · split
      · next infinite => exact denote_scaleInfinity S numeric ha infinite
      · rfl
  · next y _ =>
    split
    · next one =>
      rw [denote, denote_one S numeric hb one, Possible.mul_comm, Possible.one_mul]
    · split
      · next infinite =>
        rw [denote, Possible.mul_comm]
        exact denote_scaleInfinity S numeric hb infinite
      · rfl
  · rfl

end Denotation

theorem Over.simplifySum (ha : a.Over kind) (hb : b.Over kind) :
    (Extended.simplifySum a b).Over kind := by
  unfold Extended.simplifySum
  split
  · next x y =>
    cases sum : x.add? y with
    | none => exact ⟨ha, hb⟩
    | some z => exact (Value.kind_add? sum).trans ha
  all_goals
    split_ifs
    all_goals first | exact ha | exact hb | exact ⟨ha, hb⟩

theorem Over.scaleInfinity {x : Value} (hx : (finite x).Over kind) (ha : a.Over kind)
    (infinite : a.isInfinite = true) : (Extended.scaleInfinity x a).Over kind := by
  unfold Extended.scaleInfinity
  split
  · exact ha
  · cases a <;> cases infinite <;> exact ha
  · exact ⟨hx, ha⟩

theorem Over.simplifyProduct (ha : a.Over kind) (hb : b.Over kind) :
    (Extended.simplifyProduct a b).Over kind := by
  unfold Extended.simplifyProduct
  split
  · next x y =>
    cases product : x.mul? y with
    | none => exact ⟨ha, hb⟩
    | some z => exact (Value.kind_mul? product).trans ha
  · split
    · exact hb
    · split
      · next infinite => exact ha.scaleInfinity hb infinite
      · exact ⟨ha, hb⟩
  · split
    · exact ha
    · split
      · next infinite => exact hb.scaleInfinity ha infinite
      · exact ⟨ha, hb⟩
  · exact ⟨ha, hb⟩

theorem Over.simplify (one : e.Over kind) : e.simplify.Over kind := by
  induction e with
  | finite v | posInfinity k | negInfinity k | epsilon k => exact one
  | interval a b iha ihb =>
    simp only [Extended.simplify]
    split
    · exact iha one.1
    · exact ⟨iha one.1, ihb one.2⟩
  | sum a b iha ihb => exact (iha one.1).simplifySum (ihb one.2)
  | product a b iha ihb => exact (iha one.1).simplifyProduct (ihb one.2)

/-- Simplifying a value keeps what it stands for. -/
theorem denote_simplify [IsStrictOrderedRing K] (S : Scale K) (numeric : kind.Numeric)
    (one : e.Over kind) (flat : e.Flat) : e.simplify.denote S = e.denote S := by
  induction e with
  | finite v | posInfinity k | negInfinity k | epsilon k => rfl
  | interval low high ihlow ihhigh =>
    have first := ihlow one.1 flat.1.flat
    have second := ihhigh one.2 flat.2.flat
    simp only [simplify]
    split
    · next same =>
      -- Two bounds that are the same tree stand for the same single result.
      obtain ⟨o, single⟩ := flat.1.denote S
      rw [denote, ← second, ← same, first, single, Possible.between_self]
    · rw [denote, denote, first, second]
  | sum a b iha ihb =>
    rw [simplify, denote_simplifySum S numeric one.1.simplify one.2.simplify, denote, denote,
      iha one.1 flat.1, ihb one.2 flat.2]
  | product a b iha ihb =>
    rw [simplify, denote_simplifyProduct S numeric one.1.simplify one.2.simplify, denote, denote,
      iha one.1 flat.1, ihb one.2 flat.2]

/-- The rational that sums and products of exact values come to. -/
def exactly? : Extended → Option Rat
  | .finite v => v.rational?
  | .sum a b => Option.map₂ (· + ·) a.exactly? b.exactly?
  | .product a b => Option.map₂ (· * ·) a.exactly? b.exactly?
  | _ => none

variable {p q : Rat}

theorem exactly?_sum (ha : a.exactly? = some p) (hb : b.exactly? = some q) :
    (sum a b).exactly? = some (p + q) :=
  Option.map₂_eq_some_iff.mpr ⟨p, q, ha, hb, rfl⟩

theorem exactly?_product (ha : a.exactly? = some p) (hb : b.exactly? = some q) :
    (product a b).exactly? = some (p * q) :=
  Option.map₂_eq_some_iff.mpr ⟨p, q, ha, hb, rfl⟩

theorem exactly?_negate (numeric : kind.Numeric) (one : e.Over kind)
    (exact : e.exactly? = some q) : e.negate.exactly? = some (-q) := by
  induction e generalizing q with
  | finite v =>
    obtain ⟨w, negation, _, rational⟩ := Value.rational?_neg numeric one exact
    simp only [negate, negation]
    exact rational
  | posInfinity k | negInfinity k | epsilon k | interval a b => cases exact
  | sum a b iha ihb =>
    obtain ⟨p, r, first, second, rfl⟩ := Option.map₂_eq_some_iff.mp exact
    rw [neg_add]
    exact exactly?_sum (iha one.1 first) (ihb one.2 second)
  | product a b iha _ =>
    obtain ⟨p, r, first, second, rfl⟩ := Option.map₂_eq_some_iff.mp exact
    rw [← neg_mul]
    exact exactly?_product (iha one.1 first) second

/-- Sums and products of exact values are simplified to their exact value. -/
theorem simplify_of_exactly? (numeric : kind.Numeric) (one : e.Over kind)
    (exact : e.exactly? = some q) :
    ∃ v, e.simplify = .finite v ∧ v.kind = kind ∧ v.rational? = some q := by
  induction e generalizing q with
  | finite v => exact ⟨v, rfl, one, exact⟩
  | posInfinity k | negInfinity k | epsilon k | interval a b => cases exact
  | sum a b iha ihb =>
    obtain ⟨p, r, first, second, rfl⟩ := Option.map₂_eq_some_iff.mp exact
    obtain ⟨x, left, hx, hp⟩ := iha one.1 first
    obtain ⟨y, right, hy, hr⟩ := ihb one.2 second
    obtain ⟨z, sum, hz, rational⟩ := Value.rational?_add numeric hx hy hp hr
    exact ⟨z, by simp [simplify, left, right, simplifySum, sum], hz, rational⟩
  | product a b iha ihb =>
    obtain ⟨p, r, first, second, rfl⟩ := Option.map₂_eq_some_iff.mp exact
    obtain ⟨x, left, hx, hp⟩ := iha one.1 first
    obtain ⟨y, right, hy, hr⟩ := ihb one.2 second
    obtain ⟨z, product, hz, rational⟩ := Value.rational?_mul numeric hx hy hp hr
    exact ⟨z, by simp [simplify, left, right, simplifyProduct, product], hz, rational⟩

end Extended

end SmtDialogue
