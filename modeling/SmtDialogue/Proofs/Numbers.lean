import SmtDialogue.Proofs.Points

/-!
# Numbers that values stand for

A value of the integers or the reals stands for a number of a scale. Where arithmetic on
such values has a result, it stands for what arithmetic on their numbers comes to, and
exact values always have a result.
-/

namespace SmtDialogue

universe u

variable {K : Type u} [Field K] [LinearOrder K]

namespace AlgReal

/-- The number that a real stands for; an approximation stands for itself. -/
def number (S : Scale K) : AlgReal → K
  | .exact q | .approximate q => q
  | .root coefficients index => S.root coefficients index

variable (S : Scale K) {r t w : AlgReal}

theorem number_neg? (negation : r.neg? = some w) : w.number S = -r.number S := by
  cases r <;> cases negation <;> exact Rat.cast_neg _

variable [IsStrictOrderedRing K]

theorem number_add? (sum : r.add? t = some w) : w.number S = r.number S + t.number S := by
  cases r <;> cases t <;> cases sum
  exact Rat.cast_add _ _

theorem number_mul? (product : r.mul? t = some w) : w.number S = r.number S * t.number S := by
  cases r <;> cases t <;> cases product
  exact Rat.cast_mul _ _

theorem compare_cast (q : Rat) : compare (q : K) 0 = compare q.num 0 := by
  rcases lt_trichotomy q 0 with below | rfl | above
  · exact (compare_lt_iff_lt.mpr (Rat.cast_lt_zero.mpr below)).trans
      (compare_lt_iff_lt.mpr (Rat.num_neg.mpr below)).symm
  · simp
  · exact (compare_gt_iff_gt.mpr (Rat.cast_pos.mpr above)).trans
      (compare_gt_iff_gt.mpr (Rat.num_pos.mpr above)).symm

/-- The sign of a real, where it is known, is that of its number. -/
theorem number_signum? {sign : Ordering} (known : r.signum? = some sign) :
    compare (r.number S) 0 = sign := by
  cases r <;> cases known <;> exact compare_cast _

end AlgReal

/-- The kinds whose values are numbers of a scale. -/
inductive Kind.Numeric : Kind → Prop where
  | integer : Numeric .integer
  | real : Numeric .real

namespace Value

/-- A value of a numeric kind as a real. -/
def asReal (v : Value) : AlgReal :=
  match v.payload with
  | .integer i => .ofInt i
  | .real r => r
  | _ => .ofInt 0

/-- The number that a value of a numeric kind stands for. -/
def number (S : Scale K) (v : Value) : K :=
  v.asReal.number S

/-- The rational that a value of a numeric kind is known to be. -/
def rational? (v : Value) : Option Rat :=
  v.asReal.rational?

theorem of_integer {v : Value} (kind : v.kind = .integer) : ∃ i, v = ofInteger i := by
  obtain ⟨_, payload, fits⟩ := v
  cases kind
  cases payload <;> cases fits
  exact ⟨_, rfl⟩

theorem of_real {v : Value} (kind : v.kind = .real) : ∃ r, v = ofReal r := by
  obtain ⟨_, payload, fits⟩ := v
  cases kind
  cases payload <;> cases fits
  exact ⟨_, rfl⟩

theorem kind_ofPayload? {kind : Kind} {payload : Payload} {v : Value}
    (holds : ofPayload? kind payload = some v) : v.kind = kind :=
  (ofPayload?_eq_some.mp holds).1

theorem kind_constant? {kind : Kind} {n : Int} {v : Value} (constant : constant? kind n = some v) :
    v.kind = kind := by
  cases kind with
  | bits | integer | real | float | double => exact kind_ofPayload? constant
  | bool | string | char | sort => cases constant

variable {kind : Kind} {x y : Value}

theorem kind_add? {z : Value} (sum : x.add? y = some z) : z.kind = x.kind := by
  rw [add?] at sum
  split at sum
  · obtain ⟨_, _, holds⟩ := Option.bind_eq_some_iff.mp sum
    exact kind_ofPayload? holds
  · cases sum

theorem kind_mul? {z : Value} (product : x.mul? y = some z) : z.kind = x.kind := by
  rw [mul?] at product
  split at product
  · obtain ⟨_, _, holds⟩ := Option.bind_eq_some_iff.mp product
    exact kind_ofPayload? holds
  · cases product

theorem kind_neg? {z : Value} (negation : x.neg? = some z) : z.kind = x.kind := by
  obtain ⟨_, _, holds⟩ := Option.bind_eq_some_iff.mp negation
  exact kind_ofPayload? holds

/-- Arithmetic on values of a numeric kind is that on reals. -/
theorem asReal_add? (numeric : kind.Numeric) (hx : x.kind = kind) (hy : y.kind = kind) :
    (x.add? y).map asReal = x.asReal.add? y.asReal := by
  cases numeric with
  | integer =>
    obtain ⟨i, rfl⟩ := of_integer hx
    obtain ⟨j, rfl⟩ := of_integer hy
    exact congrArg (fun q => some (AlgReal.exact q)) (Rat.intCast_add i j)
  | real =>
    obtain ⟨r, rfl⟩ := of_real hx
    obtain ⟨t, rfl⟩ := of_real hy
    cases r <;> cases t <;> rfl

theorem asReal_mul? (numeric : kind.Numeric) (hx : x.kind = kind) (hy : y.kind = kind) :
    (x.mul? y).map asReal = x.asReal.mul? y.asReal := by
  cases numeric with
  | integer =>
    obtain ⟨i, rfl⟩ := of_integer hx
    obtain ⟨j, rfl⟩ := of_integer hy
    exact congrArg (fun q => some (AlgReal.exact q)) (Rat.intCast_mul i j)
  | real =>
    obtain ⟨r, rfl⟩ := of_real hx
    obtain ⟨t, rfl⟩ := of_real hy
    cases r <;> cases t <;> rfl

theorem asReal_neg? (numeric : kind.Numeric) (hx : x.kind = kind) :
    x.neg?.map asReal = x.asReal.neg? := by
  cases numeric with
  | integer =>
    obtain ⟨i, rfl⟩ := of_integer hx
    exact congrArg (fun q => some (AlgReal.exact q)) (Rat.intCast_neg i)
  | real =>
    obtain ⟨r, rfl⟩ := of_real hx
    cases r <;> rfl

theorem asReal_signum? (numeric : kind.Numeric) (hx : x.kind = kind) :
    x.signum? = x.asReal.signum? := by
  cases numeric with
  | integer =>
    obtain ⟨i, rfl⟩ := of_integer hx
    rfl
  | real =>
    obtain ⟨r, rfl⟩ := of_real hx
    rfl

theorem asReal_of_isOne (numeric : kind.Numeric) (hx : x.kind = kind) (one : x.isOne = true) :
    x.asReal = .exact 1 := by
  cases numeric with
  | integer =>
    obtain ⟨i, rfl⟩ := of_integer hx
    obtain rfl : i = 1 := by simpa [isOne, ofInteger] using one
    rfl
  | real =>
    obtain ⟨r, rfl⟩ := of_real hx
    cases r <;> simp_all [isOne, ofReal, asReal]

theorem rational?_eq_some_iff {q : Rat} : x.rational? = some q ↔ x.asReal = .exact q := by
  unfold rational?
  cases x.asReal <;> simp [AlgReal.rational?]

/-- Exact values have an exact sum, product and negation. -/
theorem rational?_add (numeric : kind.Numeric) (hx : x.kind = kind) (hy : y.kind = kind)
    {p q : Rat} (left : x.rational? = some p) (right : y.rational? = some q) :
    ∃ z, x.add? y = some z ∧ z.kind = kind ∧ z.rational? = some (p + q) := by
  have reals := asReal_add? numeric hx hy
  rw [rational?_eq_some_iff.mp left, rational?_eq_some_iff.mp right] at reals
  obtain ⟨z, sum, value⟩ := Option.map_eq_some_iff.mp reals
  exact ⟨z, sum, (kind_add? sum).trans hx, rational?_eq_some_iff.mpr value⟩

theorem rational?_mul (numeric : kind.Numeric) (hx : x.kind = kind) (hy : y.kind = kind)
    {p q : Rat} (left : x.rational? = some p) (right : y.rational? = some q) :
    ∃ z, x.mul? y = some z ∧ z.kind = kind ∧ z.rational? = some (p * q) := by
  have reals := asReal_mul? numeric hx hy
  rw [rational?_eq_some_iff.mp left, rational?_eq_some_iff.mp right] at reals
  obtain ⟨z, product, value⟩ := Option.map_eq_some_iff.mp reals
  exact ⟨z, product, (kind_mul? product).trans hx, rational?_eq_some_iff.mpr value⟩

theorem rational?_neg (numeric : kind.Numeric) (hx : x.kind = kind) {q : Rat}
    (exact : x.rational? = some q) :
    ∃ z, x.neg? = some z ∧ z.kind = kind ∧ z.rational? = some (-q) := by
  have reals := asReal_neg? numeric hx
  rw [rational?_eq_some_iff.mp exact] at reals
  obtain ⟨z, negation, value⟩ := Option.map_eq_some_iff.mp reals
  exact ⟨z, negation, (kind_neg? negation).trans hx, rational?_eq_some_iff.mpr value⟩

/-- There is a value that stands for minus one. -/
theorem constant?_minusOne (numeric : kind.Numeric) :
    ∃ v, constant? kind (-1) = some v ∧ v.kind = kind ∧ v.asReal = .exact (-1) := by
  cases numeric <;> exact ⟨_, rfl, rfl, rfl⟩

end Value

end SmtDialogue
