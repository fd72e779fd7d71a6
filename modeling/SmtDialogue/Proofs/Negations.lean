import SmtDialogue.Proofs.Residues
import SmtDialogue.Proofs.Uniform

/-!
# Negating twice

A value that can be negated is the negative of its negative, whatever its kind. Where there
is no negative, the tree is multiplied by minus one, and the second negation makes a one of
this. Simplifying takes the one away, except beside the root of a polynomial: two numbers
that cannot be multiplied stay a product, even if the first is one. So two negations cancel
exactly in the trees where none of them reaches a root.
-/

namespace SmtDialogue

namespace Ieee

variable {f : Format} {p n : Nat}

theorem neg_of_lt (positive : p < f.signWeight) : neg f p = f.signWeight + p := by
  have plus : f.isNegative p = false := by simp [Format.isNegative, Nat.div_eq_of_lt positive]
  simp [neg, Format.unsigned, plus, Format.signed, Nat.mod_eq_of_lt positive]

theorem neg_add_of_lt (positive : p < f.signWeight) : neg f (f.signWeight + p) = p := by
  have one : (f.signWeight + p) / f.signWeight = 1 := by
    rw [Nat.add_div_left p (by omega), Nat.div_eq_of_lt positive]
  have minus : f.isNegative (f.signWeight + p) = true := by simp [Format.isNegative, one]
  simp [neg, Format.unsigned, minus, Format.signed, Nat.mod_eq_of_lt positive]

/-- Changing the sign of a word twice gives the same bits, those of a NaN included. -/
theorem ofNat_neg_neg (size : 2 * f.signWeight = 2 ^ n) (bits : BitVec n) :
    BitVec.ofNat n (neg f (BitVec.ofNat n (neg f bits.toNat)).toNat) = bits := by
  have bound : bits.toNat < 2 * f.signWeight := size ▸ bits.isLt
  refine BitVec.eq_of_toNat_eq ?_
  by_cases positive : bits.toNat < f.signWeight
  · have fits : f.signWeight + bits.toNat < 2 ^ n := by omega
    rw [neg_of_lt positive, BitVec.toNat_ofNat, BitVec.toNat_ofNat, Nat.mod_eq_of_lt fits,
      neg_add_of_lt positive, Nat.mod_eq_of_lt bits.isLt]
  · obtain ⟨q, split⟩ := Nat.exists_eq_add_of_le (Nat.le_of_not_lt positive)
    have small : q < f.signWeight := by omega
    have fits : q < 2 ^ n := by omega
    rw [split, neg_add_of_lt small, BitVec.toNat_ofNat, BitVec.toNat_ofNat,
      Nat.mod_eq_of_lt fits, neg_of_lt small, Nat.mod_eq_of_lt (split ▸ bits.isLt)]

end Ieee

/-- One is a number of every fixed-width kind but those that have a single bit for the sign, or
none. -/
theorem Kind.wrap_one {signed : Bool} {width : UInt32} (some : width ≠ 0)
    (twoBits : ¬(signed = true ∧ width = 1)) : wrap signed width.toNat 1 = 1 := by
  have positive : 0 < width := UInt32.pos_iff_ne_zero.mpr some
  have bit : 0 < width.toNat := UInt32.lt_iff_toNat_lt.mp positive
  cases signed with
  | false =>
    have two : 1 < 1 <<< width.toNat := by
      rw [Nat.one_shiftLeft]
      exact Nat.one_lt_two_pow (by omega)
    exact (wrap_eq_self_iff positive rfl).mpr ⟨by omega, by omega⟩
  | true =>
    have second : width.toNat ≠ 1 := fun one =>
      twoBits ⟨rfl, UInt32.toNat_inj.mp (by simpa using one)⟩
    have two : 1 < 1 <<< (width.toNat - 1) := by
      rw [Nat.one_shiftLeft]
      exact Nat.one_lt_two_pow (by omega)
    have range : (bits true width).bounds? = Option.some
        (-((1 <<< (width.toNat - 1) : Nat) : Int), ((1 <<< (width.toNat - 1) : Nat) : Int) - 1) :=
      if_neg some
    exact (wrap_eq_self_iff positive range).mpr ⟨by omega, by omega⟩

namespace Value

/-- A real that is the root of a polynomial. -/
def isRoot (v : Value) : Bool :=
  match v.payload with
  | .real (.root _ _) => true
  | _ => false

def ofFloat (bits : BitVec 32) : Value := ⟨.float, .float bits, rfl⟩

def ofDouble (bits : BitVec 64) : Value := ⟨.double, .double bits, rfl⟩

/-- The forms of numbers, and the values that have no arithmetic. -/
inductive Form : Value → Prop
  | bits (signed : Bool) (width : UInt32) (i : Int)
    (sized : (Kind.bits signed width).lacksSign = false) : Form (ofBits signed width i sized)
  | integer (i : Int) : Form (ofInteger i)
  | real (r : AlgReal) : Form (ofReal r)
  | float (bits : BitVec 32) : Form (ofFloat bits)
  | double (bits : BitVec 64) : Form (ofDouble bits)
  | other {v : Value} (noRoot : v.isRoot = false) (noNegative : v.neg? = none)
    (noConstant : ∀ n, constant? v.kind n = none) : Form v

theorem form (v : Value) : Form v := by
  obtain ⟨kind, payload, fits⟩ := v
  cases kind with
  | bits signed width =>
    cases payload with
    | integer i =>
      obtain ⟨sized, kept⟩ := Kind.wrap?_eq_some.mp (by simpa [Payload.fits] using fits)
      have same : ofBits signed width i sized = ⟨.bits signed width, .integer i, fits⟩ := by
        simp only [ofBits, kept]
      exact same ▸ .bits signed width i sized
    | _ => cases fits
  | integer =>
    obtain ⟨i, same⟩ := of_integer (v := ⟨.integer, payload, fits⟩) rfl
    exact same ▸ .integer i
  | real =>
    obtain ⟨r, same⟩ := of_real (v := ⟨.real, payload, fits⟩) rfl
    exact same ▸ .real r
  | float =>
    cases payload with
    | float bits => exact .float bits
    | _ => cases fits
  | double =>
    cases payload with
    | double bits => exact .double bits
    | _ => cases fits
  | bool | string | char | sort =>
    cases payload with
    | bool | string | char | element => exact .other rfl rfl fun _ => rfl
    | integer | real | float | double => simp [Payload.fits] at fits

variable {kind : Kind} {v w x y z : Value}

theorem eq_ofReal_of_isRoot (root : v.isRoot = true) :
    ∃ coefficients index, v = ofReal (.root coefficients index) := by
  cases form v with
  | real r =>
    cases r with
    | root coefficients index => exact ⟨coefficients, index, rfl⟩
    | exact | approximate => cases root
  | bits | integer | float | double => cases root
  | other noRoot => cases noRoot.symm.trans root

/-- A value that has a negative is the negative of this. -/
theorem neg?_neg? (negation : v.neg? = some w) : w.neg? = some v := by
  cases form v with
  | bits signed width i sized =>
    cases (neg?_ofBits sized i).symm.trans negation
    rw [neg?_ofBits, neg_neg]
  | integer i =>
    cases negation
    exact congrArg (fun j => some (ofInteger j)) (neg_neg i)
  | real r =>
    cases r with
    | exact q =>
      cases negation
      exact congrArg (fun p => some (ofReal (.exact p))) (neg_neg q)
    | approximate q =>
      cases negation
      exact congrArg (fun p => some (ofReal (.approximate p))) (neg_neg q)
    | root => cases negation
  | float bits =>
    cases negation
    exact congrArg (fun b => some (ofFloat b)) (Ieee.ofNat_neg_neg (f := Ieee.single) rfl bits)
  | double bits =>
    cases negation
    exact congrArg (fun b => some (ofDouble b)) (Ieee.ofNat_neg_neg (f := Ieee.double) rfl bits)
  | other _ noNegative => cases noNegative.symm.trans negation

/-- Besides roots, only the values of kinds without numbers have no negative. -/
theorem constant?_of_neg? (noRoot : v.isRoot = false) (noNegative : v.neg? = none) (n : Int) :
    constant? v.kind n = none := by
  cases form v with
  | bits signed width i sized => cases (neg?_ofBits sized i).symm.trans noNegative
  | real r =>
    cases r with
    | root => cases noRoot
    | exact | approximate => cases noNegative
  | integer | float | double => cases noNegative
  | other _ _ noConstant => exact noConstant n

/-- In a kind that tells one from minus one, minus one is negated to one. -/
theorem exists_one (wide : kind.width? ≠ some 0) (twoBits : kind ≠ .int 1)
    (minusOne : constant? kind (-1) = some v) : ∃ w, v.neg? = some w ∧ w.isOne = true := by
  cases kind with
  | bits signed width =>
    have positive : width ≠ 0 := fun zero => wide (congrArg some zero)
    have sized := Kind.sized_of_pos signed (UInt32.pos_iff_ne_zero.mpr positive)
    cases (ofPayload?_bits sized (-1)).symm.trans minusOne
    refine ⟨_, neg?_ofBits sized (-1), ?_⟩
    have kept : Kind.wrap signed width.toNat 1 = 1 :=
      Kind.wrap_one positive fun both => twoBits (by rw [both.1, both.2])
    simp [isOne, ofBits, kept]
  | integer | real =>
    cases minusOne
    exact ⟨_, rfl, rfl⟩
  | float | double =>
    cases minusOne
    exact ⟨_, rfl, by decide +kernel⟩
  | bool | string | char | sort => cases minusOne

/-- A root can be neither added nor multiplied. -/
theorem isRoot_eq_false_of_add? (sum : x.add? y = some z) :
    x.isRoot = false ∧ y.isRoot = false := by
  rw [add?] at sum
  split at sum
  · obtain ⟨payload, known, -⟩ := Option.bind_eq_some_iff.mp sum
    unfold sum? at known
    split at known
    · next i j hx hy => simp [isRoot, hx, hy]
    · next r t hx hy =>
      cases r <;> cases t <;> cases known
      simp [isRoot, hx, hy]
    · next hx hy => simp [isRoot, hx, hy]
    · next hx hy => simp [isRoot, hx, hy]
    · cases known
  · cases sum

theorem isRoot_eq_false_of_mul? (product : x.mul? y = some z) :
    x.isRoot = false ∧ y.isRoot = false := by
  rw [mul?] at product
  split at product
  · obtain ⟨payload, known, -⟩ := Option.bind_eq_some_iff.mp product
    unfold product? at known
    split at known
    · next i j hx hy => simp [isRoot, hx, hy]
    · next r t hx hy =>
      cases r <;> cases t <;> cases known
      simp [isRoot, hx, hy]
    · next hx hy => simp [isRoot, hx, hy]
    · next hx hy => simp [isRoot, hx, hy]
    · cases known
  · cases product

end Value

namespace Extended

/-- Two negations reach the root of a polynomial. They reach every leaf that is not behind the
first factor of a product. -/
def Rooted : Extended → Prop
  | .finite v => v.isRoot = true
  | .interval a b | .sum a b => a.Rooted ∨ b.Rooted
  | .product a _ => a.Rooted
  | .posInfinity _ | .negInfinity _ | .epsilon _ => False

variable {kind : Kind} {a b e : Extended} {v x y z : Value}

theorem negate_negate_finite (noRoot : v.isRoot = false) :
    (finite v).negate.negate = finite v := by
  cases negation : v.neg? with
  | some w => simp only [negate, negation, Value.neg?_neg? negation]
  | none =>
    have same : (finite v).negate = finite v := by
      simp only [negate, negation, minusOneTimes, Extended.kind,
        Value.constant?_of_neg? noRoot negation]
    rw [same, same]

/-- A root is multiplied by minus one and then by one, which stays. -/
theorem simplify_negate_negate_root (root : v.isRoot = true) :
    (finite v).negate.negate.simplify = .product (.finite (.ofReal (.exact 1))) (.finite v) := by
  obtain ⟨coefficients, index, rfl⟩ := Value.eq_ofReal_of_isRoot root
  rfl

theorem simplify_negate_negate_epsilon (wide : kind.width? ≠ some 0) (twoBits : kind ≠ .int 1) :
    (epsilon kind).negate.negate.simplify = .epsilon kind := by
  cases constant : Value.constant? kind (-1) with
  | none => simp only [negate, minusOneTimes, Extended.kind, constant, simplify]
  | some minusOne =>
    obtain ⟨one, negation, isOne⟩ := Value.exists_one wide twoBits constant
    simp [negate, minusOneTimes, Extended.kind, constant, negation, simplify, simplifyProduct,
      isOne]

/-- Where they reach no root, two negations cancel. -/
theorem simplify_negate_negate (wide : kind.width? ≠ some 0) (twoBits : kind ≠ .int 1)
    (one : e.Over kind) (free : ¬e.Rooted) : e.negate.negate.simplify = e.simplify := by
  induction e with
  | finite v => rw [negate_negate_finite (by simpa [Rooted] using free)]
  | posInfinity k | negInfinity k => rfl
  | epsilon k =>
    obtain rfl : k = kind := one
    exact simplify_negate_negate_epsilon wide twoBits
  | interval a b iha ihb =>
    obtain ⟨first, last⟩ := not_or.mp free
    simp only [negate, simplify, iha one.1 first, ihb one.2 last]
  | sum a b iha ihb =>
    obtain ⟨first, last⟩ := not_or.mp free
    simp only [negate, simplify, iha one.1 first, ihb one.2 last]
  | product a b iha _ => simp only [negate, simplify, iha one.1 free]

/-- A number that is not a root. -/
def isPlain : Extended → Bool
  | .finite v => !v.isRoot
  | _ => false

/-- A number that is a root. -/
def isRoot : Extended → Bool
  | .finite v => v.isRoot
  | _ => false

/-- Counts the products of a plain number and a root. Bounds of an interval count half each,
so that an interval with equal bounds counts as its bound. -/
def weight : Extended → Rat
  | .interval a b => (a.weight + b.weight) / 2
  | .sum a b => a.weight + b.weight
  | .product a b => a.weight + b.weight + if a.isPlain && b.isRoot then 1 else 0
  | _ => 0

theorem isPlain_eq_false (other : e.isFinite = false) : e.isPlain = false := by
  cases e with
  | finite => cases other
  | _ => rfl

theorem isRoot_eq_false (other : e.isFinite = false) : e.isRoot = false := by
  cases e with
  | finite => cases other
  | _ => rfl

theorem isFinite_of_isInfinite (infinite : e.isInfinite = true) : e.isFinite = false := by
  obtain ⟨k, rfl | rfl⟩ := eq_leaf_of_isInfinite infinite <;> rfl

theorem weight_of_isInfinite (infinite : e.isInfinite = true) : e.weight = 0 := by
  obtain ⟨k, rfl | rfl⟩ := eq_leaf_of_isInfinite infinite <;> rfl

theorem weight_of_isAbsorbed (absorbed : e.isAbsorbed = true) : e.weight = 0 := by
  cases e <;> cases absorbed <;> rfl

/-- No rule changes the weight of the node that it applies to. -/
theorem Rule.weight_eq (rule : Rule a b) : b.weight = a.weight := by
  cases rule with
  | interval | added | zeroFirst | zeroLast => simp [weight]
  | absorbsLast infinite absorbed | absorbsFirst infinite absorbed =>
    simp [weight, weight_of_isInfinite infinite, weight_of_isAbsorbed absorbed]
  | multiplied product =>
    simp [weight, isRoot, (Value.isRoot_eq_false_of_mul? product).2]
  | oneFirst _ other => simp [weight, isRoot_eq_false other]
  | oneLast _ other => simp [weight, isPlain_eq_false other]
  | scaledFirst infinite sign | scaledLast infinite sign =>
    have zero : b.weight = 0 := by
      rcases sign with ⟨_, rfl⟩ | ⟨_, rfl⟩
      · exact weight_of_isInfinite infinite
      · exact weight_of_isInfinite (isInfinite_negate infinite)
    have apart := isFinite_of_isInfinite infinite
    simp [weight, zero, weight_of_isInfinite infinite, isRoot_eq_false apart,
      isPlain_eq_false apart]
  | turned infinite =>
    have apart := isFinite_of_isInfinite infinite
    simp [weight, isRoot_eq_false apart, isPlain_eq_false apart, add_comm]

theorem weight_simplifySum (a b : Extended) :
    (simplifySum a b).weight = a.weight + b.weight := by
  rcases rule_simplifySum a b with rule | ⟨same, _⟩
  · exact rule.weight_eq
  · rw [same, weight]

theorem weight_simplifyProduct (a b : Extended) :
    (simplifyProduct a b).weight = (product a b).weight := by
  rcases rule_simplifyProduct a b with rule | ⟨same, _⟩
  · exact rule.weight_eq
  · rw [same]

theorem weight_simplify_interval (a b : Extended) :
    (interval a b).simplify.weight = (a.simplify.weight + b.simplify.weight) / 2 := by
  simp only [simplify]
  split
  · next same => rw [← same, add_self_div_two]
  · rw [weight]

/-- Only plain numbers add up to a number. -/
theorem Rule.parts_of_sum (rule : Rule (.sum a b) (.finite z)) :
    ∃ x y, a = .finite x ∧ b = .finite y ∧ x.isRoot = false ∧ y.isRoot = false := by
  cases rule with
  | @added x y _ sum => exact ⟨x, y, rfl, rfl, Value.isRoot_eq_false_of_add? sum⟩
  | zeroFirst _ other | zeroLast _ other => cases other
  | absorbsLast infinite | absorbsFirst infinite => cases infinite

theorem Rule.parts_of_product (rule : Rule (.product a b) (.finite z)) :
    ∃ x y, a = .finite x ∧ b = .finite y ∧ x.isRoot = false ∧ y.isRoot = false := by
  cases rule with
  | @multiplied x y _ product => exact ⟨x, y, rfl, rfl, Value.isRoot_eq_false_of_mul? product⟩
  | oneFirst _ other | oneLast _ other => cases other
  | scaledFirst infinite sign | scaledLast infinite sign =>
    rcases sign with ⟨_, rfl⟩ | ⟨_, same⟩
    · cases infinite
    · have scaled := isInfinite_negate infinite
      rw [← same] at scaled
      cases scaled

/-- What is simplified to a plain number has no root that negations reach. -/
theorem not_rooted_of_simplify (result : e.simplify = .finite z) (plain : z.isRoot = false) :
    ¬e.Rooted := by
  induction e generalizing z with
  | finite v =>
    obtain rfl : v = z := Extended.finite.inj result
    simp [Rooted, plain]
  | posInfinity | negInfinity | epsilon => exact id
  | interval a b iha ihb =>
    simp only [simplify] at result
    split at result
    · next same => exact not_or.mpr ⟨iha result plain, ihb (same ▸ result) plain⟩
    · cases result
  | sum a b iha ihb =>
    rw [simplify] at result
    rcases rule_simplifySum a.simplify b.simplify with rule | ⟨same, _⟩
    · obtain ⟨x, y, first, last, hx, hy⟩ := Rule.parts_of_sum (result ▸ rule)
      exact not_or.mpr ⟨iha first hx, ihb last hy⟩
    · cases same.symm.trans result
  | product a b iha _ =>
    rw [simplify] at result
    rcases rule_simplifyProduct a.simplify b.simplify with rule | ⟨same, _⟩
    · obtain ⟨x, _, first, _, hx, _⟩ := Rule.parts_of_product (result ▸ rule)
      exact iha first hx
    · cases same.symm.trans result

theorem isPlain_simplify_of_rooted (rooted : e.Rooted) : e.simplify.isPlain = false := by
  cases result : e.simplify with
  | finite z =>
    by_contra plain
    exact not_rooted_of_simplify result (by simpa [isPlain] using plain) rooted
  | _ => rfl

/-- Where two negations reach a root, they leave more weight. In a product only the first factor
grows, and what negations reach in it is never a plain number, so the product itself counts
nothing before. -/
theorem weight_lt_of_rooted (wide : kind.width? ≠ some 0) (twoBits : kind ≠ .int 1)
    (one : e.Over kind) (rooted : e.Rooted) :
    e.simplify.weight < e.negate.negate.simplify.weight := by
  -- A part that negations reach no root in keeps its weight.
  have atMost : ∀ {a : Extended}, a.Over kind →
      (a.Rooted → a.simplify.weight < a.negate.negate.simplify.weight) →
      a.simplify.weight ≤ a.negate.negate.simplify.weight := by
    intro a one less
    by_cases rooted : a.Rooted
    · exact (less rooted).le
    · rw [simplify_negate_negate wide twoBits one rooted]
  induction e with
  | finite v =>
    have plain : (Value.ofReal (.exact 1)).isRoot = false := rfl
    have root : v.isRoot = true := rooted
    rw [simplify_negate_negate_root root]
    simp [simplify, weight, isPlain, isRoot, plain, root]
  | posInfinity | negInfinity | epsilon => cases rooted
  | interval a b iha ihb =>
    have first := atMost one.1 (iha one.1)
    have last := atMost one.2 (ihb one.2)
    rw [negate, negate, weight_simplify_interval, weight_simplify_interval]
    rcases rooted with rooted | rooted
    · linarith [iha one.1 rooted]
    · linarith [ihb one.2 rooted]
  | sum a b iha ihb =>
    have first := atMost one.1 (iha one.1)
    have last := atMost one.2 (ihb one.2)
    rw [negate, negate, simplify, simplify, weight_simplifySum, weight_simplifySum]
    rcases rooted with rooted | rooted
    · linarith [iha one.1 rooted]
    · linarith [ihb one.2 rooted]
  | product a b iha _ =>
    have grows := iha one.1 rooted
    rw [negate, negate, simplify, simplify, weight_simplifyProduct, weight_simplifyProduct,
      weight, weight, isPlain_simplify_of_rooted (e := a) rooted, Bool.false_and,
      if_neg Bool.false_ne_true]
    split <;> linarith

/-- In a tree of one kind that tells one from minus one, negating twice and simplifying comes to
the same as simplifying exactly when the negations reach no root of a polynomial. -/
theorem simplify_negate_negate_iff (wide : kind.width? ≠ some 0) (twoBits : kind ≠ .int 1)
    (one : e.Uniform kind) : e.negate.negate.simplify = e.simplify ↔ ¬e.Rooted := by
  have leaves := uniform_iff_over.mp one
  constructor
  · intro same rooted
    have grows := weight_lt_of_rooted wide twoBits leaves rooted
    rw [same] at grows
    exact lt_irrefl _ grows
  · exact simplify_negate_negate wide twoBits leaves

/-- A root in the second factor of a product is not negated. -/
theorem simplify_negate_negate_iff_behind :
    let e := Extended.product (.epsilon .real) (.finite (.ofReal (.root ⟨[-2, 0, 1], by decide⟩ 1)))
    e.Uniform .real ∧ e.negate.negate.simplify = e.simplify := by
  intro e
  have one : e.Uniform .real := uniform_iff_over.mpr ⟨rfl, rfl⟩
  exact ⟨one, (simplify_negate_negate_iff (by simp [Kind.width?]) (by simp) one).mpr id⟩

/-- The square root of two is left with a factor of one. -/
theorem negated_root_keeps_one :
    let root := Extended.finite (.ofReal (.root ⟨[-2, 0, 1], by decide⟩ 2))
    root.Uniform .real ∧ root.simplify = root ∧
      root.negate.negate.simplify = .product (.finite (.ofReal (.exact 1))) root ∧
      ¬∀ (kind : Kind) (e : Extended), kind.width? ≠ some 0 → kind ≠ .int 1 → e.Uniform kind →
        e.negate.negate.simplify = e.simplify := by
  intro root
  have one : root.Uniform .real := uniform_iff_over.mpr rfl
  have kept : root.negate.negate.simplify = .product (.finite (.ofReal (.exact 1))) root := rfl
  refine ⟨one, rfl, kept, fun cancels => ?_⟩
  have same := cancels .real root (by simp [Kind.width?]) (by simp) one
  rw [kept] at same
  cases same

end Extended

end SmtDialogue
