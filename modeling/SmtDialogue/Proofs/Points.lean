import Mathlib
import SmtDialogue.Value.Basic

/-!
# Points of an extended scale

The numbers of an ordered field that has a positive infinitesimal, and an infinity at each
end. Infinities of different signs have no sum, and zero and an infinity have no product;
that a result is undefined is itself one of the possible results.
-/

namespace SmtDialogue

universe u

/-- A positive infinitesimal of an ordered field, and a number for every root. -/
structure Scale (K : Type u) [Field K] [LinearOrder K] where
  epsilon : K
  positive : 0 < epsilon
  infinitesimal : ∀ n : ℕ, n * epsilon < 1
  root : Coefficients → UInt32 → K

inductive Point (K : Type u) where
  | negInfinity
  | finite (x : K)
  | posInfinity

/-- The result of arithmetic on points, or none where it is undefined. -/
abbrev Result (K : Type u) := Option (Point K)

/-- The results that are possible. -/
abbrev Possible (K : Type u) := Set (Result K)

variable {K : Type u}

section Field

variable [Field K]

namespace Point

def neg : Point K → Point K
  | .negInfinity => .posInfinity
  | .finite x => .finite (-x)
  | .posInfinity => .negInfinity

def add? : Point K → Point K → Result K
  | .finite x, .finite y => some (.finite (x + y))
  | .posInfinity, .negInfinity | .negInfinity, .posInfinity => none
  | .posInfinity, _ | _, .posInfinity => some .posInfinity
  | _, _ => some .negInfinity

@[simp] theorem neg_neg (x : Point K) : x.neg.neg = x := by
  cases x <;> simp [neg]

theorem neg_add? (x y : Point K) : (x.add? y).map neg = x.neg.add? y.neg := by
  cases x <;> cases y <;> simp [neg, add?, add_comm]

theorem zero_add? (x : Point K) : (finite 0).add? x = some x := by
  cases x <;> simp [add?]

theorem add?_comm (x y : Point K) : x.add? y = y.add? x := by
  cases x <;> cases y <;> simp [add?, add_comm]

end Point

namespace Result

def neg (a : Result K) : Result K :=
  a.map Point.neg

def add (a b : Result K) : Result K :=
  a.bind fun x => b.bind x.add?

theorem neg_add (a b : Result K) : (a.add b).neg = a.neg.add b.neg := by
  cases a <;> cases b <;> simp [neg, add, Point.neg_add?]

theorem add_comm (a b : Result K) : a.add b = b.add a := by
  cases a <;> cases b <;> simp [add, Point.add?_comm]

theorem zero_add (a : Result K) : add (some (.finite 0)) a = a := by
  cases a <;> simp [add, Point.zero_add?]

end Result

namespace Possible

def neg (A : Possible K) : Possible K :=
  Result.neg '' A

def add (A B : Possible K) : Possible K :=
  Set.image2 Result.add A B

theorem neg_singleton (a : Result K) : neg {a} = {a.neg} :=
  Set.image_singleton

theorem add_singleton (a b : Result K) : add {a} {b} = {a.add b} :=
  Set.image2_singleton

theorem neg_add (A B : Possible K) : (add A B).neg = add A.neg B.neg :=
  Set.image_image2_distrib Result.neg_add

theorem add_comm (A B : Possible K) : add A B = add B A :=
  Set.image2_comm Result.add_comm

theorem zero_add (A : Possible K) : add {some (.finite 0)} A = A := by
  rw [add, Set.image2_singleton_left]
  simp [Result.zero_add]

end Possible

end Field

section Order

variable [Field K] [LinearOrder K]

namespace Point

/-- A number times an infinity. -/
def scaled? (x : K) (infinity : Point K) : Result K :=
  if 0 < x then some infinity else if x < 0 then some infinity.neg else none

def mul? : Point K → Point K → Result K
  | .finite x, .finite y => some (.finite (x * y))
  | .finite x, infinity | infinity, .finite x => scaled? x infinity
  | .posInfinity, infinity => some infinity
  | .negInfinity, infinity => some infinity.neg

theorem mul?_comm (x y : Point K) : x.mul? y = y.mul? x := by
  cases x <;> cases y <;> simp [mul?, mul_comm, neg]

theorem scaled?_neg (x : K) (infinity : Point K) :
    (scaled? x infinity).map neg = scaled? x infinity.neg := by
  unfold scaled?
  split_ifs <;> rfl

end Point

namespace Result

def mul (a b : Result K) : Result K :=
  a.bind fun x => b.bind x.mul?

theorem mul_comm (a b : Result K) : a.mul b = b.mul a := by
  cases a <;> cases b <;> simp [mul, Point.mul?_comm]

end Result

namespace Possible

def mul (A B : Possible K) : Possible K :=
  Set.image2 Result.mul A B

theorem mul_singleton (a b : Result K) : mul {a} {b} = {a.mul b} :=
  Set.image2_singleton

theorem mul_comm (A B : Possible K) : mul A B = mul B A :=
  Set.image2_comm Result.mul_comm

end Possible

variable [IsStrictOrderedRing K]

namespace Point

theorem one_mul? (x : Point K) : (finite 1).mul? x = some x := by
  cases x <;> simp [mul?, scaled?]

theorem neg_scaled? (x : K) (infinity : Point K) :
    (scaled? x infinity).map neg = scaled? (-x) infinity := by
  rcases lt_trichotomy x 0 with below | rfl | above
  · simp [scaled?, below, below.not_gt]
  · simp [scaled?]
  · simp [scaled?, above, above.not_gt]

theorem neg_mul? (x y : Point K) : (x.mul? y).map neg = x.neg.mul? y := by
  cases x with
  | finite x => cases y <;> simp [neg, mul?, neg_scaled?]
  | negInfinity =>
    cases y with
    | finite y => exact scaled?_neg y .negInfinity
    | negInfinity | posInfinity => rfl
  | posInfinity =>
    cases y with
    | finite y => exact scaled?_neg y .posInfinity
    | negInfinity | posInfinity => rfl

end Point

namespace Result

theorem one_mul (a : Result K) : mul (some (.finite 1)) a = a := by
  cases a <;> simp [mul, Point.one_mul?]

theorem neg_mul (a b : Result K) : (a.mul b).neg = a.neg.mul b := by
  cases a <;> cases b <;> simp [neg, mul, Point.neg_mul?]

end Result

namespace Possible

theorem one_mul (A : Possible K) : mul {some (.finite 1)} A = A := by
  rw [mul, Set.image2_singleton_left]
  simp [Result.one_mul]

theorem neg_mul (A B : Possible K) : (mul A B).neg = mul A.neg B :=
  Set.image_image2_distrib_left Result.neg_mul

/-- Negation is the product with minus one. -/
theorem neg_one_mul (A : Possible K) : mul {some (.finite (-1))} A = A.neg := by
  have one : ({some (.finite (-1))} : Possible K) = neg {some (.finite 1)} := by
    simp [neg, Result.neg, Point.neg]
  rw [one, ← neg_mul, one_mul]

end Possible

end Order

section Interval

variable [LinearOrder K]

def Point.Le : Point K → Point K → Prop
  | .negInfinity, _ => True
  | _, .posInfinity => True
  | .finite x, .finite y => x ≤ y
  | _, _ => False

theorem Point.le_le_iff {x y : Point K} : x.Le y ∧ y.Le x ↔ x = y := by
  cases x <;> cases y <;> simp [Le, le_antisymm_iff]

/-- The points from one to another, where both are defined. -/
def Result.between : Result K → Result K → Possible K
  | some low, some high => {a | ∃ x, low.Le x ∧ x.Le high ∧ a = some x}
  | _, _ => {none}

theorem Result.between_self (a : Result K) : between a a = {a} := by
  cases a with
  | none => rfl
  | some x =>
    ext a
    rw [Set.mem_singleton_iff]
    constructor
    · rintro ⟨y, low, high, rfl⟩
      rw [Point.le_le_iff.mp ⟨low, high⟩]
    · rintro rfl
      exact ⟨x, (Point.le_le_iff.mpr rfl).1, (Point.le_le_iff.mpr rfl).1, rfl⟩

/-- Everything between two bounds, whichever of the possible ones they are. -/
def Possible.between (A B : Possible K) : Possible K :=
  {a | ∃ low ∈ A, ∃ high ∈ B, a ∈ low.between high}

theorem Possible.between_self (a : Result K) : between {a} {a} = {a} := by
  simp [between, Result.between_self]

end Interval

section

variable [Field K] [LinearOrder K] [IsStrictOrderedRing K]

theorem Point.le_neg_iff {x y : Point K} : x.neg.Le y ↔ y.neg.Le x := by
  cases x <;> cases y <;> simp [neg, Le, neg_le]

/-- Negation swaps the bounds. -/
theorem Result.neg_between (low high : Result K) :
    Possible.neg (between low high) = between high.neg low.neg := by
  cases low with
  | none => cases high <;> simp [Possible.neg, between, neg]
  | some low =>
    cases high with
    | none => simp [Possible.neg, between, neg]
    | some high =>
      ext a
      constructor
      · rintro ⟨_, ⟨x, below, above, rfl⟩, rfl⟩
        refine ⟨x.neg, ?_, ?_, rfl⟩
        · rwa [Point.le_neg_iff, Point.neg_neg]
        · rwa [← Point.le_neg_iff, Point.neg_neg]
      · rintro ⟨x, below, above, rfl⟩
        refine ⟨some x.neg, ⟨x.neg, ?_, ?_, rfl⟩, by simp [neg]⟩
        · rwa [← Point.neg_neg low, Point.le_neg_iff, Point.neg_neg]
        · rwa [Point.le_neg_iff]

theorem Possible.neg_between (A B : Possible K) : (between A B).neg = between B.neg A.neg := by
  ext a
  constructor
  · rintro ⟨b, ⟨low, hlow, high, hhigh, inside⟩, rfl⟩
    refine ⟨high.neg, ⟨high, hhigh, rfl⟩, low.neg, ⟨low, hlow, rfl⟩, ?_⟩
    exact Result.neg_between low high ▸ ⟨b, inside, rfl⟩
  · rintro ⟨_, ⟨high, hhigh, rfl⟩, _, ⟨low, hlow, rfl⟩, inside⟩
    obtain ⟨b, within, rfl⟩ := Result.neg_between low high ▸ inside
    exact ⟨b, ⟨low, hlow, high, hhigh, within⟩, rfl⟩

end

end SmtDialogue
