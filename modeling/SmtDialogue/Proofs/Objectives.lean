import SmtDialogue.Answer.ObjectiveValue
import SmtDialogue.Proofs.Exact
import SmtDialogue.Proofs.Ranges

/-!
# What the bounds of objectives stand for

A tree is read as ordinary arithmetic on a scale. Where it has the shape of a bound, the
extended value that it is read as stands for the same results, and so does the value that
is left when this one is simplified.
-/

namespace SmtDialogue

universe u

variable {K : Type u} [Field K] [LinearOrder K]

/-- The results of an operator on its operands, sums and products from left to right. -/
def Possible.apply (operator : String) (operands : List (Possible K)) : Possible K :=
  match operator, operands with
  | "interval", [low, high] => between low high
  | "+", first :: rest => rest.foldl add first
  | "*", first :: rest => rest.foldl mul first
  | "-", [a] => neg a
  | "-", [a, b] => Set.image2 (fun x y => Result.add x y.neg) a b
  | _, _ => ∅

/-- The results of an atom: a point of the scale or a number. -/
def Atom.meaning (S : Scale K) : Atom → Possible K
  | .symbol "oo" => {some .posInfinity}
  | .symbol "-oo" => {some .negInfinity}
  | .symbol "epsilon" => {some (.finite S.epsilon)}
  | .int i _ => {some (.finite i)}
  | .real r => {some (.finite (r.number S))}
  | _ => ∅

namespace SExpr

mutual

/-- The results of a tree that is read as arithmetic. -/
def meaning (S : Scale K) : SExpr → Possible K
  | .atom a => a.meaning S
  | .app (.atom (.symbol operator) :: args) => Possible.apply operator (meanings S args)
  | .app _ => ∅

def meanings (S : Scale K) : List SExpr → List (Possible K)
  | [] => []
  | e :: rest => e.meaning S :: meanings S rest

end

/-- Whether the items of an application are those of an interval. -/
def IsInterval (items : List SExpr) : Prop :=
  items.head? = some (.atom (.symbol "interval"))

mutual

/-- No interval occurs. -/
def Pointed : SExpr → Prop
  | .atom _ => True
  | .app items => ¬ IsInterval items ∧ PointedList items

def PointedList : List SExpr → Prop
  | [] => True
  | e :: rest => e.Pointed ∧ PointedList rest

end

mutual

/-- No interval occurs inside the bounds of another one. -/
def Flat : SExpr → Prop
  | .atom _ => True
  | .app items => (IsInterval items → PointedList items) ∧ FlatList items

def FlatList : List SExpr → Prop
  | [] => True
  | e :: rest => e.Flat ∧ FlatList rest

end

theorem pointedList_iff {items : List SExpr} : PointedList items ↔ ∀ e ∈ items, e.Pointed := by
  induction items with
  | nil => simp [PointedList]
  | cons e rest ih => simp [PointedList, ih]

theorem flatList_iff {items : List SExpr} : FlatList items ↔ ∀ e ∈ items, e.Flat := by
  induction items with
  | nil => simp [FlatList]
  | cons e rest ih => simp [FlatList, ih]

/-- What an operator makes of rationals. -/
def compute? (operator : String) (operands : List Rat) : Option Rat :=
  match operator, operands with
  | "+", first :: rest => some (rest.foldl (· + ·) first)
  | "*", first :: rest => some (rest.foldl (· * ·) first)
  | "-", [p] => some (-p)
  | "-", [p, q] => some (p - q)
  | _, _ => none

mutual

/-- The rational that a tree of exact numbers, sums, products and differences comes to. -/
def computed? : SExpr → Option Rat
  | .atom a => (SExpr.atom a).rational?
  | .app (.atom (.symbol operator) :: args) => (computedAll? args).bind (compute? operator)
  | .app _ => none

def computedAll? : List SExpr → Option (List Rat)
  | [] => some []
  | e :: rest => Option.map₂ List.cons e.computed? (computedAll? rest)

end

end SExpr

namespace Extended

variable {kind : Kind}

/-- A relation between trees and bounds that every production keeps. -/
structure Kept (kind : Kind) (P : SExpr → Extended → Prop) : Prop where
  atom : ∀ {a e}, ofAtom kind a = .ok e → P (.atom a) e
  interval : ∀ {a b x y}, P a x → P b y →
    P (.app [.atom (.symbol "interval"), a, b]) (.interval x y)
  sum : ∀ {a x args xs}, P a x → List.Forall₂ P args xs →
    P (.app (.atom (.symbol "+") :: a :: args)) (xs.foldl .sum x)
  product : ∀ {a x args xs}, P a x → List.Forall₂ P args xs →
    P (.app (.atom (.symbol "*") :: a :: args)) (xs.foldl .product x)
  negation : ∀ {a x}, P a x → P (.app [.atom (.symbol "-"), a]) x.negate
  difference : ∀ {a b x y}, P a x → P b y →
    P (.app [.atom (.symbol "-"), a, b]) (.sum x y.negate)

namespace Kept

variable {P : SExpr → Extended → Prop}

theorem build? (kept : Kept kind P) {operator : String} {args : List SExpr}
    {production : Production} {parts : List Extended} {e : Extended}
    (fits : production? operator args.length = some production)
    (each : List.Forall₂ P args parts) (built : production.build? parts = some e) :
    P (.app (.atom (.symbol operator) :: args)) e := by
  rw [production?] at fits
  split_ifs at fits with interval sum product negation difference <;> cases fits
  · obtain ⟨rfl, two⟩ := interval
    obtain ⟨a, b, rfl⟩ := List.length_eq_two.mp two
    obtain _ | ⟨ha, _ | ⟨hb, _ | _⟩⟩ := each
    cases built
    exact kept.interval ha hb
  · obtain ⟨rfl, many⟩ := sum
    cases each with
    | nil => cases built
    | cons ha each =>
      cases built
      exact kept.sum ha each
  · obtain ⟨rfl, many⟩ := product
    cases each with
    | nil => cases built
    | cons ha each =>
      cases built
      exact kept.product ha each
  · obtain ⟨rfl, one⟩ := negation
    obtain ⟨a, rfl⟩ := List.length_eq_one_iff.mp one
    obtain _ | ⟨ha, _ | _⟩ := each
    cases built
    exact kept.negation ha
  · obtain ⟨rfl, two⟩ := difference
    obtain ⟨a, b, rfl⟩ := List.length_eq_two.mp two
    obtain _ | ⟨ha, _ | ⟨hb, _ | _⟩⟩ := each
    cases built
    exact kept.difference ha hb

mutual

/-- What every production keeps holds of a tree and the bound it is read as. -/
theorem ofSExpr (kept : Kept kind P) : ∀ {tree : SExpr} {e : Extended},
    Extended.ofSExpr kind tree = .ok e → P tree e
  | .atom a, e, read => kept.atom read
  | .app [], e, read => by cases read
  | .app (head :: args), e, read => by
    unfold Extended.ofSExpr at read
    split at read
    case h_1 same => cases same
    case h_2 operator args' same =>
      obtain ⟨rfl, rfl⟩ := List.cons_eq_cons.mp (SExpr.app.inj same)
      cases fits : production? operator args.length with
      | none => simp [fits] at read
      | some production =>
        cases parts : Extended.ofList kind args with
        | error reason => simp [fits, parts] at read
        | ok es =>
          cases overflows : production.overflows es with
          | true => simp [fits, parts, overflows] at read
          | false =>
            cases built : production.build? es with
            | none => simp [fits, parts, overflows, built] at read
            | some whole =>
              obtain rfl : whole = e := by simpa [fits, parts, overflows, built] using read
              exact kept.build? fits (kept.ofList parts) built
    case h_3 => cases read

theorem ofList (kept : Kept kind P) : ∀ {trees : List SExpr} {es : List Extended},
    Extended.ofList kind trees = .ok es → List.Forall₂ P trees es
  | [], es, read => by
    cases read
    exact .nil
  | tree :: trees, es, read => by
    rw [Extended.ofList] at read
    cases first : Extended.ofSExpr kind tree with
    | error reason => simp [first] at read
    | ok e =>
      cases rest : Extended.ofList kind trees with
      | error reason => simp [first, rest] at read
      | ok others =>
        obtain rfl : e :: others = es := by simpa [first, rest] using read
        exact .cons (kept.ofSExpr first) (kept.ofList rest)

end

end Kept

end Extended

namespace Value

variable {kind : Kind} {a : Atom} {v : Value}

theorem kind_of_decode (decoded : decode kind (.atom a) = .ok v) : v.kind = kind := by
  rw [decode] at decoded
  cases read : payloadOfAtom kind a with
  | error reason => simp [read] at decoded
  | ok payload =>
    simp only [read] at decoded
    split at decoded <;> cases decoded
    next made => exact (ofPayload_eq_ok.mp made).1

/-- A whole real is read as the integer that it is. -/
theorem asReal_whole {r : AlgReal} {payload : Payload} (read : whole r = .ok payload) :
    ∃ i, payload = .integer i ∧ r = .ofInt i := by
  cases r with
  | exact q =>
    simp only [whole, AlgReal.rational?] at read
    split at read
    · next integral =>
      cases read
      exact ⟨q.num, rfl, congrArg AlgReal.exact (Rat.coe_int_num_of_den_eq_one integral).symm⟩
    · cases read
  | approximate q | root coefficients index => cases read

/-- The numerals of a numeric kind: integers without a width, and reals. -/
theorem numeral_of_decode (numeric : kind.Numeric) (decoded : decode kind (.atom a) = .ok v) :
    (∃ i, a = .int i none ∧ v.asReal = .ofInt i) ∨ a = .real v.asReal := by
  obtain ⟨payload, read, same⟩ := payload_of_decode decoded
  cases numeric with
  | integer =>
    have same : v.payload = payload := (Option.some.inj same).symm
    cases a with
    | int i width =>
      cases width with
      | none =>
        cases read
        exact .inl ⟨i, rfl, by rw [asReal, same]⟩
      | some width => cases read
    | real r =>
      obtain ⟨i, rfl, rfl⟩ := asReal_whole read
      exact .inr (by rw [asReal, same])
    | symbol name | keyword name | float bits | double bits | string s => cases read
  | real =>
    have same : v.payload = payload := (Option.some.inj same).symm
    cases a with
    | int i width =>
      cases width with
      | none =>
        cases read
        exact .inl ⟨i, rfl, by rw [asReal, same]⟩
      | some width => cases read
    | real r =>
      cases read
      exact .inr (by rw [asReal, same])
    | symbol name | keyword name | float bits | double bits | string s => cases read

end Value

namespace Extended

variable {kind : Kind}

/-- An atom that is a bound is a point of the scale or a numeral. -/
theorem ofAtom_cases {a : Atom} {e : Extended} (read : ofAtom kind a = .ok e) :
    (a = .symbol "oo" ∧ e = .posInfinity kind) ∨ (a = .symbol "-oo" ∧ e = .negInfinity kind) ∨
      (a = .symbol "epsilon" ∧ e = .epsilon kind) ∨
      ∃ v, e = .finite v ∧ Value.decode kind (.atom a) = .ok v := by
  unfold ofAtom at read
  split at read
  · cases read
    exact .inl ⟨rfl, rfl⟩
  · cases read
    exact .inr (.inl ⟨rfl, rfl⟩)
  · cases read
    exact .inr (.inr (.inl ⟨rfl, rfl⟩))
  · cases read
  · refine .inr (.inr (.inr ?_))
    split at read <;> cases read
    next v decoded => exact ⟨v, rfl, decoded⟩

/-- What two parts hand on to a node, all parts hand on to the nodes over them. -/
theorem foldl_closed {P : SExpr → Prop} {Q : Extended → Prop}
    {node : Extended → Extended → Extended} (closed : ∀ {a b}, Q a → Q b → Q (node a b))
    {args : List SExpr} {x : Extended} {xs : List Extended} (first : Q x)
    (each : List.Forall₂ (fun tree e => P tree → Q e) args xs) (all : ∀ tree ∈ args, P tree) :
    Q (xs.foldl node x) := by
  induction each generalizing x with
  | nil => exact first
  | cons second _ ih =>
    obtain ⟨one, others⟩ := List.forall_mem_cons.mp all
    exact ih (closed first (second one)) others

theorem kept_over (kind : Kind) : Kept kind fun _ e => e.Over kind where
  atom read := by
    rcases ofAtom_cases read with ⟨_, rfl⟩ | ⟨_, rfl⟩ | ⟨_, rfl⟩ | ⟨v, rfl, decoded⟩
    · rfl
    · rfl
    · rfl
    · exact Value.kind_of_decode decoded
  interval ha hb := ⟨ha, hb⟩
  sum ha each := foldl_closed (P := fun _ => True) (fun ha hb => ⟨ha, hb⟩) ha
    (each.imp fun _ _ one _ => one) fun _ _ => trivial
  product ha each := foldl_closed (P := fun _ => True) (fun ha hb => ⟨ha, hb⟩) ha
    (each.imp fun _ _ one _ => one) fun _ _ => trivial
  negation ha := ha.negate
  difference ha hb := ⟨ha, hb.negate⟩

theorem denote_foldl_sum (S : Scale K) (x : Extended) (xs : List Extended) :
    (xs.foldl .sum x).denote S = (xs.map (denote S)).foldl Possible.add (x.denote S) := by
  induction xs generalizing x with
  | nil => rfl
  | cons y xs ih => exact ih (.sum x y)

theorem denote_foldl_product (S : Scale K) (x : Extended) (xs : List Extended) :
    (xs.foldl .product x).denote S = (xs.map (denote S)).foldl Possible.mul (x.denote S) := by
  induction xs generalizing x with
  | nil => rfl
  | cons y xs ih => exact ih (.product x y)

/-- The value that a tree is read as is of the kind and stands for what the tree means. -/
def Means (kind : Kind) (S : Scale K) (tree : SExpr) (e : Extended) : Prop :=
  e.Over kind ∧ e.denote S = tree.meaning S

theorem Means.list {S : Scale K} {trees : List SExpr} {es : List Extended}
    (each : List.Forall₂ (Means kind S) trees es) :
    es.map (denote S) = SExpr.meanings S trees := by
  induction each with
  | nil => rfl
  | cons one _ ih => rw [List.map_cons, SExpr.meanings, one.2, ih]

theorem kept_means [IsStrictOrderedRing K] (S : Scale K) (numeric : kind.Numeric) :
    Kept kind (Means kind S) where
  atom read := by
    refine ⟨(kept_over kind).atom read, ?_⟩
    rcases ofAtom_cases read with ⟨rfl, rfl⟩ | ⟨rfl, rfl⟩ | ⟨rfl, rfl⟩ | ⟨v, rfl, decoded⟩
    · rfl
    · rfl
    · rfl
    · rcases Value.numeral_of_decode numeric decoded with ⟨i, rfl, real⟩ | rfl
      · simp [denote, SExpr.meaning, Atom.meaning, Value.number, real, AlgReal.number,
          AlgReal.ofInt]
      · rfl
  interval ha hb := by
    refine ⟨⟨ha.1, hb.1⟩, ?_⟩
    rw [denote, ha.2, hb.2]
    rfl
  sum {a _ _ _} ha each := by
    refine ⟨(kept_over kind).sum (a := a) ha.1 (each.imp fun _ _ one => one.1), ?_⟩
    rw [denote_foldl_sum, ha.2, Means.list each]
    rfl
  product {a _ _ _} ha each := by
    refine ⟨(kept_over kind).product (a := a) ha.1 (each.imp fun _ _ one => one.1), ?_⟩
    rw [denote_foldl_product, ha.2, Means.list each]
    rfl
  negation ha := by
    refine ⟨ha.1.negate, ?_⟩
    rw [denote_negate S numeric ha.1, ha.2]
    rfl
  difference ha hb := by
    refine ⟨⟨ha.1, hb.1.negate⟩, ?_⟩
    rw [denote, denote_negate S numeric hb.1, ha.2, hb.2]
    exact Set.image2_image_right _ _

/-- Where no interval occurs in a tree, none occurs in its bound. -/
theorem kept_pointed (kind : Kind) : Kept kind fun tree e => tree.Pointed → e.Pointed where
  atom read _ := by
    rcases ofAtom_cases read with ⟨_, rfl⟩ | ⟨_, rfl⟩ | ⟨_, rfl⟩ | ⟨v, rfl, _⟩ <;> trivial
  interval _ _ pointed := absurd rfl pointed.1
  sum ha each pointed :=
    foldl_closed (fun ha hb => ⟨ha, hb⟩) (ha pointed.2.2.1) each
      (SExpr.pointedList_iff.mp pointed.2.2.2)
  product ha each pointed :=
    foldl_closed (fun ha hb => ⟨ha, hb⟩) (ha pointed.2.2.1) each
      (SExpr.pointedList_iff.mp pointed.2.2.2)
  negation ha pointed := (ha pointed.2.2.1).negate
  difference ha hb pointed := ⟨ha pointed.2.2.1, (hb pointed.2.2.2.1).negate⟩

/-- Where no interval occurs inside bounds in a tree, none does in its bound. -/
theorem kept_flat (kind : Kind) : Kept kind fun tree e =>
    (tree.Pointed → e.Pointed) ∧ (tree.Flat → e.Flat) where
  atom read := by
    refine ⟨(kept_pointed kind).atom read, fun _ => ?_⟩
    rcases ofAtom_cases read with ⟨_, rfl⟩ | ⟨_, rfl⟩ | ⟨_, rfl⟩ | ⟨v, rfl, _⟩ <;> trivial
  interval ha hb := by
    refine ⟨(kept_pointed kind).interval ha.1 hb.1, fun flat => ?_⟩
    obtain ⟨_, first, second, _⟩ := flat.1 rfl
    exact ⟨ha.1 first, hb.1 second⟩
  sum ha each :=
    ⟨(kept_pointed kind).sum ha.1 (each.imp fun _ _ one => one.1), fun flat =>
      foldl_closed (fun ha hb => ⟨ha, hb⟩) (ha.2 flat.2.2.1) (each.imp fun _ _ one => one.2)
        (SExpr.flatList_iff.mp flat.2.2.2)⟩
  product ha each :=
    ⟨(kept_pointed kind).product ha.1 (each.imp fun _ _ one => one.1), fun flat =>
      foldl_closed (fun ha hb => ⟨ha, hb⟩) (ha.2 flat.2.2.1) (each.imp fun _ _ one => one.2)
        (SExpr.flatList_iff.mp flat.2.2.2)⟩
  negation ha := ⟨(kept_pointed kind).negation ha.1, fun flat => (ha.2 flat.2.2.1).negate⟩
  difference ha hb := ⟨(kept_pointed kind).difference ha.1 hb.1,
    fun flat => ⟨ha.2 flat.2.2.1, (hb.2 flat.2.2.2.1).negate⟩⟩

/-- The value that a tree is read as is of the kind and as exact as the tree. -/
def Computes (kind : Kind) (tree : SExpr) (e : Extended) : Prop :=
  e.Over kind ∧ ∀ {q}, tree.computed? = some q → e.exactly? = some q

theorem exactly?_foldl {node : Extended → Extended → Extended} {op : Rat → Rat → Rat}
    (closed : ∀ {a b p q}, a.exactly? = some p → b.exactly? = some q →
      (node a b).exactly? = some (op p q))
    {args : List SExpr} {x : Extended} {xs : List Extended} {p : Rat} {ps : List Rat}
    (first : x.exactly? = some p) (each : List.Forall₂ (Computes kind) args xs)
    (all : SExpr.computedAll? args = some ps) :
    (xs.foldl node x).exactly? = some (ps.foldl op p) := by
  induction each generalizing x p ps with
  | nil =>
    cases all
    exact first
  | cons second _ ih =>
    obtain ⟨q, qs, one, others, rfl⟩ := Option.map₂_eq_some_iff.mp all
    have whole := ih (closed first (second.2 one)) others
    exact whole

theorem computed?_app {operator : String} {args : List SExpr} {q : Rat}
    (exact : (SExpr.app (.atom (.symbol operator) :: args)).computed? = some q) :
    ∃ ps, SExpr.computedAll? args = some ps ∧ SExpr.compute? operator ps = some q :=
  Option.bind_eq_some_iff.mp exact

theorem kept_computes (numeric : kind.Numeric) : Kept kind (Computes kind) where
  atom read := by
    refine ⟨(kept_over kind).atom read, fun {q} exact => ?_⟩
    rcases ofAtom_cases read with ⟨rfl, rfl⟩ | ⟨rfl, rfl⟩ | ⟨rfl, rfl⟩ | ⟨v, rfl, decoded⟩
    · cases exact
    · cases exact
    · cases exact
    · rcases Value.numeral_of_decode numeric decoded with ⟨i, rfl, real⟩ | rfl
      · cases exact
        exact Value.rational?_eq_some_iff.mpr real
      · rw [exactly?, Value.rational?]
        generalize v.asReal = r at exact
        cases r <;> cases exact
        rfl
  interval ha hb := by
    refine ⟨⟨ha.1, hb.1⟩, fun {q} exact => ?_⟩
    obtain ⟨ps, _, none⟩ := computed?_app exact
    cases none
  sum {a _ _ _} ha each := by
    refine ⟨(kept_over kind).sum (a := a) ha.1 (each.imp fun _ _ one => one.1),
      fun {q} exact => ?_⟩
    obtain ⟨_, all, sum⟩ := computed?_app exact
    obtain ⟨p, ps, first, rest, rfl⟩ := Option.map₂_eq_some_iff.mp all
    cases sum
    exact exactly?_foldl exactly?_sum (ha.2 first) each rest
  product {a _ _ _} ha each := by
    refine ⟨(kept_over kind).product (a := a) ha.1 (each.imp fun _ _ one => one.1),
      fun {q} exact => ?_⟩
    obtain ⟨_, all, product⟩ := computed?_app exact
    obtain ⟨p, ps, first, rest, rfl⟩ := Option.map₂_eq_some_iff.mp all
    cases product
    exact exactly?_foldl exactly?_product (ha.2 first) each rest
  negation ha := by
    refine ⟨ha.1.negate, fun {q} exact => ?_⟩
    obtain ⟨_, all, negation⟩ := computed?_app exact
    obtain ⟨p, _, first, none, rfl⟩ := Option.map₂_eq_some_iff.mp all
    cases none
    cases negation
    exact exactly?_negate numeric ha.1 (ha.2 first)
  difference ha hb := by
    refine ⟨⟨ha.1, hb.1.negate⟩, fun {q} exact => ?_⟩
    obtain ⟨_, all, difference⟩ := computed?_app exact
    obtain ⟨p, _, first, rest, rfl⟩ := Option.map₂_eq_some_iff.mp all
    obtain ⟨r, _, second, none, rfl⟩ := Option.map₂_eq_some_iff.mp rest
    cases none
    cases difference
    rw [sub_eq_add_neg]
    exact exactly?_sum (ha.2 first) (exactly?_negate numeric hb.1 (hb.2 second))

/-- On any scale, the bound that a tree is read as is simplified to one that stands for
what the tree means, when no interval occurs inside the bounds of another one; negating a
value negates what it stands for; and exact arithmetic is simplified to its result. -/
theorem denote_simplify_ofSExpr [IsStrictOrderedRing K] (S : Scale K) (numeric : kind.Numeric) :
    (∀ {tree e}, ofSExpr kind tree = .ok e → tree.Flat →
      e.simplify.denote S = tree.meaning S) ∧
    (∀ {e : Extended}, e.Over kind → e.negate.denote S = (e.denote S).neg) ∧
    (∀ {tree e q}, ofSExpr kind tree = .ok e → tree.computed? = some q →
      ∃ v, e.simplify = .finite v ∧ v.kind = kind ∧ v.rational? = some q) := by
  refine ⟨?_, fun one => denote_negate S numeric one, ?_⟩
  · intro tree e read flat
    obtain ⟨one, meaning⟩ := (kept_means S numeric).ofSExpr read
    have bounds := ((kept_flat kind).ofSExpr read).2 flat
    rw [denote_simplify S numeric one bounds, meaning]
  · intro tree e q read exact
    obtain ⟨one, exactly⟩ := (kept_computes numeric).ofSExpr read
    exact simplify_of_exactly? numeric one (exactly exact)

/-- The hyperreals with their infinitesimal; every root is taken to be zero. -/
noncomputable def hyperreals : Scale Hyperreal where
  epsilon := .epsilon
  positive := Hyperreal.epsilon_pos
  infinitesimal n := by
    rcases Nat.eq_zero_or_pos n with rfl | positive
    · simp
    · have small : Hyperreal.epsilon < ((1 / n : ℝ) : Hyperreal) :=
        Hyperreal.epsilon_lt_of_pos (by positivity)
      have inverse : ((1 / n : ℝ) : Hyperreal) = 1 / (n : Hyperreal) := by
        rw [Hyperreal.coe_div, Hyperreal.coe_one]
        exact congrArg (1 / ·) (map_natCast Hyperreal.coeRingHom n)
      exact (lt_div_iff₀' (Nat.cast_pos.mpr positive)).mp (inverse ▸ small)
  root _ _ := 0

/-- Minus two times the interval from one to infinity, below a half by the infinitesimal. -/
def offsetTree : SExpr :=
  .app [.atom (.symbol "+"),
    .app [.atom (.symbol "*"), .atom (.int (-2) none),
      .app [.atom (.symbol "interval"), .atom (.int 1 none), .atom (.symbol "oo")]],
    .app [.atom (.symbol "-"), .atom (.real (.exact (1 / 2))), .atom (.symbol "epsilon")]]

/-- One half times two, less the sum of one and three. -/
def exactTree : SExpr :=
  .app [.atom (.symbol "-"),
    .app [.atom (.symbol "*"), .atom (.real (.exact (1 / 2))), .atom (.int 2 none)],
    .app [.atom (.symbol "+"), .atom (.int 1 none), .atom (.int 3 none)]]

theorem denote_simplify_ofSExpr_real :
    (∃ e, ofSExpr .real offsetTree = .ok e ∧
      e.simplify.denote hyperreals = offsetTree.meaning hyperreals ∧
      e.negate.denote hyperreals = (e.denote hyperreals).neg) ∧
    ∃ e v, ofSExpr .real exactTree = .ok e ∧ e.simplify = .finite v ∧ v.kind = .real ∧
      v.rational? = some (-3) := by
  obtain ⟨means, negates, computes⟩ := denote_simplify_ofSExpr hyperreals .real
  refine ⟨?_, ?_⟩
  · have flat : offsetTree.Flat := by
      simp [offsetTree, SExpr.Flat, SExpr.FlatList, SExpr.Pointed, SExpr.PointedList,
        SExpr.IsInterval]
    obtain ⟨e, read⟩ : ∃ e, ofSExpr .real offsetTree = .ok e := ⟨_, rfl⟩
    exact ⟨e, read, means read flat, negates ((kept_over .real).ofSExpr read)⟩
  · have exact : exactTree.computed? = some (-3) := by
      norm_num [exactTree, SExpr.computed?, SExpr.computedAll?, SExpr.compute?, SExpr.rational?]
    obtain ⟨e, read⟩ : ∃ e, ofSExpr .real exactTree = .ok e := ⟨_, rfl⟩
    obtain ⟨v, simplified, kind, rational⟩ := computes read exact
    exact ⟨e, v, read, simplified, kind, rational⟩

end Extended

end SmtDialogue
