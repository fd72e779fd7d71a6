import SmtDialogue.Proofs.BoundGrammar
import SmtDialogue.Proofs.Objectives
import SmtDialogue.Proofs.Reductions

/-!
# One kind in every node

Every node of a bound that is read has the kind that it is read at, and negating and
simplifying keep it so. With checks that the parts of each new node share a kind, the same
functions therefore come to the same results, and no check fails. What is left to fail is
negation at the one kind where it overflows.
-/

namespace SmtDialogue.Extended

/-- Every node is of one kind. -/
def Uniform (kind : Kind) (e : Extended) : Prop :=
  ∀ n ∈ e.nodes, n.kind = kind

variable {kind : Kind} {a b e : Extended}

/-- The kind of a node is that of its leftmost leaf, so only leaves count. -/
theorem uniform_iff_over : e.Uniform kind ↔ e.Over kind := by
  induction e with
  | finite v | posInfinity k | negInfinity k | epsilon k =>
    exact List.forall_mem_singleton
  | interval a b iha ihb | sum a b iha ihb | product a b iha ihb =>
    have parts : (∀ n ∈ a.nodes ++ b.nodes, n.kind = kind) ↔ a.Over kind ∧ b.Over kind := by
      rw [List.forall_mem_append]
      exact and_congr iha ihb
    refine List.forall_mem_cons.trans ?_
    rw [parts]
    exact ⟨fun both => both.2, fun both => ⟨both.1.kind_eq, both⟩⟩

/-- Why a function with checks has no result. The failure is that of reading a tree, or of
negating one, which overflows or not. -/
inductive Halt where
  | mixedKinds
  | failure (reason : DecodeFailure)
deriving DecidableEq

namespace Checked

/-- A node over two parts that are checked to share a kind. -/
def node (build : Extended → Extended → Extended) (a b : Extended) : Except Halt Extended :=
  if a.kind = b.kind then .ok (build a b) else .error .mixedKinds

def minusOneTimes (e : Extended) : Except Halt Extended :=
  if e.kind.lacksSign then .error (.failure .overflow)
  else
    match Value.constant? e.kind (-1) with
    | some minusOne => node .product (.finite minusOne) e
    | none => .ok e

/-- Negation, where a node that keeps its shape is not checked again. -/
def negate : Extended → Except Halt Extended
  | .posInfinity k => .ok (.negInfinity k)
  | .negInfinity k => .ok (.posInfinity k)
  | .finite v =>
    match v.neg? with
    | some w => .ok (.finite w)
    | none => minusOneTimes (.finite v)
  | .epsilon k => minusOneTimes (.epsilon k)
  | .interval low high => do return .interval (← negate high) (← negate low)
  | .sum a b => do return .sum (← negate a) (← negate b)
  | .product a b => do return .product (← negate a) b

def simplifySum (a b : Extended) : Except Halt Extended :=
  match a, b with
  | .finite x, .finite y =>
    match x.add? y with
    | some z => .ok (.finite z)
    | none => node .sum a b
  | .finite x, _ =>
    if x.isZero then .ok b
    else if b.isInfinite then .ok b
    else node .sum a b
  | _, .finite y =>
    if y.isZero then .ok a
    else if a.isInfinite then .ok a
    else node .sum a b
  | _, _ =>
    if a.isInfinite && b.isAbsorbed then .ok a
    else if b.isInfinite && a.isAbsorbed then .ok b
    else node .sum a b

def scaleInfinity (v : Value) (infinity : Extended) : Except Halt Extended :=
  match v.signum? with
  | some .gt => .ok infinity
  | some .lt => negate infinity
  | _ => node .product (.finite v) infinity

def simplifyProduct (a b : Extended) : Except Halt Extended :=
  match a, b with
  | .finite x, .finite y =>
    match x.mul? y with
    | some z => .ok (.finite z)
    | none => node .product a b
  | .finite x, _ =>
    if x.isOne then .ok b
    else if b.isInfinite then scaleInfinity x b
    else node .product a b
  | _, .finite y =>
    if y.isOne then .ok a
    else if a.isInfinite then scaleInfinity y a
    else node .product a b
  | _, _ => node .product a b

/-- Simplification, where an interval is not checked again. -/
def simplify : Extended → Except Halt Extended
  | .interval low high => do
    let low ← simplify low
    let high ← simplify high
    return if low = high then low else .interval low high
  | .sum a b => do simplifySum (← simplify a) (← simplify b)
  | .product a b => do simplifyProduct (← simplify a) (← simplify b)
  | leaf => .ok leaf

mutual

/-- The bound of a kind that a tree stands for, each new node checked. -/
def ofSExpr (kind : Kind) : SExpr → Except Halt Extended
  | .atom a => (ofAtom kind a).mapError .failure
  | .app (.atom (.symbol operator) :: args) =>
    match production? operator args.length, args with
    | some .interval, [low, high] => do node .interval (← ofSExpr kind low) (← ofSExpr kind high)
    | some .sum, first :: rest => do ofParts kind .sum (← ofSExpr kind first) rest
    | some .product, first :: rest => do ofParts kind .product (← ofSExpr kind first) rest
    | some .negation, [e] => do negate (← ofSExpr kind e)
    | some .difference, [a, b] => do
      let a ← ofSExpr kind a
      let b ← ofSExpr kind b
      node .sum a (← negate b)
    | _, args =>
      .error (.failure (.unrecognizedExtended (.app (.atom (.symbol operator) :: args))))
  | .app items => .error (.failure (.unrecognizedExtended (.app items)))

/-- Each part is read and then joined to what the parts before it came to. -/
def ofParts (kind : Kind) (build : Extended → Extended → Extended) (before : Extended) :
    List SExpr → Except Halt Extended
  | [] => .ok before
  | e :: rest => do
    let part ← ofSExpr kind e
    ofParts kind build (← node build before part) rest

end

theorem node_eq (build : Extended → Extended → Extended) (ha : a.Over kind)
    (hb : b.Over kind) : node build a b = .ok (build a b) :=
  if_pos (ha.kind_eq.trans hb.kind_eq.symm)

theorem minusOneTimes_eq (e : Extended) :
    minusOneTimes e =
      if e.kind.lacksSign then .error (.failure .overflow) else .ok e.minusOneTimes := by
  rw [minusOneTimes, Extended.minusOneTimes]
  congr 1
  cases constant : Value.constant? e.kind (-1) with
  | some minusOne => exact if_pos (Value.kind_constant? constant)
  | none => rfl

/-- The only node that negating makes is a product with minus one of the same kind. -/
theorem negate_eq (e : Extended) :
    negate e = if e.negateOverflows then .error (.failure .overflow) else .ok e.negate := by
  induction e with
  | posInfinity k | negInfinity k => rfl
  | epsilon k => exact minusOneTimes_eq _
  | finite v =>
    rw [negate, Extended.negate]
    cases v.neg? with
    | some w => rfl
    | none => exact (minusOneTimes_eq _).trans (if_neg (by simp [Extended.kind, v.sized]))
  | interval low high ihlow ihhigh =>
    simp only [negate, negateOverflows, ihlow, ihhigh, Bool.or_eq_true]
    split_ifs <;> first | rfl | simp_all
  | sum a b iha ihb =>
    simp only [negate, negateOverflows, iha, ihb, Bool.or_eq_true]
    split_ifs <;> first | rfl | simp_all
  | product a b iha _ =>
    simp only [negate, negateOverflows, iha]
    by_cases overflow : a.negateOverflows = true <;> simp only [overflow] <;> rfl

theorem negate_of_isInfinite {e : Extended} (infinite : e.isInfinite = true) :
    negate e = .ok e.negate := by
  cases e with
  | posInfinity k | negInfinity k => rfl
  | _ => cases infinite

theorem simplifySum_eq (ha : a.Over kind) (hb : b.Over kind) :
    simplifySum a b = .ok (Extended.simplifySum a b) := by
  have kept := node_eq .sum ha hb
  fun_cases Extended.simplifySum a b <;> simp [simplifySum, *]

theorem scaleInfinity_eq {v : Value} (hv : v.kind = kind) (ha : a.Over kind)
    (infinite : a.isInfinite = true) :
    scaleInfinity v a = .ok (Extended.scaleInfinity v a) := by
  have kept := node_eq .product (a := .finite v) hv ha
  have negated := negate_of_isInfinite infinite
  fun_cases Extended.scaleInfinity v a <;> simp [scaleInfinity, *]

theorem simplifyProduct_eq (ha : a.Over kind) (hb : b.Over kind) :
    simplifyProduct a b = .ok (Extended.simplifyProduct a b) := by
  have kept := node_eq .product ha hb
  fun_cases Extended.simplifyProduct a b with
  | case4 x _ _ infinite => simp [simplifyProduct, *, scaleInfinity_eq ha hb infinite]
  | case7 y _ _ infinite => simp [simplifyProduct, *, scaleInfinity_eq hb ha infinite]
  | _ => simp [simplifyProduct, *]

theorem simplify_eq (one : e.Over kind) : simplify e = .ok e.simplify := by
  induction e with
  | finite v | posInfinity k | negInfinity k | epsilon k => rfl
  | interval low high ihlow ihhigh =>
    simp only [simplify, ihlow one.1, ihhigh one.2]
    rfl
  | sum a b iha ihb =>
    simp only [simplify, iha one.1, ihb one.2]
    exact simplifySum_eq one.1.simplify one.2.simplify
  | product a b iha ihb =>
    simp only [simplify, iha one.1, ihb one.2]
    exact simplifyProduct_eq one.1.simplify one.2.simplify

/-- Parts that are read one after the other join to the same as when all are read first. -/
theorem ofParts_eq {build : Extended → Extended → Extended}
    (closed : ∀ {a b}, a.Over kind → b.Over kind → (build a b).Over kind) {trees : List SExpr}
    (each : ∀ tree ∈ trees,
      ofSExpr kind tree = (Extended.ofSExpr kind tree).mapError .failure)
    {before : Extended} (one : before.Over kind) :
    ofParts kind build before trees =
      ((ofList kind trees).map (·.foldl build before)).mapError .failure := by
  induction trees generalizing before with
  | nil => rfl
  | cons tree trees ih =>
    obtain ⟨first, others⟩ := List.forall_mem_cons.mp each
    rw [ofParts, ofList, first]
    cases read : Extended.ofSExpr kind tree with
    | error reason => rfl
    | ok part =>
      have same : part.Over kind := (kept_over kind).ofSExpr read
      simp only [Except.mapError, bind, Except.bind, node_eq build one same]
      rw [ih others (closed one same)]
      cases ofList kind trees <;> rfl

theorem ofParts_eq_of_first (build : Extended → Extended → Extended)
    (closed : ∀ {a b}, a.Over kind → b.Over kind → (build a b).Over kind) {first : SExpr}
    {rest : List SExpr}
    (each : ∀ tree ∈ first :: rest,
      ofSExpr kind tree = (Extended.ofSExpr kind tree).mapError .failure) :
    (ofSExpr kind first >>= fun x => ofParts kind build x rest) =
      ((Extended.ofSExpr kind first).bind fun x =>
        (ofList kind rest).map (·.foldl build x)).mapError .failure := by
  obtain ⟨head, others⟩ := List.forall_mem_cons.mp each
  rw [head]
  cases read : Extended.ofSExpr kind first with
  | error reason => rfl
  | ok x => exact ofParts_eq closed others ((kept_over kind).ofSExpr read)

/-- Whether a tree is read or not, reading it with checks comes to the same. -/
theorem ofSExpr_eq (kind : Kind) (tree : SExpr) :
    ofSExpr kind tree = (Extended.ofSExpr kind tree).mapError .failure := by
  induction tree using induction_on_parts kind with
  | step tree ih =>
    match tree with
    | .atom _ | .app [] | .app (.app _ :: _) => rfl
    | .app (.atom (.keyword _) :: _) => rfl
    | .app (.atom (.symbol operator) :: args) =>
      by_cases shape : Matches kind (.app (.atom (.symbol operator) :: args)) args
      · have each := ih args shape
        cases shape with
        | interval low high =>
          have known : production? "interval" [low, high].length = some .interval := rfl
          have first := each low (by simp)
          have last := each high (by simp)
          simp only [ofSExpr, Extended.ofSExpr, ofList, known, first, last]
          cases low : Extended.ofSExpr kind low with
          | error reason => rfl
          | ok x =>
            have hx : x.Over kind := (kept_over kind).ofSExpr low
            cases high : Extended.ofSExpr kind high with
            | error reason => rfl
            | ok y => exact node_eq .interval hx ((kept_over kind).ofSExpr high)
        | sum first second rest =>
          have known : production? "+" (first :: second :: rest).length = some .sum := rfl
          have sum := ofParts_eq_of_first .sum (fun ha hb => ⟨ha, hb⟩) each
          simp only [ofSExpr, Extended.ofSExpr, known, sum]
          conv_rhs => rw [ofList]
          cases Extended.ofSExpr kind first with
          | error reason => rfl
          | ok x => cases ofList kind (second :: rest) <;> rfl
        | product first second rest =>
          have known : production? "*" (first :: second :: rest).length = some .product := rfl
          have product := ofParts_eq_of_first .product (fun ha hb => ⟨ha, hb⟩) each
          simp only [ofSExpr, Extended.ofSExpr, known, product]
          conv_rhs => rw [ofList]
          cases Extended.ofSExpr kind first with
          | error reason => rfl
          | ok x => cases ofList kind (second :: rest) <;> rfl
        | negation only =>
          have known : production? "-" [only].length = some .negation := rfl
          have part := each only (by simp)
          simp only [ofSExpr, Extended.ofSExpr, ofList, known, part]
          cases Extended.ofSExpr kind only with
          | error reason => rfl
          | ok x =>
            refine (negate_eq x).trans ?_
            simp only [Production.overflows]
            by_cases overflow : x.negateOverflows = true <;> simp only [overflow] <;> rfl
        | difference a b =>
          have known : production? "-" [a, b].length = some .difference := rfl
          have first := each a (by simp)
          have last := each b (by simp)
          simp only [ofSExpr, Extended.ofSExpr, ofList, known, first, last]
          cases augend : Extended.ofSExpr kind a with
          | error reason => rfl
          | ok x =>
            cases addend : Extended.ofSExpr kind b with
            | error reason => rfl
            | ok y =>
              have sum := node_eq .sum ((kept_over kind).ofSExpr augend)
                ((kept_over kind).ofSExpr addend).negate
              simp only [Except.mapError, bind, Except.bind, negate_eq, Production.overflows]
              by_cases overflow : y.negateOverflows = true
              · simp only [overflow]
                rfl
              · simp only [overflow]
                exact sum
      · have unknown : production? operator args.length = none := by
          rwa [← Option.not_isSome_iff_eq_none, isSome_production?_iff]
        simp [ofSExpr, Extended.ofSExpr, unknown, Except.mapError]
    | .app (.atom (.int _ _) :: _) | .app (.atom (.real _) :: _) | .app (.atom (.float _) :: _)
    | .app (.atom (.double _) :: _) | .app (.atom (.string _) :: _) => rfl

end Checked

theorem uniform_of_ofSExpr {tree : SExpr} (read : ofSExpr kind tree = .ok e) :
    e.Uniform kind :=
  uniform_iff_over.mpr ((kept_over kind).ofSExpr read)

theorem Uniform.negate (one : e.Uniform kind) : e.negate.Uniform kind :=
  uniform_iff_over.mpr (uniform_iff_over.mp one).negate

theorem Uniform.simplify (one : e.Uniform kind) : e.simplify.Uniform kind :=
  uniform_iff_over.mpr (uniform_iff_over.mp one).simplify

/-- All nodes of a bound that is read have the kind that it is read at, and negating and
simplifying keep one kind in all nodes, so that no check of the parts of a new node ever fails.
Nothing but an overflow makes negating fail, and there is one kind only where it does.
What simplifying any tree leaves is a normal form of the rules, which simplifying again keeps,
and has no more nodes than the tree. -/
theorem one_kind_and_normal_form (kind : Kind) :
    (∀ tree e, ofSExpr kind tree = .ok e → e.Uniform kind) ∧
    (∀ tree, Checked.ofSExpr kind tree = (ofSExpr kind tree).mapError .failure) ∧
    (∀ e : Extended, e.Uniform kind →
      e.negate.Uniform kind ∧
      (Checked.negate e =
        if e.negateOverflows then .error (.failure .overflow) else .ok e.negate) ∧
      (e.negateOverflows = true → kind = .int 0) ∧
      e.simplify.Uniform kind ∧ Checked.simplify e = .ok e.simplify) ∧
    (∀ e : Extended, e.simplify.simplify = e.simplify ∧ e.simplify.Normal ∧
      Reduces e e.simplify ∧ e.simplify.nodes.length ≤ e.nodes.length) := by
  refine ⟨fun _ _ => uniform_of_ofSExpr, Checked.ofSExpr_eq kind, fun e one => ?_, fun e => ?_⟩
  · have leaves := uniform_iff_over.mp one
    exact ⟨one.negate, Checked.negate_eq e, leaves.kind_of_negateOverflows, one.simplify,
      Checked.simplify_eq leaves⟩
  · exact ⟨simplify_simplify e, normal_simplify e, reduces_simplify e,
      (reduces_simplify e).length_nodes_le⟩

/-- A bound of reals that is read as a product with minus one, and negated once more. -/
theorem one_kind_and_normal_form_negated :
    let tree := SExpr.app [.atom (.symbol "-"), .atom (.symbol "epsilon")]
    let bound := Extended.product (.finite (.ofReal (.exact (-1)))) (.epsilon .real)
    ofSExpr .real tree = .ok bound ∧ bound.Uniform .real ∧ bound.simplify.Uniform .real ∧
      bound.negateOverflows = false ∧ Checked.negate bound = .ok bound.negate := by
  intro tree bound
  have read : ofSExpr .real tree = .ok bound := rfl
  obtain ⟨uniform, -, kept, -⟩ := one_kind_and_normal_form .real
  have one := uniform tree bound read
  obtain ⟨-, negated, -, simplified, -⟩ := kept bound one
  exact ⟨read, one, simplified, rfl, negated⟩

/-- An infinitesimal is uniform at every kind, and at the signed kind of width zero the factor
that its negation needs overflows. -/
theorem negate_overflows :
    let bound := Extended.epsilon (.int 0)
    ofSExpr (.int 0) (.atom (.symbol "epsilon")) = .ok bound ∧ bound.Uniform (.int 0) ∧
      Checked.negate bound = .error (.failure .overflow) ∧
      ¬∀ (kind : Kind) (e : Extended), e.Uniform kind → Checked.negate e = .ok e.negate := by
  intro bound
  have read : ofSExpr (.int 0) (.atom (.symbol "epsilon")) = .ok bound := rfl
  have one : bound.Uniform (.int 0) := uniform_of_ofSExpr read
  have failed : Checked.negate bound = .error (.failure .overflow) := rfl
  refine ⟨read, one, failed, fun always => ?_⟩
  have negated := always (.int 0) bound one
  rw [failed] at negated
  cases negated

/-- Checks tell kinds apart. -/
example : Checked.simplify (.sum (.epsilon .real) (.epsilon .integer)) = .error .mixedKinds :=
  rfl

end SmtDialogue.Extended
