import SmtDialogue.Script.Declaration
import SmtDialogue.Proofs.Results

/-!
# What operations are written with

Whatever the kinds of the operands, the term of an operation is put together from the
operands, a few literals, the name that the operation refers to and operators from a
fixed list. So what holds of these holds of the whole term.
-/

namespace SmtDialogue

/-- The built-in operators that operations are written with. -/
def Op.builtIns : List String :=
  ["+", "-", "*", "/", "<", ">", "<=", ">=", "=", "distinct", "abs", "div", "mod", "ite", "and",
    "or", "xor", "not", "bvadd", "bvmul", "bvsub", "bvneg", "bvudiv", "bvsdiv", "bvurem", "bvsrem",
    "bvslt", "bvult", "bvsgt", "bvugt", "bvsle", "bvule", "bvsge", "bvuge", "bvand", "bvor",
    "bvxor", "bvnot", "bvshl", "bvashr", "bvlshr", "concat", "fp.add", "fp.mul", "fp.sub",
    "fp.div", "fp.rem", "fp.neg", "fp.abs", "fp.eq", "fp.lt", "fp.gt", "fp.leq", "fp.geq",
    "str.++", "str.<", "str.<=", "select"]

/-- The name that an operation refers to. -/
def Op.name? : Op → Option Name
  | .table id => some (.table id)
  | .array id => some (.array id)
  | .function name => some (.function name)
  | _ => none

theorem Op.eq_function {op : Op} {name : String} (named : op.name? = some (.function name)) :
    op = .function name := by
  cases op <;> cases named
  rfl

/-- Terms put together from some terms and names the way operations are. -/
inductive Term.Built (base : Term → Prop) (names : Name → Prop) : Term → Prop where
  | base {t : Term} (given : base t) : Built base names t
  | bits (width : UInt32) (i : Int) : Built base names (.literal (Value.ofWord width i))
  | zero : Built base names (.literal (Value.ofReal (.ofInt 0)))
  | name {n : Name} (given : names n) : Built base names (.name n)
  | call {name : String} {args : List Term} (listed : name ∈ Op.builtIns)
      (each : ∀ a ∈ args, Built base names a) : Built base names (.call name args)
  | rounded {name : String} {args : List Term} (listed : name ∈ Op.builtIns)
      (each : ∀ a ∈ args, Built base names a) : Built base names (.apply (.rounded name) args)
  | extract (high low : Nat) {args : List Term} (each : ∀ a ∈ args, Built base names a) :
      Built base names (.apply (.extract high low) args)
  | declared {n : Name} {args : List Term} (given : names n)
      (each : ∀ a ∈ args, Built base names a) : Built base names (.apply (.declared n) args)

/-- The terms of an operation on operands: one operand, its name, one application, or one of
the few terms that go deeper. -/
inductive Op.Form (op : Op) (args : List Term) : Term → Prop where
  | operand {a : Term} (given : a ∈ args) : Form op args a
  | name {n : Name} (named : op.name? = some n) : Form op args (.name n)
  | call {name : String} {used : List Term} (listed : name ∈ builtIns)
      (each : ∀ a ∈ used, a ∈ args) : Form op args (.call name used)
  | rounded {name : String} {used : List Term} (listed : name ∈ builtIns)
      (each : ∀ a ∈ used, a ∈ args) : Form op args (.apply (.rounded name) used)
  | extract (high low : Nat) : Form op args (.apply (.extract high low) args)
  | declared {n : Name} (named : op.name? = some n) : Form op args (.apply (.declared n) args)
  | selected {n : Name} (named : op.name? = some n) :
      Form op args (.call "select" (.name n :: args))
  | unequal : Form op args (.call "not" [.call "fp.eq" args])
  | shifted {name : String} {a : Term} (listed : name ∈ ["bvshl", "bvashr", "bvlshr"])
      (given : a ∈ args) (width : UInt32) (i : Int) :
      Form op args (.call name [a, .literal (Value.ofWord width i)])
  /-- The magnitude: an operand below zero is negated. -/
  | magnitude {less negate : String} {zero : Value} {a : Term} (ordered : less ∈ ["bvslt", "<"])
      (listed : negate ∈ ["bvneg", "-"])
      (least : (∃ width, zero = Value.ofWord width 0) ∨ zero = Value.ofReal (.ofInt 0))
      (given : a ∈ args) :
      Form op args (.call "ite" [.call less [a, .literal zero], .call negate [a], a])

namespace Op

open Term (Built)

variable {base : Term → Prop} {names : Name → Prop} {op : Op} {kind : Kind} {args : List Term}
  {t : Term}

theorem form_arithmetic? {bits number float : String}
    (listed : ∀ name ∈ [bits, number, float], name ∈ builtIns)
    (written : arithmetic? bits number float kind args = some t) : Form op args t := by
  simp only [List.forall_mem_cons] at listed
  obtain ⟨isBits, isNumber, isFloat, _⟩ := listed
  cases kind with
  | bits signed width =>
    cases written
    exact .call isBits fun _ => id
  | integer | real =>
    cases written
    exact .call isNumber fun _ => id
  | float | double =>
    cases written
    exact .rounded isFloat fun _ => id
  | _ => cases written

theorem form_sum? (written : sum? kind args = some t) : Form op args t := by
  by_cases string : kind = .string
  · subst string
    cases written
    exact .call (by decide) fun _ => id
  · have number : sum? kind args = arithmetic? "bvadd" "+" "fp.add" kind args := by
      cases kind with
      | string => exact absurd rfl string
      | _ => rfl
    exact form_arithmetic? (by decide) (number ▸ written)

theorem form_magnitude? {a : Term} (given : a ∈ args) (written : magnitude? kind a = some t) :
    Form op args t := by
  have one : ∀ name ∈ builtIns, Form op args (.call name [a]) :=
    fun name listed => .call listed (by simpa using given)
  cases kind with
  | bits signed width =>
    cases signed with
    | false =>
      cases written
      exact .operand given
    | true =>
      cases written
      exact .magnitude (by decide) (by decide) (.inl ⟨width, rfl⟩) given
  | integer =>
    cases written
    exact one _ (by decide)
  | real =>
    cases written
    exact .magnitude (by decide) (by decide) (.inr rfl) given
  | float | double =>
    cases written
    exact one _ (by decide)
  | _ => cases written

theorem form_quotient? (written : quotient? kind args = some t) : Form op args t := by
  cases kind with
  | bits signed width => cases signed <;> cases written <;> exact .call (by decide) fun _ => id
  | integer | real =>
    cases written
    exact .call (by decide) fun _ => id
  | float | double =>
    cases written
    exact .rounded (by decide) fun _ => id
  | _ => cases written

theorem form_remainder? (written : remainder? kind args = some t) : Form op args t := by
  cases kind with
  | bits signed width => cases signed <;> cases written <;> exact .call (by decide) fun _ => id
  | _ => cases written <;> exact .call (by decide) fun _ => id

theorem form_comparison? {c : Comparison}
    (listed : ∀ name ∈ [c.signed, c.unsigned, c.number, c.float, c.string], name ∈ builtIns)
    (written : c.term? kind args = some t) : Form op args t := by
  simp only [List.forall_mem_cons] at listed
  obtain ⟨isSigned, isUnsigned, isNumber, isFloat, isString, _⟩ := listed
  have swapped : ∀ a ∈ (if c.swapped then args.reverse else args), a ∈ args := by
    intro a ha
    split at ha <;> simpa using ha
  cases kind with
  | bits signed width =>
    cases signed with
    | true =>
      cases written
      exact .call isSigned fun _ => id
    | false =>
      cases written
      exact .call isUnsigned fun _ => id
  | integer | real =>
    cases written
    exact .call isNumber fun _ => id
  | float | double =>
    cases written
    exact .call isFloat fun _ => id
  | string | char =>
    cases written
    exact .call isString swapped
  | _ => cases written

theorem form_logical? {truth bits : String} (isTruth : truth ∈ builtIns) (isBits : bits ∈ builtIns)
    (written : logical? truth bits kind args = some t) : Form op args t := by
  cases kind with
  | bool =>
    cases written
    exact .call isTruth fun _ => id
  | bits signed width =>
    cases written
    exact .call isBits fun _ => id
  | _ => cases written

theorem form_shift? {amount : Nat} {signed unsigned : String}
    (listed : ∀ name ∈ [signed, unsigned], name ∈ ["bvshl", "bvashr", "bvlshr"]) {a : Term}
    (given : a ∈ args) (written : shift? amount signed unsigned kind a = some t) :
    Form op args t := by
  simp only [List.forall_mem_cons] at listed
  obtain ⟨isSigned, isUnsigned, _⟩ := listed
  cases kind with
  | bits isNegative width =>
    cases isNegative with
    | true =>
      cases written
      exact .shifted isSigned given width _
    | false =>
      cases written
      exact .shifted isUnsigned given width _
  | _ => cases written

/-- The term of every operation has one of the forms. -/
theorem form_written? (written : op.written? kind args = some t) : Form op args t := by
  cases op <;> simp only [written?] at written
  case plus => exact form_sum? written
  case times | minus => exact form_arithmetic? (by decide) written
  case negate | join => cases kind <;> cases written <;> exact .call (by decide) fun _ => id
  case abs =>
    obtain ⟨a, head, written⟩ := Option.bind_eq_some_iff.mp written
    exact form_magnitude? (List.mem_of_mem_head? head) written
  case quotient => exact form_quotient? written
  case remainder => exact form_remainder? written
  case equal =>
    cases written
    rw [equality]
    split <;> exact .call (by decide) fun _ => id
  case notEqual =>
    cases written
    rw [difference]
    split
    · exact .unequal
    · exact .call (by decide) fun _ => id
  case less | greater | lessEq | greaterEq => exact form_comparison? (by decide) written
  case ite =>
    cases written
    exact .call (by decide) fun _ => id
  case and | or | xor | not => exact form_logical? (by decide) (by decide) written
  case shiftLeft | shiftRight =>
    obtain ⟨a, head, written⟩ := Option.bind_eq_some_iff.mp written
    exact form_shift? (by decide) (List.mem_of_mem_head? head) written
  case extract =>
    simp only [slice?] at written
    split at written
    · split at written <;> cases written
      exact .extract _ _
    · cases written
  case table | array =>
    cases written
    exact .selected rfl
  case function =>
    cases written
    rw [application]
    split
    · exact .name rfl
    · exact .declared rfl

/-- The term of an operation is put together from its operands and its own name. -/
theorem Form.built (form : Form op args t) (each : ∀ a ∈ args, a.Built base names)
    (given : ∀ n, op.name? = some n → names n) : t.Built base names := by
  cases form with
  | operand member => exact each _ member
  | name named => exact .name (given _ named)
  | call listed used => exact .call listed fun a ha => each a (used a ha)
  | rounded listed used => exact .rounded listed fun a ha => each a (used a ha)
  | extract high low => exact .extract high low each
  | declared named => exact .declared (given _ named) each
  | selected named =>
    exact .call (by decide) (List.forall_mem_cons.mpr ⟨.name (given _ named), each⟩)
  | unequal =>
    have equal : (Term.call "fp.eq" args).Built base names := .call (by decide) each
    exact .call (by decide) (by simpa using equal)
  | shifted listed member width i =>
    have shifts : ∀ name ∈ ["bvshl", "bvashr", "bvlshr"], name ∈ builtIns := by decide
    exact .call (shifts _ listed) (by simpa using ⟨each _ member, Built.bits width i⟩)
  | @magnitude less negate zero a ordered listed least member =>
    have orders : ∀ name ∈ ["bvslt", "<"], name ∈ builtIns := by decide
    have negations : ∀ name ∈ ["bvneg", "-"], name ∈ builtIns := by decide
    have literal : (Term.literal zero).Built base names := by
      rcases least with ⟨width, rfl⟩ | rfl
      · exact .bits width 0
      · exact .zero
    have below : (Term.call less [a, .literal zero]).Built base names :=
      .call (orders less ordered) (by simpa using ⟨each a member, literal⟩)
    have negated : (Term.call negate [a]).Built base names :=
      .call (negations negate listed) (by simpa using each a member)
    exact .call (by decide) (by simpa using ⟨below, negated, each a member⟩)

/-- The term of an operation is written on the words of its operands. -/
theorem form_term {result : Kind} {operands : List (WordId × Kind)}
    (written : op.term result operands = .ok t) :
    Form op (operands.map fun o => Term.word o.1) t := by
  rw [term] at written
  split at written
  · cases written
  · simp only at written
    split at written
    · next built =>
      cases written
      exact form_written? built
    · cases written

theorem built_term {result : Kind} {operands : List (WordId × Kind)}
    (written : op.term result operands = .ok t) :
    t.Built (fun a => ∃ o ∈ operands, a = .word o.1) (fun n => op.name? = some n) := by
  refine (form_term written).built (fun a ha => ?_) fun _ named => named
  obtain ⟨o, member, rfl⟩ := List.mem_map.mp ha
  exact .base ⟨o, member, rfl⟩

end Op

end SmtDialogue
