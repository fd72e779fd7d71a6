import SmtDialogue.Extended
import SmtDialogue.Answer.Decode

/-!
# Bounds in answers

The grammar of the bounds that optimizing solvers report:

    bound := oo | -oo | epsilon | value
           | (interval bound bound) | (+ bound bound ...) | (* bound bound ...)
           | (- bound) | (- bound bound)

A failure names the leftmost innermost tree that no production has the shape of,
unless a number or a negation overflows first.
-/

namespace SmtDialogue.Extended

/-- The productions that have parts. -/
inductive Production where
  | interval
  | sum
  | product
  | negation
  | difference
deriving DecidableEq

/-- The production with this operator and this many parts. -/
def production? (operator : String) (parts : Nat) : Option Production :=
  if operator = "interval" ∧ parts = 2 then some .interval
  else if operator = "+" ∧ 2 ≤ parts then some .sum
  else if operator = "*" ∧ 2 ≤ parts then some .product
  else if operator = "-" ∧ parts = 1 then some .negation
  else if operator = "-" ∧ parts = 2 then some .difference
  else none

/-- What a production makes of its parts; sums and products associate to the left. -/
def Production.build? : Production → List Extended → Option Extended
  | .interval, [low, high] => some (.interval low high)
  | .sum, first :: rest => some (rest.foldl .sum first)
  | .product, first :: rest => some (rest.foldl .product first)
  | .negation, [e] => some e.negate
  | .difference, [a, b] => some (.sum a b.negate)
  | _, _ => none

/-- Whether a production negates a part that overflows when it is negated. -/
def Production.overflows : Production → List Extended → Bool
  | .negation, [e] => e.negateOverflows
  | .difference, [_, b] => b.negateOverflows
  | _, _ => false

/-- A symbol with a meaning of its own, or a value of the kind. -/
def ofAtom (kind : Kind) (a : Atom) : Except DecodeFailure Extended :=
  match a with
  | .symbol "oo" => .ok (.posInfinity kind)
  | .symbol "-oo" => .ok (.negInfinity kind)
  | .symbol "epsilon" => .ok (.epsilon kind)
  | .symbol _ => .error (.unrecognizedExtended (.atom a))
  | _ =>
    match Value.decode kind (.atom a) with
    | .ok v => .ok (.finite v)
    | .error .overflow => .error .overflow
    | .error _ => .error (.unrecognizedExtended (.atom a))

mutual

/-- The bound of a kind that a tree stands for, not simplified. -/
def ofSExpr (kind : Kind) : SExpr → Except DecodeFailure Extended
  | .atom a => ofAtom kind a
  | .app (.atom (.symbol operator) :: args) =>
    let failure := DecodeFailure.unrecognizedExtended (.app (.atom (.symbol operator) :: args))
    match production? operator args.length with
    | none => .error failure
    | some production =>
      match ofList kind args with
      | .error reason => .error reason
      | .ok parts =>
        if production.overflows parts then .error .overflow
        else
          match production.build? parts with
          | some e => .ok e
          | none => .error failure
  | .app items => .error (.unrecognizedExtended (.app items))

def ofList (kind : Kind) : List SExpr → Except DecodeFailure (List Extended)
  | [] => .ok []
  | e :: rest =>
    match ofSExpr kind e with
    | .error reason => .error reason
    | .ok part =>
      match ofList kind rest with
      | .error reason => .error reason
      | .ok parts => .ok (part :: parts)

end

end SmtDialogue.Extended
