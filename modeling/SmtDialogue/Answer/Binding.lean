import SmtDialogue.Symbol
import SmtDialogue.SExpr.Reader
import SmtDialogue.Answer.Decode

/-!
# Bindings in answers

Solvers print the values of a model as a list of definitions, which may be headed
by `model`, or as a list of pairs:

    (model (define-fun s0 () Int 3) ...)
    ((define-fun s0 () Int 3) ...)
    ((s0 3) (s1 true))

Symbols that the table does not know are passed over. A strict extraction fails at
the first item it cannot use; a lenient one leaves such items out. A symbol that
several variables claim is an error in both, and so is an item whose decoding
overflows.
-/

namespace SmtDialogue

/-- Why an answer cannot be interpreted. -/
inductive AnswerError where
  | unreadable (e : ReadError)
  | undecodable (line : String) (tree : SExpr) (reason : DecodeFailure)
  | ambiguous (a : Ambiguity)
  | modelCount (expected actual : Nat) (raw : String)
deriving DecidableEq

def AnswerError.message : AnswerError → String
  | .unreadable e => e.message
  | .undecodable line tree reason =>
    "Cannot decode solver output: " ++ reason.message ++ "\n  line:   " ++ line ++
      "\n  parsed: " ++ tree.text
  | .ambiguous a => a.message
  | .modelCount expected actual raw =>
    "Expected " ++ toString expected ++ " models, received " ++ toString actual ++
      ". Solver output:\n" ++ raw

/-- Whether interpreting the answer overflowed. No leniency helps against that. -/
def AnswerError.isOverflow : AnswerError → Bool
  | .unreadable e => e.fault.cause = .overflow
  | .undecodable _ _ reason => reason = .overflow
  | .ambiguous _ | .modelCount _ _ _ => false

/-- The value of a variable in a model. -/
structure Binding where
  id : WordId
  name : String
  value : Value
deriving DecidableEq

/-- What happens to an item that cannot be used. -/
inductive Strictness where
  | strict
  | lenient
deriving DecidableEq

namespace Binding

/-- The value that an item of a usable shape gives to its symbol. -/
def value? : SExpr → Option SExpr
  | .app [head, name, params, _, value] =>
    if head.isSymbol "define-fun" ∧ params = .app [] ∧ name.symbol?.isSome then some value
    else none
  | .app [name, value] => if name.symbol?.isSome then some value else none
  | _ => none

/-- The symbol an item is about, even when its shape is not usable. -/
def symbol? : SExpr → Option String
  | .app (head :: rest) =>
    if head.isSymbol "define-fun" then
      match rest with
      | name :: _ => name.symbol?
      | [] => head.symbol?
    else head.symbol?
  | _ => none

/-- The items of a model: what follows the head `model`, or else the items of a list
of applications. -/
def items? : SExpr → Option (List SExpr)
  | .atom _ => none
  | .app [] => some []
  | .app (head :: rest) =>
    if head.isSymbol "model" then some rest
    else if (head :: rest).all fun e => !e.isAtom then some (head :: rest)
    else none

/-- What becomes of one item. -/
inductive Item where
  /-- It is about a symbol that the table does not know. -/
  | ignored
  | rejected (reason : DecodeFailure)
  | bound (b : Binding)

def readItem (table : SymbolTable) (item : SExpr) : Except Ambiguity Item :=
  match symbol? item with
  | none => .ok (.rejected (.unrecognizedShape item))
  | some symbol =>
    match table.resolve symbol with
    | .error a => .error a
    | .ok none => .ok .ignored
    | .ok (some v) =>
      match value? item with
      | none => .ok (.rejected (.unrecognizedShape item))
      | some value =>
        match Value.decode v.kind value with
        | .ok decoded => .ok (.bound ⟨v.id, v.name, decoded⟩)
        | .error reason => .ok (.rejected reason)

/-- Reads items in order; `fail` wraps the reason of a failure. -/
def readItems (table : SymbolTable) (strictness : Strictness)
    (fail : DecodeFailure → AnswerError) : List SExpr → Except AnswerError (List Binding)
  | [] => .ok []
  | item :: rest =>
    match readItem table item with
    | .error a => .error (.ambiguous a)
    | .ok .ignored => readItems table strictness fail rest
    | .ok (.rejected reason) =>
      match strictness with
      | .strict => .error (fail reason)
      | .lenient =>
        if reason = .overflow then .error (fail reason)
        else readItems table strictness fail rest
    | .ok (.bound b) => (readItems table strictness fail rest).map (b :: ·)

/-- The bindings of a model tree, in order; `line` is the text it was read from. -/
def extract (table : SymbolTable) (strictness : Strictness) (line : String) (tree : SExpr) :
    Except AnswerError (List Binding) :=
  match items? tree with
  | some items => readItems table strictness (.undecodable line tree) items
  | none =>
    match strictness with
    | .strict => .error (.undecodable line tree (.unexpectedRoot "model"))
    | .lenient => .ok []

end Binding

end SmtDialogue
