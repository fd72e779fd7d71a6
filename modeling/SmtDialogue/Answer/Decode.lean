import SmtDialogue.SExpr.Basic
import SmtDialogue.Value.Text

/-!
# Decoding values

An atom is decoded at a kind that is already known. Fixed-width integers accept a
literal of their own width or a plain integer, integers accept whole reals, reals
accept integers, floating-point words only literals of their own precision, and an
enumerated sort only its constructors.
-/

namespace SmtDialogue

/-- Why a tree does not say what it should. -/
inductive DecodeFailure where
  | unexpectedRoot (expected : String)
  | unrecognizedShape (item : SExpr)
  | kindMismatch (kind : Kind) (item : SExpr)
  | notIntegral (item : SExpr)
  | unknownConstructor (sort label : String)
  | unrecognizedExtended (item : SExpr)
  /-- The kind has no range to bring a number into. -/
  | overflow
deriving DecidableEq

def DecodeFailure.message : DecodeFailure → String
  | .unexpectedRoot expected => "expected an application headed by `" ++ expected ++ "`"
  | .unrecognizedShape item => "unrecognized binding shape: " ++ item.text
  | .kindMismatch kind item => "value " ++ item.text ++ " does not fit kind " ++ kind.text
  | .notIntegral item => "non-integral value " ++ item.text ++ " for an integer variable"
  | .unknownConstructor sort label => label ++ " is not a literal of sort " ++ sort
  | .unrecognizedExtended item => "unrecognized extended value: " ++ item.text
  | .overflow => "arithmetic overflow"

namespace Value

/-- The integer that a real literal stands for. -/
def whole (r : AlgReal) : Except DecodeFailure Payload :=
  match r.rational? with
  | some q =>
    if q.den = 1 then .ok (.integer q.num) else .error (.notIntegral (.atom (.real r)))
  | none => .error (.notIntegral (.atom (.real r)))

/-- The payload an atom stands for at a kind. -/
def payloadOfAtom (kind : Kind) (a : Atom) : Except DecodeFailure Payload :=
  let mismatch : Except DecodeFailure Payload := .error (.kindMismatch kind (.atom a))
  match kind, a with
  | .bool, .symbol s =>
    if s = "true" then .ok (.bool true)
    else if s = "false" then .ok (.bool false)
    else mismatch
  | .bits _ width, .int value literalWidth =>
    if literalWidth.any (· ≠ width) then mismatch else .ok (.integer value)
  | .bits _ _, .real r => whole r
  | .integer, .int value none => .ok (.integer value)
  | .integer, .real r => whole r
  | .real, .int value none => .ok (.real (.ofInt value))
  | .real, .real r => .ok (.real r)
  | .float, .float bits => .ok (.float bits)
  | .double, .double bits => .ok (.double bits)
  | .string, .string s => .ok (.string s)
  | .char, .string s =>
    match s.toList with
    | [c] => .ok (.char c)
    | _ => mismatch
  | .sort _ none, .symbol label => .ok (.element none label)
  | .sort name (some constructors), .symbol label =>
    match Kind.constructorIndex? (.sort name (some constructors)) label with
    | some index => .ok (.element (some index) label)
    | none => .error (.unknownConstructor name label)
  | _, _ => mismatch

/-- The value of a kind that a tree stands for. -/
def decode (kind : Kind) (e : SExpr) : Except DecodeFailure Value :=
  match e with
  | .app _ => .error (.kindMismatch kind e)
  | .atom a =>
    match payloadOfAtom kind a with
    | .error reason => .error reason
    | .ok payload =>
      match ofPayload kind payload with
      | .ok v => .ok v
      | .error .overflow => .error .overflow
      | .error (.mismatch _ _) => .error (.kindMismatch kind e)

theorem whole_ne_overflow (r : AlgReal) : whole r ≠ .error .overflow := by
  unfold whole
  split
  · split <;> simp
  · simp

theorem payloadOfAtom_ne_overflow (kind : Kind) (a : Atom) :
    payloadOfAtom kind a ≠ .error .overflow := by
  unfold payloadOfAtom
  dsimp only
  split
  case h_3 => exact whole_ne_overflow _
  case h_5 => exact whole_ne_overflow _
  all_goals repeat' split
  all_goals simp

/-- Only numbers of a signed kind of width zero overflow. -/
theorem kind_of_decode_overflow {kind : Kind} {e : SExpr}
    (failed : decode kind e = .error .overflow) : kind = .int 0 := by
  unfold decode at failed
  split at failed
  · cases failed
  · next a =>
    split at failed
    · next reason read =>
      cases failed
      exact absurd read (payloadOfAtom_ne_overflow kind a)
    · next payload _ =>
      split at failed <;> cases failed
      next overflow => exact kind_of_ofPayload_overflow overflow

end Value

end SmtDialogue
