import SmtDialogue.Value.Basic
import SmtDialogue.Ieee.Text
import SmtDialogue.Text.Quoted

/-!
# The texts of a value

A value shown to a person is its bare content, with strings and characters
quoted. Where a value is rejected, the payload is shown with its constructor.
-/

namespace SmtDialogue

/-- A truth value as solvers write it. -/
def boolText (b : Bool) : String :=
  if b then "true" else "false"

namespace AlgReal

/-- A rational with its numerator and denominator named. -/
def describeRational (q : Rat) : String :=
  "Ratio \x7b numer: " ++ toString q.num ++ ", denom: " ++ toString q.den ++ " \x7d"

def describe : AlgReal → String
  | .exact q => "Exact(" ++ describeRational q ++ ")"
  | .approximate q => "Approximate(" ++ describeRational q ++ ")"
  | .root coefficients index =>
    "Root \x7b coefficients: [" ++ String.intercalate ", " (coefficients.val.map toString) ++
      "], index: " ++ toString index.toNat ++ " \x7d"

end AlgReal

namespace Payload

/-- A payload with its constructor, and with every string quoted. -/
def describe : Payload → String
  | .bool b => "Bool(" ++ boolText b ++ ")"
  | .integer i => "Integer(" ++ toString i ++ ")"
  | .real r => "AlgReal(" ++ r.describe ++ ")"
  | .float bits => "Float(" ++ Ieee.text Ieee.single bits.toNat ++ ")"
  | .double bits => "Double(" ++ Ieee.text Ieee.double bits.toNat ++ ")"
  | .string s => "String(" ++ Text.quoted s ++ ")"
  | .char c => "Char(" ++ Text.quotedChar c ++ ")"
  | .element index label =>
    let position := match index with
      | none => "None"
      | some n => "Some(" ++ toString n ++ ")"
    "Uninterpreted \x7b index: " ++ position ++ ", label: " ++ Text.quoted label ++ " \x7d"

/-- A payload as it is shown to a person. -/
def text : Payload → String
  | .bool b => boolText b
  | .integer i => toString i
  | .real r => r.text
  | .float bits => Ieee.text Ieee.single bits.toNat
  | .double bits => Ieee.text Ieee.double bits.toNat
  | .string s => Text.quoted s
  | .char c => Text.quotedChar c
  | .element _ label => label

end Payload

def Value.text (v : Value) : String :=
  v.payload.text

def Misfit.message : Misfit → String
  | .mismatch kind payload =>
    "Value " ++ payload.describe ++ " does not inhabit kind " ++ kind.text
  | .overflow => "arithmetic overflow"

end SmtDialogue
