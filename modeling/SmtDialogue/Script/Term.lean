import SmtDialogue.Symbol
import SmtDialogue.Value.Literal

/-!
# Terms of a query

The terms a query is built from: names that the query itself introduces, literals
of values, and applications of operators. An operator is built in, takes a
rounding mode first, cuts a slice out of a bit vector, is a name that was declared
with arguments, or makes an array with one value at every place.
-/

namespace SmtDialogue

/-- What a query can introduce. -/
inductive Name where
  | word (id : WordId)
  | table (id : Nat)
  | array (id : Nat)
  | function (name : String)
deriving DecidableEq

def Name.text : Name → String
  | .word id => id.text
  | .table id => "table" ++ toString id
  | .array id => "array_" ++ toString id
  | .function name => name

/-- The sorts that names are declared with. -/
inductive NameSort where
  | value (kind : Kind)
  | array (index elem : Kind)
deriving DecidableEq

def NameSort.text : NameSort → String
  | .value kind => kind.sortText
  | .array index elem => "(Array " ++ index.sortText ++ " " ++ elem.sortText ++ ")"

inductive Operator where
  | builtIn (name : String)
  /-- A floating-point operation that rounds to nearest, ties to even. -/
  | rounded (name : String)
  | extract (high low : Nat)
  | declared (name : Name)
  /-- The array of a sort with its argument at every place. -/
  | everywhere (sort : NameSort)
deriving DecidableEq

/-- What an application starts with. -/
def Operator.text : Operator → String
  | .builtIn name => name
  | .rounded name => name ++ " RNE"
  | .extract high low => "(_ extract " ++ toString high ++ " " ++ toString low ++ ")"
  | .declared name => name.text
  | .everywhere sort => "(as const " ++ sort.text ++ ")"

inductive Term where
  | name (n : Name)
  | literal (v : Value)
  | apply (operator : Operator) (args : List Term)

namespace Term

def word (id : WordId) : Term := .name (.word id)

/-- The application of a built-in operator. -/
def call (name : String) (args : List Term) : Term := .apply (.builtIn name) args

mutual

def text : Term → String
  | .name n => n.text
  | .literal v => v.literal
  | .apply operator args => "(" ++ operator.text ++ textArgs args ++ ")"

/-- The arguments, each after a blank. -/
def textArgs : List Term → String
  | [] => ""
  | t :: rest => " " ++ text t ++ textArgs rest

end

end Term

end SmtDialogue
