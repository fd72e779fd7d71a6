import SmtDialogue.Answer.Group
import SmtDialogue.Answer.Model
import SmtDialogue.Answer.Normalize
import SmtDialogue.Config.Basic

/-!
# Outcomes

The first line of an answer is its status. After `sat` the rest is read strictly
into a model, after `unknown` leniently; what this library does not interpret is
kept line by line. A satisfiable outcome says whether some objective is at a value
that is no ordinary number.
-/

namespace SmtDialogue

inductive Outcome where
  | unsatisfiable
  | unknown (m : Model)
  | satisfiable (m : Model)
  /-- Satisfiable, with an objective at an infinity or beside a number. -/
  | satisfiableInExtension (m : Model)
  | timeout
  | unexpected (lines : List String)
deriving DecidableEq

namespace Outcome

def model? : Outcome → Option Model
  | .unknown m | .satisfiable m | .satisfiableInExtension m => some m
  | _ => none

def isSat : Outcome → Bool
  | .satisfiable _ | .satisfiableInExtension _ => true
  | _ => false

def text : Outcome → String
  | .unsatisfiable => "Unsatisfiable\n"
  | .unknown m => "Unknown\n" ++ m.text
  | .satisfiable m => "Satisfiable. Model:\n" ++ m.text
  | .satisfiableInExtension m => "Satisfiable in an extension field. Model:\n" ++ m.text
  | .timeout => "Timeout\n"
  | .unexpected lines =>
    "Unexpected solver output:\n" ++ String.join (lines.map fun line => "  " ++ line ++ "\n")

end Outcome

/-- How the trees of an answer are normalized before they are interpreted. An application whose
folding overflows stays in the normalized tree. -/
abbrev Normalizer := SExpr → SExpr

/-- The normalizer for the answers of a dialect. -/
def Dialect.normalizer : Dialect → Normalizer
  | .smtLib2 => SExpr.normalize

namespace Model

/-- Adds what one group of lines says. Text that cannot be read is left out of a
lenient model, unless reading or normalizing it overflows. -/
def addGroup (normalizer : Normalizer) (table : SymbolTable) (strictness : Strictness)
    (m : Model) (text : String) : Except AnswerError Model :=
  match SExpr.parse text with
  | .error e =>
    match strictness with
    | .strict => .error (.unreadable e)
    | .lenient => if e.fault.cause = .overflow then .error (.unreadable e) else .ok m
  | .ok tree =>
    let tree := normalizer tree
    if tree.overflows then .error (.undecodable text tree .overflow)
    else if ObjectiveValue.isObjectives tree then
      (ObjectiveValue.extract table text tree).map m.addObjectives
    else (Binding.extract table strictness text tree).map m.bindAll

/-- The model that lines describe. -/
def ofLines (normalizer : Normalizer) (table : SymbolTable) (strictness : Strictness)
    (lines : List String) : Except AnswerError Model :=
  (Group.ofLines lines).foldlM (addGroup normalizer table strictness) .empty

end Model

namespace Outcome

/-- The status that lines start with. -/
def status? (lines : List String) : Option String :=
  lines.head?.map Text.trim

def ofModel (m : Model) : Outcome :=
  if m.isFinite then .satisfiable m else .satisfiableInExtension m

/-- The outcome of one complete answer. -/
def classify (normalizer : Normalizer) (table : SymbolTable) (lines : List String) :
    Except AnswerError Outcome :=
  match status? lines with
  | some "unsat" => .ok .unsatisfiable
  | some "timeout" => .ok .timeout
  | some "unknown" => (Model.ofLines normalizer table .lenient (lines.drop 1)).map .unknown
  | some "sat" => (Model.ofLines normalizer table .strict (lines.drop 1)).map ofModel
  | _ => .ok (.unexpected lines)

end Outcome

end SmtDialogue
