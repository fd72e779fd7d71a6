import SmtDialogue.Keyed
import SmtDialogue.Answer.ObjectiveValue

/-!
# Models

A model binds variables and carries the values of objectives. Bindings are kept in
ascending order with one for each word, the last one added; objective values stay
in the order the solver reported them.
-/

namespace SmtDialogue

structure Model where
  bindings : List Binding
  objectives : List ObjectiveValue
deriving DecidableEq

namespace Model

def empty : Model := ⟨[], []⟩

def bind (m : Model) (b : Binding) : Model :=
  { m with bindings := Keyed.put Binding.id b m.bindings }

def bindAll (m : Model) (bs : List Binding) : Model :=
  bs.foldl bind m

def addObjectives (m : Model) (os : List ObjectiveValue) : Model :=
  { m with objectives := m.objectives ++ os }

def get? (m : Model) (id : WordId) : Option Value :=
  (Keyed.get? Binding.id id m.bindings).map Binding.value

/-- The value of the first variable with this name, in the order of words. -/
def valueOf? (m : Model) (name : String) : Option Value :=
  (m.bindings.find? fun b => b.name = name).map Binding.value

/-- The first reported value of an objective. -/
def objective? (m : Model) (name : String) : Option Extended :=
  (m.objectives.find? fun o => o.name = name).map ObjectiveValue.value

def isEmpty (m : Model) : Bool :=
  m.bindings.isEmpty && m.objectives.isEmpty

/-- Whether every objective is at an ordinary number. -/
def isFinite (m : Model) : Bool :=
  m.objectives.all fun o => o.value.isFinite

/-- A line for every binding and every objective. -/
def text (m : Model) : String :=
  String.join
    (m.bindings.map (fun b =>
      "  " ++ b.name ++ " = " ++ b.value.text ++ " :: " ++ b.value.kind.text ++ "\n") ++
    m.objectives.map fun o => "  " ++ o.name ++ " -> " ++ o.value.text ++ "\n")

end Model

end SmtDialogue
