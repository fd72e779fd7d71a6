import SmtDialogue.Answer.Split
import SmtDialogue.Script.Query
import SmtDialogue.Script.Session

/-!
# Dialogues

A dialogue has a valid configuration. It prepares a full query for a program and
interprets the answer, line by line, with what the query was prepared from. The
solver is run elsewhere.
-/

namespace SmtDialogue

structure Dialogue where
  config : Config
  valid : config.validate = .ok ()

/-- The text of a query and what is needed to read its answer. -/
structure PreparedQuery where
  script : Script
  table : SymbolTable
  expectedModels : Nat

def PreparedQuery.text (q : PreparedQuery) : String :=
  q.script.text

namespace Dialogue

/-- A dialogue, if the configuration is valid. -/
def open? (c : Config) : Except ConfigError Dialogue :=
  match h : c.validate with
  | .ok () => .ok ⟨c, h⟩
  | .error e => .error e

def prepare (d : Dialogue) (p : Program) : Except QueryError PreparedQuery := do
  return ⟨← Script.query d.config p, p.symbolTable, p.expectedModels⟩

def normalizer (d : Dialogue) : Normalizer :=
  d.config.dialect.normalizer

/-- The outcome of an answer that holds one model. -/
def interpretOne (d : Dialogue) (q : PreparedQuery) (lines : List String) :
    Except AnswerError Outcome :=
  Outcome.classify d.normalizer q.table lines

/-- The outcomes of an answer, one for each expected model. -/
def interpret (d : Dialogue) (q : PreparedQuery) (lines : List String) :
    Except AnswerError (List Outcome) :=
  if q.expectedModels = 1 then (d.interpretOne q lines).map ([·])
  else Outcome.split d.normalizer q.table q.expectedModels d.config.sentinel lines

/-- Writes a fragment of an incremental session with the configured solver. -/
def fragment (d : Dialogue) (s : Session) (delta : Delta) : Except QueryError (Script × Session) :=
  s.fragment d.config.capabilities delta

end Dialogue

end SmtDialogue
