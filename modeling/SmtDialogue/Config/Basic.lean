import SmtDialogue.Solver
import SmtDialogue.Text.Blank
import SmtDialogue.Text.Quoted

/-!
# Configurations

A configuration says which solver is asked and how queries for it are written.
The sentinel is echoed between the models of one answer and recognised there as a
whole line. A configuration is valid when its sentinel can play that part: it is
not empty, has no blanks around it, holds no quote and no control character, and
is not a line that reports a status.
-/

namespace SmtDialogue

/-- The language queries are written in. -/
inductive Dialect where
  | smtLib2
deriving DecidableEq

def Dialect.text : Dialect → String
  | .smtLib2 => "SMT-LIB2"

/-- A solver known by name, or one described by its capabilities. -/
inductive SolverChoice where
  | preset (p : Preset)
  | custom (c : Capabilities)
deriving DecidableEq

def SolverChoice.capabilities : SolverChoice → Capabilities
  | .preset p => p.capabilities
  | .custom c => c

def defaultSentinel : String := "smtlink-multi-model-separator"

structure Config where
  solver : SolverChoice
  dialect : Dialect
  /-- The logic to declare; inferred from the program when absent. -/
  logic : Option String
  produceModels : Bool
  sentinel : String
  timeoutMs : Option Nat
  /-- Further options in ascending order of their names, each name once. -/
  options : List (String × String)
deriving DecidableEq

/-- Why a sentinel cannot separate models. -/
inductive SentinelFault where
  | blankEdges
  | unprintable
  | status
deriving DecidableEq

structure ConfigError where
  sentinel : String
  fault : SentinelFault
deriving DecidableEq

def SentinelFault.reason : SentinelFault → String
  | .blankEdges => "must be non-empty without surrounding whitespace"
  | .unprintable => "must be printable and free of quotes"
  | .status => "is a solver status line"

def ConfigError.message (e : ConfigError) : String :=
  "Invalid configuration: sentinel " ++ Text.quoted e.sentinel ++ " " ++ e.fault.reason

/-- The lines that report the status of a run. -/
def statusLines : List String := ["sat", "unsat", "unknown", "timeout"]

namespace Config

def standard : Config where
  solver := .preset .z3
  dialect := .smtLib2
  logic := none
  produceModels := true
  sentinel := defaultSentinel
  timeoutMs := none
  options := []

def capabilities (c : Config) : Capabilities :=
  c.solver.capabilities

/-- Adds an option in the order of names, in place of an earlier one of that name. -/
def putOption (name value : String) : List (String × String) → List (String × String)
  | [] => [(name, value)]
  | (other, old) :: rest =>
    if name < other then (name, value) :: (other, old) :: rest
    else if name = other then (name, value) :: rest
    else (other, old) :: putOption name value rest

/-- What keeps a sentinel from separating models. -/
def sentinelFault? (s : String) : Option SentinelFault :=
  if s.isEmpty || Text.trim s != s then some .blankEdges
  else if s.toList.any fun c => c = '"' || Text.isControl c then some .unprintable
  else if statusLines.contains s then some .status
  else none

def validate (c : Config) : Except ConfigError Unit :=
  match sentinelFault? c.sentinel with
  | some fault => .error ⟨c.sentinel, fault⟩
  | none => .ok ()

end Config

end SmtDialogue
