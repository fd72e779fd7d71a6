import SmtDialogue.Config.Basic
import SmtDialogue.Config.Toml.Document
import SmtDialogue.Config.Yaml.Document

/-!
# Configurations from documents

A configuration is read from the table of a document. Every field may be left out
and then has its standard value; keys that are no fields are passed over. The
solver is the name of a preset or a table of capabilities, inside which everything
is decided before it is read. The configuration that is read must be valid.
-/

namespace SmtDialogue

/-- Why a document gives no configuration. -/
inductive DocumentError where
  | unreadable
  | invalid (e : ConfigError)
deriving DecidableEq

namespace Capabilities

def fieldNames : List String :=
  ["name", "supports_unbounded_ints", "supports_reals", "supports_ieee754",
    "supports_quantifiers", "supports_uninterpreted_sorts", "supports_optimization"]

/-- A capability that is not declared is missing. -/
def flag? : Option Datum → Option Bool
  | none => some false
  | some d => d.boolean?

def ofDatum? (d : Datum) : Option Capabilities := do
  match ← d.fields? fieldNames with
  | [some name, integers, reals, floats, quantifiers, sorts, optimization] =>
    return {
      name := ← name.text?
      integers := ← flag? integers
      reals := ← flag? reals
      floats := ← flag? floats
      quantifiers := ← flag? quantifiers
      sorts := ← flag? sorts
      optimization := ← flag? optimization }
  | _ => none

end Capabilities

namespace SolverChoice

def presetKeys : List String := Preset.all.map Preset.key

/-- A preset is named by a word, or by the only key of a table that gives it nothing. -/
def preset? : Datum → Option Preset
  | .text s => Preset.ofKey? s
  | .table [(key, .nothing)] => (key.place? presetKeys).bind fun i => Preset.all[i]?
  | _ => none

def ofDatum? (d : Datum) : Option SolverChoice := do
  let d ← d.decided?
  match preset? d with
  | some p => return .preset p
  | none => return .custom (← Capabilities.ofDatum? d)

end SolverChoice

/-- The formats of documents. -/
inductive DocumentFormat where
  | toml
  | yaml
deriving DecidableEq

namespace Dialect

def key : Dialect → String
  | .smtLib2 => "smtlib2"

def ofKey? (s : String) : Option Dialect :=
  if s = key .smtLib2 then some .smtLib2 else none

/-- A dialect is named by a word. One format can also name it by a tag without a value,
the other by the only key of a table, whose value is empty. -/
def ofDatum? : DocumentFormat → Datum → Option Dialect
  | .yaml, .tagged tag d =>
    if Tag.isLocal tag then if d.isNothing then ofKey? (Tag.name tag) else none
    else d.text?.bind ofKey?
  | .toml, .table [(key, .table [])] | .toml, .table [(key, .list [])] => key.text?.bind ofKey?
  | _, d => d.text?.bind ofKey?

end Dialect

namespace Config

def fieldNames : List String :=
  ["solver", "dialect", "logic", "produce_models", "sentinel", "timeout_ms", "options"]

/-- The options of a table; of two with one name the later counts. -/
def optionsOf? (d : Datum) : Option (List (String × String)) :=
  match d.untagged with
  | .table entries =>
    entries.foldlM (fun options e => do
      return putOption (← e.1.text?) (← e.2.text?) options) []
  | d => if d.isEmpty then some [] else none

/-- The value of a field, or its standard value when the field is left out. -/
def fieldOr {α : Type} (standard : α) (read : Datum → Option α) : Option Datum → Option α
  | none => some standard
  | some d => read d

def ofDatum? (format : DocumentFormat) (d : Datum) : Option Config := do
  match ← d.fields? fieldNames with
  | [solver, dialect, logic, produceModels, sentinel, timeout, options] =>
    return {
      solver := ← fieldOr standard.solver SolverChoice.ofDatum? solver
      dialect := ← fieldOr standard.dialect (Dialect.ofDatum? format) dialect
      logic := ← fieldOr standard.logic (Datum.optional? Datum.text?) logic
      produceModels := ← fieldOr standard.produceModels Datum.boolean? produceModels
      sentinel := ← fieldOr standard.sentinel Datum.text? sentinel
      timeoutMs := ← fieldOr standard.timeoutMs (Datum.optional? Datum.natural?) timeout
      options := ← fieldOr standard.options optionsOf? options }
  | _ => none

/-- A valid configuration from what is read of a document. -/
def ofDocument (format : DocumentFormat) (read : Option Datum) : Except DocumentError Config :=
  match read.bind (ofDatum? format) with
  | none => .error .unreadable
  | some c =>
    match c.validate with
    | .error e => .error (.invalid e)
    | .ok () => .ok c

def ofToml (text : String) : Except DocumentError Config :=
  ofDocument .toml (Toml.read text)

def ofYaml (text : String) : Except DocumentError Config :=
  ofDocument .yaml (Yaml.read fieldNames text)

end Config

end SmtDialogue
