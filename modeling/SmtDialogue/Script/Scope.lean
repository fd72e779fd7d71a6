import SmtDialogue.Keyed
import SmtDialogue.Script.Operation

/-!
# Scopes

While text is written, the scope holds the words that may be used, their kinds,
and whether they stand outside every quantifier. Tables, arrays and objectives
may only refer to words outside.
-/

namespace SmtDialogue

/-- A word in scope; `top` says that it was introduced outside every quantifier. -/
structure Declared where
  id : WordId
  kind : Kind
  top : Bool
deriving DecidableEq

/-- The words in scope, in ascending order. -/
abbrev Scope := List Declared

namespace Scope

def find? (s : Scope) (id : WordId) : Option Declared :=
  Keyed.get? Declared.id id s

def kind? (s : Scope) (id : WordId) : Option Kind :=
  (s.find? id).map Declared.kind

def isTop (s : Scope) (id : WordId) : Bool :=
  (s.find? id).any Declared.top

/-- Introduces a word. One that was outside stays so when it is introduced again. -/
def declare (s : Scope) (id : WordId) (kind : Kind) (top : Bool) : Scope :=
  Keyed.put Declared.id ⟨id, kind, top || s.isTop id⟩ s

def forget (s : Scope) (id : WordId) : Scope :=
  Keyed.remove Declared.id id s

/-- The kind of a word in scope. -/
def kind (s : Scope) (id : WordId) : Except EmitError Kind :=
  match s.kind? id with
  | some kind => .ok kind
  | none => .error (.undeclared id)

/-- Passes a word that stands outside every quantifier. -/
def requireTop (s : Scope) (id : WordId) : Except EmitError Unit :=
  if s.isTop id then .ok () else .error (.undeclared id)

end Scope

end SmtDialogue
