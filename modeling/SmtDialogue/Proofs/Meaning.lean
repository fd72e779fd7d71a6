import Mathlib
import SmtDialogue.Script.Emission

/-!
# What scripts and programs mean

Sorts, operators and literals are given a fixed meaning, and with it the commands of
a script say whether the script has a model: declarations may be met in any way, a
definition gives its value to its name, and every assertion has to hold. A program
says the same without functions and local bindings: its inputs are quantified one
after the other, and each word has the value of the operation that defines it.
Nothing is assumed about the operators but what negation and conjunction do.
-/

namespace SmtDialogue

universe u

/-- What the names of a script stand for, as functions of their arguments. -/
abbrev Env (U : Type u) := Name → List U → U

/-- The values of the words of a program. -/
abbrev Valuation (U : Type u) := WordId → U

/-- The meaning of everything that a script uses and does not introduce. Sorts are
known by their texts, so kinds that are written alike share their values. -/
structure Reading (U : Type u) where
  carrier : String → U → Prop
  inhabited : ∀ sort, ∃ u, carrier sort u
  operator : Operator → List U → U
  literal : Value → U
  /-- The meaning of names that are never introduced. -/
  name : Env U
  holds : U → Prop
  holds_and : ∀ us, holds (operator (.builtIn "and") us) ↔ ∀ u ∈ us, holds u
  holds_not : ∀ u, holds (operator (.builtIn "not") [u]) ↔ ¬holds u

/-- Introduces a word that has a value. -/
def Env.setWord {U : Type u} (env : Env U) (id : WordId) (u : U) : Env U :=
  Function.update env (.word id) fun _ => u

namespace Reading

variable {U : Type u} (R : Reading U)

mutual

def eval (env : Env U) : Term → U
  | .name n => env n []
  | .literal v => R.literal v
  | .apply (.declared n) args => env n (evalArgs env args)
  | .apply operator args => R.operator operator (evalArgs env args)

def evalArgs (env : Env U) : List Term → List U
  | [] => []
  | t :: rest => eval env t :: evalArgs env rest

end

/-- Words that get the values of terms, each before the next one. -/
def defineAll (env : Env U) (bindings : List (WordId × Term)) : Env U :=
  bindings.foldl (fun env b => env.setWord b.1 (R.eval env b.2)) env

/-- What holds whatever values of their kinds some words have. -/
def ForAll (P : Env U → Prop) : List (WordId × Kind) → Env U → Prop
  | [], env => P env
  | (id, kind) :: rest, env =>
    ∀ u, R.carrier kind.sortText u → ForAll P rest (env.setWord id u)

/-- Functions that a declaration allows. -/
def Maps (args : List NameSort) (sort : NameSort) (f : List U → U) : Prop :=
  ∀ us, List.Forall₂ (fun u (arg : NameSort) => R.carrier arg.text u) us args →
    R.carrier sort.text (f us)

/-- The commands from here on have a model when the names introduced so far stand for
what the environment says. Only declarations, definitions and assertions count. -/
def HasModel : Env U → List Command → Prop
  | _, [] => True
  | env, .declare name args sort _ :: rest =>
    ∃ f, R.Maps args sort f ∧ HasModel (Function.update env name f) rest
  | env, .define name _ body _ :: rest =>
    HasModel (Function.update env name fun _ => R.eval env body) rest
  | env, .assert t :: rest => R.holds (R.eval env t) ∧ HasModel env rest
  | env, .assertForall binders bindings body :: rest =>
    R.ForAll (fun inner => R.holds (R.eval (R.defineAll inner bindings) body)) binders env ∧
      HasModel env rest
  | env, _ :: rest => HasModel env rest

/-- Quantifies the inputs one after the other, each over the values of its kind. -/
def Quantified (quantifier : Input → Quantifier) (P : Valuation U → Prop) :
    List Input → Valuation U → Prop
  | [], v => P v
  | i :: rest, v =>
    match quantifier i with
    | .all =>
      ∀ u, R.carrier i.var.kind.sortText u →
        Quantified quantifier P rest (Function.update v i.var.id u)
    | .exist =>
      ∃ u, R.carrier i.var.kind.sortText u ∧
        Quantified quantifier P rest (Function.update v i.var.id u)

/-- The environment in which the words have these values. -/
def env (v : Valuation U) : Env U
  | .word id, _ => v id
  | n, us => R.name n us

end Reading

namespace Program

variable {U : Type u} (R : Reading U) (p : Program)

/-- The term of the operation that defines a word, at the kinds its arguments have. -/
def body? (a : Assignment) : Option Term := do
  let operands ← a.args.mapM fun id => (p.wordKind? id).map fun kind => (id, kind)
  (a.op.term a.kind operands).toOption

/-- The value of a defined word, given the words before it. -/
def wordValue (v : Valuation U) (a : Assignment) : U :=
  match p.body? a with
  | some t => R.eval (R.env v) t
  | none => v a.id

/-- The values of all words, given those of the inputs. -/
def values (v : Valuation U) : Valuation U :=
  let v := p.constants.foldl (fun v k => Function.update v k.1 (R.literal k.2)) v
  p.assignments.foldl (fun v a => Function.update v a.id (p.wordValue R v a)) v

/-- What a program says of its words under the quantifiers of its inputs. -/
def Prenex (matrix : Valuation U → Prop) : Prop :=
  R.Quantified Input.quantifier (fun v => matrix (p.values R v)) p.inputs
    fun id => R.name (.word id) []

/-- Programs of inputs, constants and defined words only, no word introduced twice. -/
structure Plain : Prop where
  sorts : p.sorts = []
  tables : p.tables = []
  arrays : p.arrays = []
  functions : p.functions = []
  assumptions : p.assumptions = []
  objectives : p.objectives = []
  distinct : (p.words.map Prod.fst).Nodup

end Program

end SmtDialogue
