import SmtDialogue.Proofs.Tables
import SmtDialogue.Proofs.Terms
import SmtDialogue.Proofs.Transcript
import SmtDialogue.Script.Session

/-!
# The words that commands use

A command uses some words and may introduce one. A list of commands is chained when
each of them uses only words that were known before the list or that an earlier command
of it introduces. The commands of a fragment are chained to the words in scope, and they
introduce the words of the fragment.
-/

namespace SmtDialogue

namespace Term

mutual

/-- The words in a term, in the order they stand. -/
def words : Term → List WordId
  | .name (.word id) => [id]
  | .name _ => []
  | .literal _ => []
  | .apply (.declared (.word id)) args => id :: wordsAll args
  | .apply _ args => wordsAll args

def wordsAll : List Term → List WordId
  | [] => []
  | t :: rest => t.words ++ wordsAll rest

end

variable {known : WordId → Prop}

mutual

theorem Over.mem_words : ∀ {t : Term}, t.Over known → ∀ id ∈ t.words, known id
  | .name (.word _), mentions => by simpa [words, Over] using mentions
  | .name (.table _), _ | .name (.array _), _ | .name (.function _), _ | .literal _, _ => by
    simp [words]
  | .apply (.declared (.word _)) _, mentions => by simp [Over] at mentions
  | .apply (.declared (.table _)) _, mentions | .apply (.declared (.array _)) _, mentions
  | .apply (.declared (.function _)) _, mentions | .apply (.builtIn _) _, mentions
  | .apply (.rounded _) _, mentions | .apply (.extract _ _) _, mentions
  | .apply (.everywhere _) _, mentions => by
    simp only [Over] at mentions
    simpa only [words] using OverAll.mem_wordsAll mentions

theorem OverAll.mem_wordsAll : ∀ {ts : List Term}, OverAll known ts → ∀ id ∈ wordsAll ts, known id
  | [], _ => by simp [wordsAll]
  | _ :: _, mentions => by
    simp only [OverAll] at mentions
    intro id member
    rcases List.mem_append.mp member with first | others
    · exact Over.mem_words mentions.1 id first
    · exact OverAll.mem_wordsAll mentions.2 id others

end

end Term

namespace Command

/-- The words that a body uses behind words which are bound one after the other. -/
def freeWords (body : Term) : List (WordId × Term) → List WordId
  | [] => body.words
  | (id, t) :: rest => t.words ++ (freeWords body rest).filter (· ≠ id)

/-- The words that a command uses and does not bind itself. -/
def words : Command → List WordId
  | .define _ _ body _ => body.words
  | .assert t => t.words
  | .assertForall binders bindings body =>
    (freeWords body bindings).filter fun id => id ∉ binders.map Prod.fst
  | .minimize id | .maximize id | .assertSoft id _ _ => [id]
  | .getValue ids => ids
  | _ => []

/-- The word that a command declares or defines. -/
def introduced : Command → List WordId
  | .declare (.word id) _ _ _ | .define (.word id) _ _ _ => [id]
  | _ => []

/-- The words that commands declare or define, in order. -/
def introducedBy (cs : List Command) : List WordId :=
  cs.flatMap introduced

/-- Each command uses words that are known or that a command before it introduces. -/
def Chained : List WordId → List Command → Prop
  | _, [] => True
  | known, c :: rest => (∀ id ∈ c.words, id ∈ known) ∧ Chained (known ++ c.introduced) rest

variable {known new : List WordId} {cs : List Command}

theorem chained_append {ds : List Command} :
    Chained known (cs ++ ds) ↔ Chained known cs ∧ Chained (known ++ introducedBy cs) ds := by
  induction cs generalizing known with
  | nil => simp [Chained, introducedBy]
  | cons c rest ih => simp [Chained, ih, introducedBy, and_assoc]

theorem Chained.known_before {before after : List Command} {c : Command}
    (chained : Chained known (before ++ c :: after)) :
    ∀ id ∈ c.words, id ∈ known ++ introducedBy before :=
  (chained_append.mp chained).2.1

/-- Whether a command declares, defines or asserts something. -/
def Contributes : Command → Prop
  | .declareSort _ _ | .declare _ _ _ _ | .define _ _ _ _ | .assert _ => True
  | _ => False

theorem Contributes.tells {c : Command} (contributes : c.Contributes) : c.Tells := by
  cases c <;> trivial

/-- A command that says something about known words and introduces none. -/
structure Settles (known : List WordId) (c : Command) : Prop where
  contributes : c.Contributes
  introduced : c.introduced = []
  words : ∀ id ∈ c.words, id ∈ known

/-- A command that introduces one word and uses none. -/
structure Introduces (id : WordId) (c : Command) : Prop where
  contributes : c.Contributes
  introduced : c.introduced = [id]
  words : c.words = []

/-- Commands that are chained and introduce these words. -/
structure Adds (known : List WordId) (cs : List Command) (new : List WordId) : Prop where
  contributes : ∀ c ∈ cs, c.Contributes
  chained : Chained known cs
  introduced : introducedBy cs = new

theorem Adds.tells (adds : Adds known cs new) : ∀ c ∈ cs, c.Tells :=
  fun c hc => (adds.contributes c hc).tells

theorem Adds.nil : Adds known [] [] :=
  ⟨by simp, trivial, rfl⟩

theorem Adds.cons {c : Command} (contributes : c.Contributes) (words : ∀ id ∈ c.words, id ∈ known)
    (rest : Adds (known ++ c.introduced) cs new) : Adds known (c :: cs) (c.introduced ++ new) where
  contributes := List.forall_mem_cons.mpr ⟨contributes, rest.contributes⟩
  chained := ⟨words, rest.chained⟩
  introduced := by
    rw [← rest.introduced]
    rfl

theorem Adds.append {ds : List Command} {more : List WordId} (first : Adds known cs new)
    (second : Adds (known ++ new) ds more) : Adds known (cs ++ ds) (new ++ more) where
  contributes := List.forall_mem_append.mpr ⟨first.contributes, second.contributes⟩
  chained := chained_append.mpr ⟨first.chained, first.introduced ▸ second.chained⟩
  introduced := by
    rw [← first.introduced, ← second.introduced]
    exact List.flatMap_append

theorem adds_settles (each : ∀ c ∈ cs, c.Settles known) : Adds known cs [] := by
  induction cs with
  | nil => exact .nil
  | cons c rest ih =>
    obtain ⟨contributes, none, words⟩ := each c List.mem_cons_self
    have others := ih fun e he => each e (List.mem_cons_of_mem c he)
    have whole := Adds.cons contributes words (by rwa [none, List.append_nil])
    rwa [none] at whole

theorem adds_introduces {α : Type} {xs : List α} {command : α → Command} {id : α → WordId}
    (each : ∀ x, (command x).Introduces (id x)) : Adds known (xs.map command) (xs.map id) := by
  induction xs generalizing known with
  | nil => exact .nil
  | cons x rest ih =>
    obtain ⟨contributes, introduced, none⟩ := each x
    have words : ∀ word ∈ (command x).words, word ∈ known := by simp [none]
    have whole := Adds.cons contributes words ih
    rwa [introduced] at whole

end Command

namespace Scope

variable {s : Scope} {known : List WordId}

/-- Every word in scope is one of these. -/
def Within (s : Scope) (known : List WordId) : Prop :=
  ∀ d ∈ s, d.id ∈ known

theorem Within.declare (within : s.Within known) (id : WordId) (kind : Kind) (top : Bool) :
    (s.declare id kind top).Within (known ++ [id]) := by
  intro d hd
  rcases Keyed.mem_of_mem_put hd with rfl | old
  · simp
  · exact List.mem_append_left _ (within d old)

theorem Within.foldl_declare {α : Type} (xs : List α) (id : α → WordId) (kind : α → Kind)
    (within : s.Within known) :
    (xs.foldl (fun s x => s.declare (id x) (kind x) true) s).Within (known ++ xs.map id) := by
  induction xs generalizing s known with
  | nil => simpa using within
  | cons x rest ih => simpa using ih (within.declare (id x) (kind x) true)

theorem Within.of_find? (within : s.Within known) {id : WordId} {d : Declared}
    (found : s.find? id = some d) : id ∈ known := by
  have same : d.id = id := by simpa using List.find?_some found
  exact same ▸ within d (List.mem_of_find?_eq_some found)

theorem Within.of_kind (within : s.Within known) {id : WordId} {kind : Kind}
    (found : s.kind id = .ok kind) : id ∈ known := by
  obtain ⟨d, here, _⟩ := Option.map_eq_some_iff.mp (kind_eq_ok.mp found)
  exact within.of_find? here

theorem Within.of_requireTop (within : s.Within known) {id : WordId}
    (passed : s.requireTop id = .ok ()) : id ∈ known := by
  cases found : s.find? id with
  | some d => exact within.of_find? found
  | none =>
    rw [requireTop, isTop, found] at passed
    cases passed

end Scope

section

variable {scope : Scope} {known : List WordId}

theorem ArrayDecl.settles_command {a : ArrayDecl} {c : Command}
    (written : a.command scope = .ok c) (within : scope.Within known) : c.Settles known := by
  obtain rfl | ⟨default, passed, rfl⟩ := ArrayDecl.command_eq_ok written
  · exact ⟨trivial, rfl, by simp [Command.words]⟩
  · refine ⟨trivial, rfl, fun id member => ?_⟩
    obtain rfl : id = default := by
      simpa [Command.words, Term.words, Term.wordsAll, Term.word] using member
    exact within.of_requireTop passed

theorem Assignment.words_term {a : Assignment} {t : Term} (written : a.term scope = .ok t)
    (within : scope.Within known) : ∀ id ∈ t.words, id ∈ known := by
  obtain ⟨operands, _, kinds, built⟩ := Assignment.term_eq_ok written
  intro id member
  obtain ⟨o, ho, rfl⟩ := List.mem_map.mp ((Op.over_term built).mem_words id member)
  exact within.of_kind (Scope.kind_eq_ok.mpr (kinds o ho))

theorem Table.settles_entryCommand {t : Table} {place : Nat} {element : WordId} {c : Command}
    (written : t.entryCommand scope place element = .ok c) (within : scope.Within known) :
    c.Settles known := by
  obtain ⟨passed, _, _, rfl⟩ := Table.entryCommand_eq_ok written
  refine ⟨trivial, rfl, fun id member => ?_⟩
  obtain rfl : id = element := by
    simpa [Command.words, Term.call, Term.words, Term.wordsAll, Term.word] using member
  exact within.of_requireTop passed

theorem Table.settles_entryCommands {t : Table} {cs : List Command}
    (written : t.entryCommands scope = .ok cs) (within : scope.Within known) :
    ∀ c ∈ cs, c.Settles known := by
  intro c hc
  obtain ⟨⟨element, place⟩, _, one⟩ :=
    (Except.mapM_eq_ok.mp written).exists_of_mem_right hc
  exact t.settles_entryCommand one within

theorem Scope.Within.settles_assert (within : scope.Within known) {id : WordId} {kind : Kind}
    (found : scope.kind id = .ok kind) : (Command.assert (.word id)).Settles known where
  contributes := trivial
  introduced := rfl
  words := by simpa [Command.words, Term.word, Term.words] using within.of_kind found

end

namespace Delta

open Command (Adds adds_settles adds_introduces)

variable {known : List WordId}

/-- The definitions of a fragment, one after the other. -/
theorem adds_foldlM_add {assignments : List Assignment} {w next : Written}
    (written : assignments.foldlM Written.add w = .ok next) (within : w.scope.Within known) :
    ∃ added, next.commands = w.commands ++ added ∧
      Adds known added (assignments.map Assignment.id) ∧
      next.scope.Within (known ++ assignments.map Assignment.id) := by
  induction assignments generalizing w known with
  | nil =>
    cases written
    exact ⟨[], by simp, .nil, by simpa using within⟩
  | cons a rest ih =>
    rw [List.foldlM_cons, Except.bind_eq_ok] at written
    obtain ⟨middle, first, others⟩ := written
    obtain ⟨body, term, same⟩ := Except.bind_eq_ok.mp first
    cases same
    obtain ⟨added, commands, adds, scope⟩ := ih others (within.declare a.id a.kind true)
    have words : ∀ id ∈ (a.command body).words, id ∈ known := Assignment.words_term term within
    exact ⟨a.command body :: added, by simp [commands], .cons trivial words adds,
      by simpa using scope⟩

/-- The scope behind the inputs and constants of a fragment. -/
def given (d : Delta) (scope : Scope) : Scope :=
  d.constants.foldl (fun s k => s.declare k.1 k.2.kind true)
    (d.inputs.foldl (fun s v => s.declare v.id v.kind true) scope)

/-- The parts of a fragment that depend on what is in scope. -/
structure Parts where
  arrays : List Command
  definitions : Written
  entries : List (List Command)

/-- What a fragment that could be written consists of. -/
structure Parts.Of (parts : Parts) (d : Delta) (scope : Scope) : Prop where
  arrays : List.Forall₂ (fun a c => ArrayDecl.command a (d.given scope) = .ok c)
    d.arrays parts.arrays
  definitions : d.assignments.foldlM Written.add ⟨[], d.given scope⟩ = .ok parts.definitions
  entries : List.Forall₂ (fun t cs => Table.entryCommands t parts.definitions.scope = .ok cs)
    d.tables parts.entries
  known : ∀ id ∈ d.assertions, ∃ kind, parts.definitions.scope.kind id = .ok kind

theorem commands_eq_ok {d : Delta} {scope : Scope} {w : Written}
    (written : d.commands scope = .ok w) :
    ∃ parts : Parts, parts.Of d scope ∧ w.scope = parts.definitions.scope ∧
      w.commands = d.sorts.map SortDecl.command ++ d.inputs.map Variable.command ++
        d.constants.map (fun k => constantCommand k.1 k.2) ++ d.tables.map Table.command ++
        parts.arrays ++ d.functions.map FunctionDecl.command ++ parts.definitions.commands ++
        parts.entries.flatten ++ d.assertions.map (fun id => .assert (.word id)) := by
  obtain ⟨arrays, declared, written⟩ := Except.bind_eq_ok.mp written
  obtain ⟨last, defined, written⟩ := Except.bind_eq_ok.mp written
  obtain ⟨entries, fixed, written⟩ := Except.bind_eq_ok.mp written
  obtain ⟨_, asserted, written⟩ := Except.bind_eq_ok.mp written
  cases written
  exact ⟨⟨arrays, last, entries⟩, ⟨Except.mapM_eq_ok.mp declared, defined,
    Except.mapM_eq_ok.mp fixed, Scope.forM_kind_eq_ok.mp asserted⟩, rfl, rfl⟩

/-- A fragment that is written uses words in scope and words it introduces before, and
it introduces its own words and no others. -/
theorem adds_commands {d : Delta} {scope : Scope} {w : Written}
    (written : d.commands scope = .ok w) (within : scope.Within known) :
    Adds known w.commands d.words ∧ w.scope.Within (known ++ d.words) := by
  obtain ⟨parts, shape, last, whole⟩ := commands_eq_ok written
  have opened := within.foldl_declare d.inputs Variable.id Variable.kind
  have before := opened.foldl_declare d.constants Prod.fst fun k => k.2.kind
  obtain ⟨added, commands, definitions, scope⟩ := adds_foldlM_add shape.definitions before
  have sorts : ∀ c ∈ d.sorts.map SortDecl.command, c.Settles known := by
    simpa using fun s _ => ⟨trivial, rfl, by simp [SortDecl.command, Command.words]⟩
  have inputs : ∀ k, Adds k (d.inputs.map Variable.command) (d.inputs.map Variable.id) :=
    fun _ => adds_introduces fun _ => ⟨trivial, rfl, rfl⟩
  have constants : ∀ k, Adds k (d.constants.map fun c => constantCommand c.1 c.2)
      (d.constants.map Prod.fst) :=
    fun _ => adds_introduces fun _ => ⟨trivial, rfl, rfl⟩
  have declarations : ∀ c ∈ d.tables.map Table.command ++ parts.arrays ++
      d.functions.map FunctionDecl.command,
      c.Settles (known ++ d.inputs.map Variable.id ++ d.constants.map Prod.fst) := by
    intro c hc
    rcases List.mem_append.mp hc with front | function
    · rcases List.mem_append.mp front with table | array
      · obtain ⟨t, _, rfl⟩ := List.mem_map.mp table
        exact ⟨trivial, rfl, by simp [Table.command, Command.words]⟩
      · obtain ⟨a, _, one⟩ := shape.arrays.exists_of_mem_right array
        exact a.settles_command one before
    · obtain ⟨f, _, rfl⟩ := List.mem_map.mp function
      exact ⟨trivial, rfl, by simp [FunctionDecl.command, Command.words]⟩
  have assertions : ∀ c ∈ parts.entries.flatten ++
        d.assertions.map fun id => Command.assert (.word id),
      c.Settles (known ++ d.inputs.map Variable.id ++ d.constants.map Prod.fst ++
        d.assignments.map Assignment.id) := by
    intro c hc
    rcases List.mem_append.mp hc with entry | assertion
    · obtain ⟨cs, hcs, member⟩ := List.mem_flatten.mp entry
      obtain ⟨t, _, one⟩ := shape.entries.exists_of_mem_right hcs
      exact t.settles_entryCommands one scope c member
    · obtain ⟨id, member, rfl⟩ := List.mem_map.mp assertion
      obtain ⟨k, found⟩ := shape.known id member
      exact scope.settles_assert found
  have words := ((adds_settles sorts).append (inputs _)).append (constants _)
  have all := ((words.append (by simpa using adds_settles declarations)).append
    (by simpa using definitions)).append (by simpa using adds_settles assertions)
  refine ⟨?_, by simpa [Delta.words, last] using scope⟩
  simpa [Delta.words, whole, commands] using all

end Delta

end SmtDialogue
