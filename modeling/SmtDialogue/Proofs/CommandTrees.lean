import SmtDialogue.Proofs.Applications
import SmtDialogue.Proofs.Printing

/-!
# Commands as trees

What a command means is a tree in which every name the user chose is the symbol of that name.
Labels and groups are quoted where they need it. The names of sorts and functions are not:
they stand in the text as they are, so the text reads as the tree when each of them, read
alone, is its own symbol.
-/

namespace SmtDialogue

open SExpr (fold)

/-- Read alone, the name is the symbol of that name. -/
def ReadsAlone (name : String) : Prop :=
  SExpr.parse name = .ok (.atom (.symbol name))

instance (name : String) : Decidable (ReadsAlone name) :=
  inferInstanceAs (Decidable (SExpr.parse name = .ok (.atom (.symbol name))))

open SExpr (named numeral)

def Name.tree (n : Name) : SExpr := named n.text

/-- The sort of a kind. -/
def Kind.tree : Kind → SExpr
  | .bits _ width => .app [named "_", named "BitVec", numeral width.toNat]
  | .float => .app [named "_", named "FloatingPoint", numeral 8, numeral 24]
  | .double => .app [named "_", named "FloatingPoint", numeral 11, numeral 53]
  | kind => named kind.sortText

def NameSort.tree : NameSort → SExpr
  | .value kind => kind.tree
  | .array index elem => .app [named "Array", index.tree, elem.tree]

/-- The items that an application starts with. -/
def Operator.items : Operator → List SExpr
  | .builtIn name => [named name]
  | .rounded name => [named name, named "RNE"]
  | .extract high low => [.app [named "_", named "extract", numeral high, numeral low]]
  | .declared n => [n.tree]
  | .everywhere sort => [.app [named "as", named "const", sort.tree]]

/-- A label is the symbol of that label, and any other value what its literal reads as. -/
def Value.tree (v : Value) : SExpr :=
  match v.payload with
  | .element _ label => named label
  | _ => (SExpr.parse v.literal).toOption.getD (.app [])

namespace Term

mutual

def tree : Term → SExpr
  | .name n => n.tree
  | .literal v => v.tree
  | .apply operator args => .app (operator.items ++ treeAll args)

def treeAll : List Term → List SExpr
  | [] => []
  | t :: rest => tree t :: treeAll rest

end

end Term

namespace Command

/-- The words bound one after the other, and the body. -/
def chainTree (body : Term) : List (WordId × Term) → SExpr
  | [] => body.tree
  | b :: rest =>
    .app [named "let", .app [.app [named b.1.text, b.2.tree]], chainTree body rest]

/-- The trees of the commands that a name of a sort, a label, a function or a group can stand in. -/
def tree? : Command → Option SExpr
  | .declareSort name none => some (.app [named "declare-sort", named name, numeral 0])
  | .declareSort name (some labels) =>
    some (.app [named "declare-datatypes", .app [.app [named name, numeral 0]],
      .app [.app (labels.map fun label => .app [named label])]])
  | .declare n args sort _ =>
    some (.app [named "declare-fun", n.tree, .app (args.map NameSort.tree), sort.tree])
  | .define n sort body _ =>
    some (.app [named "define-fun", n.tree, .app [], sort.tree, body.tree])
  | .assert t => some (.app [named "assert", t.tree])
  | .assertForall binders bindings body =>
    some (.app [named "assert", .app [named "forall",
      .app (binders.map fun b => .app [named b.1.text, b.2.tree]), chainTree body bindings]])
  | .assertSoft id weight group =>
    some (.app ([named "assert-soft", named id.text, .atom (.keyword ":weight"), numeral weight] ++
      match group with
      | some group => [.atom (.keyword ":id"), named group]
      | none => []))
  | _ => none

end Command

/-- The sort that a kind is written with, if the user named it. -/
def Kind.rawNames : Kind → List String
  | .sort name _ => [name]
  | _ => []

def NameSort.rawNames : NameSort → List String
  | .value kind => kind.rawNames
  | .array index elem => index.rawNames ++ elem.rawNames

def Name.rawNames : Name → List String
  | .function name => [name]
  | _ => []

def Operator.rawNames : Operator → List String
  | .declared n => n.rawNames
  | .everywhere sort => sort.rawNames
  | _ => []

namespace Term

mutual

def rawNames : Term → List String
  | .name n => n.rawNames
  | .literal _ => []
  | .apply operator args => operator.rawNames ++ rawNamesAll args

def rawNamesAll : List Term → List String
  | [] => []
  | t :: rest => rawNames t ++ rawNamesAll rest

end

end Term

/-- The names of sorts and functions in a command. -/
def Command.rawNames : Command → List String
  | .declareSort name _ => [name]
  | .declare n args sort _ => n.rawNames ++ args.flatMap NameSort.rawNames ++ sort.rawNames
  | .define n sort body _ => n.rawNames ++ sort.rawNames ++ body.rawNames
  | .assert t => t.rawNames
  | .assertForall binders bindings body =>
    binders.flatMap (fun b => b.2.rawNames) ++ bindings.flatMap (fun b => b.2.rawNames) ++
      body.rawNames
  | _ => []

open SExpr (atomsList mem_atomsList)

theorem SExpr.mem_atoms_app {items : List SExpr} {a : Atom} :
    a ∈ (SExpr.app items).atoms ↔ ∃ e ∈ items, a ∈ e.atoms := by
  rw [atoms, mem_atomsList]

theorem SExpr.mem_atoms_named {name : String} : .symbol name ∈ (named name).atoms := by
  simp [named, atoms]

open SExpr (mem_atoms_app mem_atoms_named)

variable {name : String}

theorem Kind.mem_tree {kind : Kind} (listed : name ∈ kind.rawNames) :
    .symbol name ∈ kind.tree.atoms := by
  cases kind with
  | sort sort constructors =>
    rw [List.mem_singleton.mp listed]
    exact mem_atoms_named
  | _ => cases listed

theorem NameSort.mem_tree {sort : NameSort} (listed : name ∈ sort.rawNames) :
    .symbol name ∈ sort.tree.atoms := by
  cases sort with
  | value kind => exact Kind.mem_tree listed
  | array index elem =>
    rcases List.mem_append.mp listed with inside | inside
    · exact mem_atoms_app.mpr ⟨_, by simp, Kind.mem_tree inside⟩
    · exact mem_atoms_app.mpr ⟨_, by simp, Kind.mem_tree inside⟩

theorem Name.mem_tree {n : Name} (listed : name ∈ n.rawNames) : .symbol name ∈ n.tree.atoms := by
  cases n with
  | function function =>
    rw [List.mem_singleton.mp listed]
    exact mem_atoms_named
  | _ => cases listed

theorem Operator.mem_items {operator : Operator} (listed : name ∈ operator.rawNames) :
    .symbol name ∈ atomsList operator.items := by
  cases operator with
  | declared n => exact mem_atomsList.mpr ⟨_, List.mem_singleton_self _, Name.mem_tree listed⟩
  | everywhere sort =>
    refine mem_atomsList.mpr ⟨_, List.mem_singleton_self _, mem_atoms_app.mpr ?_⟩
    exact ⟨_, by simp, NameSort.mem_tree listed⟩
  | _ => cases listed

namespace Term

mutual

theorem mem_tree : ∀ {t : Term}, name ∈ t.rawNames → .symbol name ∈ t.tree.atoms
  | .name _, listed => Name.mem_tree (by simpa only [rawNames] using listed)
  | .literal _, listed => by simp [rawNames] at listed
  | .apply operator args, listed => by
    rw [rawNames] at listed
    rw [tree, mem_atoms_app]
    rcases List.mem_append.mp listed with here | inside
    · obtain ⟨e, among, atom⟩ := mem_atomsList.mp (Operator.mem_items here)
      exact ⟨e, List.mem_append_left _ among, atom⟩
    · obtain ⟨e, among, atom⟩ := mem_treeAll inside
      exact ⟨e, List.mem_append_right _ among, atom⟩

theorem mem_treeAll : ∀ {args : List Term}, name ∈ rawNamesAll args →
    ∃ e ∈ treeAll args, .symbol name ∈ e.atoms
  | [], listed => by simp [rawNamesAll] at listed
  | t :: rest, listed => by
    rw [rawNamesAll] at listed
    rw [treeAll]
    rcases List.mem_append.mp listed with here | later
    · exact ⟨_, List.mem_cons_self, mem_tree here⟩
    · obtain ⟨e, among, atom⟩ := mem_treeAll later
      exact ⟨e, List.mem_cons_of_mem _ among, atom⟩

end

end Term

namespace Command

theorem mem_chainTree {body : Term} {bindings : List (WordId × Term)}
    (listed : name ∈ bindings.flatMap (fun b => b.2.rawNames) ++ body.rawNames) :
    .symbol name ∈ (chainTree body bindings).atoms := by
  induction bindings with
  | nil => exact Term.mem_tree listed
  | cons b rest ih =>
    rw [List.flatMap_cons, List.append_assoc] at listed
    rw [chainTree, mem_atoms_app]
    rcases List.mem_append.mp listed with here | later
    · refine ⟨.app [.app [named b.1.text, b.2.tree]], by simp, mem_atoms_app.mpr ?_⟩
      refine ⟨.app [named b.1.text, b.2.tree], by simp, mem_atoms_app.mpr ?_⟩
      exact ⟨b.2.tree, by simp, Term.mem_tree here⟩
    · exact ⟨_, by simp, ih later⟩

/-- Every name of a sort or a function in a command has a place in the tree. -/
theorem mem_tree {c : Command} {e : SExpr} (whole : c.tree? = some e)
    (listed : name ∈ c.rawNames) : .symbol name ∈ e.atoms := by
  cases c with
  | declareSort sort constructors =>
    obtain rfl := List.mem_singleton.mp listed
    cases constructors with
    | none =>
      cases whole
      exact mem_atoms_app.mpr ⟨named name, by simp, mem_atoms_named⟩
    | some labels =>
      cases whole
      refine mem_atoms_app.mpr ⟨.app [.app [named name, numeral 0]], by simp, ?_⟩
      refine mem_atoms_app.mpr ⟨.app [named name, numeral 0], by simp, ?_⟩
      exact mem_atoms_app.mpr ⟨named name, by simp, mem_atoms_named⟩
  | declare n args sort remark =>
    cases whole
    rcases List.mem_append.mp listed with front | result
    · rcases List.mem_append.mp front with head | inside
      · exact mem_atoms_app.mpr ⟨n.tree, by simp, Name.mem_tree head⟩
      · obtain ⟨a, member, here⟩ := List.mem_flatMap.mp inside
        exact mem_atoms_app.mpr ⟨.app (args.map NameSort.tree), by simp, mem_atoms_app.mpr
          ⟨a.tree, List.mem_map_of_mem member, NameSort.mem_tree here⟩⟩
    · exact mem_atoms_app.mpr ⟨sort.tree, by simp, NameSort.mem_tree result⟩
  | define n sort body remark =>
    cases whole
    rcases List.mem_append.mp listed with front | last
    · rcases List.mem_append.mp front with head | sorted
      · exact mem_atoms_app.mpr ⟨n.tree, by simp, Name.mem_tree head⟩
      · exact mem_atoms_app.mpr ⟨sort.tree, by simp, NameSort.mem_tree sorted⟩
    · exact mem_atoms_app.mpr ⟨body.tree, by simp, Term.mem_tree last⟩
  | assert t =>
    cases whole
    exact mem_atoms_app.mpr ⟨t.tree, by simp, Term.mem_tree listed⟩
  | assertForall binders bindings body =>
    cases whole
    rw [rawNames, List.append_assoc] at listed
    refine mem_atoms_app.mpr ⟨_, List.mem_cons_of_mem _ (List.mem_singleton_self _), ?_⟩
    rw [mem_atoms_app]
    rcases List.mem_append.mp listed with bound | inside
    · obtain ⟨b, member, here⟩ := List.mem_flatMap.mp bound
      refine ⟨.app (binders.map fun b => .app [named b.1.text, b.2.tree]), by simp, ?_⟩
      refine mem_atoms_app.mpr ⟨_, List.mem_map_of_mem member, mem_atoms_app.mpr ?_⟩
      exact ⟨b.2.tree, by simp, Kind.mem_tree here⟩
    · exact ⟨chainTree body bindings, by simp, mem_chainTree inside⟩
  | _ => cases listed

end Command

end SmtDialogue
