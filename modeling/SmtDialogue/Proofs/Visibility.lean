import SmtDialogue.Proofs.Uses

/-!
# Visible words

At every place of a script some words are visible: those that commands before it declare or
define, unless their level is popped, and on top of these the ones that a quantifier and the
bindings around the place bind. A script is well scoped when every word that stands
somewhere is visible there, as what it is used for and of the kind its program gives it.
-/

namespace SmtDialogue

/-- How a word is declared: a constant takes no arguments. -/
structure Signature where
  args : List NameSort
  sort : NameSort

def Signature.constant (kind : Kind) : Signature :=
  ⟨[], .value kind⟩

/-- The words that are visible at a place, the innermost first. -/
abbrev Context := List (WordId × Signature)

namespace Context

/-- The word stands for a value of the kind that the program gives it. -/
def Shows (ctx : Context) (p : Program) (id : WordId) : Prop :=
  ∃ kind, ctx.lookup id = some (.constant kind) ∧ p.wordKind? id = some kind

/-- The words stand for values of their kinds. -/
def Sees (ctx : Context) (words : List (WordId × Kind)) : Prop :=
  ∀ w ∈ words, ctx.lookup w.1 = some (.constant w.2)

end Context

namespace Term

variable (p : Program) (ctx : Context)

mutual

/-- Every word of the term is visible: as a constant where it is a value, and where it is
applied, as a function of what it is applied to. -/
def Visible : Term → Prop
  | .name (.word id) => ctx.Shows p id
  | .name _ => True
  | .literal _ => True
  | .apply (.declared (.word id)) args =>
    (∃ sorts kind, ctx.lookup id = some ⟨sorts, .value kind⟩ ∧ p.wordKind? id = some kind ∧
      List.Forall₂ (fun t sort => ∃ arg, t = .word arg ∧ ctx.lookup arg = some ⟨[], sort⟩)
        args sorts) ∧ VisibleAll args
  | .apply _ args => VisibleAll args

def VisibleAll : List Term → Prop
  | [] => True
  | t :: rest => t.Visible ∧ VisibleAll rest

end

/-- A term that has this kind because of the kinds of the words in it: the value of a
declared function, or an operation that was written for these kinds. -/
inductive OfKind (ctx : Context) : Term → Kind → Prop where
  | value {id : WordId} {sorts : List NameSort} {kind : Kind} (args : List Term)
      (declared : ctx.lookup id = some ⟨sorts, .value kind⟩) :
      OfKind ctx (.apply (.declared (.word id)) args) kind
  | operation {op : Op} {kind : Kind} {operands : List (WordId × Kind)} {t : Term}
      (written : op.term kind operands = .ok t) (seen : ctx.Sees operands) : OfKind ctx t kind

/-- The term is visible behind words that are bound one after the other, each to a term
that is visible where it stands and has the kind of the word. -/
def VisibleBehind (body : Term) : Context → List (WordId × Term) → Prop
  | ctx, [] => body.Visible p ctx
  | ctx, b :: rest =>
    b.2.Visible p ctx ∧
      ∃ kind, b.2.OfKind ctx kind ∧ VisibleBehind body ((b.1, .constant kind) :: ctx) rest

variable {p} {ctx}

theorem visibleAll_iff {args : List Term} :
    VisibleAll p ctx args ↔ ∀ a ∈ args, a.Visible p ctx := by
  induction args with
  | nil => simp [VisibleAll]
  | cons a rest ih => simp [VisibleAll, ih]

variable {known : WordId → Prop}

mutual

/-- Where words stand for values only, it is enough that these are visible. -/
theorem Over.visible (shown : ∀ id, known id → ctx.Shows p id) :
    ∀ {t : Term}, t.Over known → t.Visible p ctx
  | .name (.word id), mentions => by
    simp only [Over] at mentions
    simpa only [Visible] using shown id mentions
  | .name (.table _), _ | .name (.array _), _ | .name (.function _), _ | .literal _, _ => by
    simp [Visible]
  | .apply (.declared (.word _)) _, mentions => by simp [Over] at mentions
  | .apply (.declared (.table _)) _, mentions | .apply (.declared (.array _)) _, mentions
  | .apply (.declared (.function _)) _, mentions | .apply (.builtIn _) _, mentions
  | .apply (.rounded _) _, mentions | .apply (.extract _ _) _, mentions
  | .apply (.everywhere _) _, mentions => by
    simp only [Over] at mentions
    simpa only [Visible] using OverAll.visibleAll shown mentions

theorem OverAll.visibleAll (shown : ∀ id, known id → ctx.Shows p id) :
    ∀ {ts : List Term}, OverAll known ts → VisibleAll p ctx ts
  | [], _ => by simp [VisibleAll]
  | _ :: _, mentions => by
    simp only [OverAll] at mentions
    simpa only [VisibleAll] using
      ⟨Over.visible shown mentions.1, OverAll.visibleAll shown mentions.2⟩

end

end Term

namespace Command

/-- Every word that the command uses is visible. -/
def Visible (p : Program) (ctx : Context) : Command → Prop
  | .define _ _ body _ => body.Visible p ctx
  | .assert t => t.Visible p ctx
  | .assertForall binders bindings body =>
    Term.VisibleBehind p body
      ((binders.map fun b => (b.1, Signature.constant b.2)).reverse ++ ctx) bindings
  | .minimize id | .maximize id | .assertSoft id _ _ => ctx.Shows p id
  | .getValue ids => ∀ id ∈ ids, ctx.Shows p id
  | _ => True

/-- The word that a command makes visible for the commands below. -/
def signature? : Command → Option (WordId × Signature)
  | .declare (.word id) args sort _ => some (id, ⟨args, sort⟩)
  | .define (.word id) sort _ _ => some (id, ⟨[], sort⟩)
  | _ => none

/-- The words that are visible below a command, on each level that is still open. -/
def below : Command → List Context → List Context
  | .push n, levels => List.replicate n (levels.headD []) ++ levels
  | .pop n, levels => levels.drop n
  | c, ctx :: levels => (c.signature?.toList ++ ctx) :: levels
  | _, [] => []

/-- The words that the quantified assertion binds one after the other. -/
def lets : Command → List WordId
  | .assertForall _ bindings _ => bindings.map Prod.fst
  | _ => []

/-- Whether a command is the quantified assertion. -/
def IsQuantified : Command → Prop
  | .assertForall _ _ _ => True
  | _ => False

/-- Each command uses only what is visible at its place. -/
def WellScoped (p : Program) : List Context → List Command → Prop
  | _, [] => True
  | levels, c :: rest => c.Visible p (levels.headD []) ∧ WellScoped p (c.below levels) rest

variable {p : Program} {ctx : Context} {known : WordId → Prop}

theorem wellScoped_append {levels : List Context} {cs ds : List Command} :
    WellScoped p levels (cs ++ ds) ↔
      WellScoped p levels cs ∧
        WellScoped p (cs.foldl (fun levels c => c.below levels) levels) ds := by
  induction cs generalizing levels with
  | nil => simp [WellScoped]
  | cons c rest ih => simp [WellScoped, ih, and_assoc]

/-- A command that stays on its level and uses only these words, as values. -/
def Over (known : WordId → Prop) : Command → Prop
  | .define _ _ body _ => body.Over known
  | .assert t => t.Over known
  | .minimize id | .maximize id | .assertSoft id _ _ => known id
  | .getValue ids => ∀ id ∈ ids, known id
  | .assertForall _ _ _ | .push _ | .pop _ => False
  | _ => True

variable {c : Command}

theorem Over.visible (mentions : c.Over known) (shown : ∀ id, known id → ctx.Shows p id) :
    c.Visible p ctx := by
  cases c with
  | define name sort body remark => exact Term.Over.visible shown mentions
  | assert t => exact Term.Over.visible shown mentions
  | minimize id | maximize id | assertSoft id => exact shown id mentions
  | getValue ids => exact fun id member => shown id (mentions id member)
  | assertForall => exact mentions.elim
  | _ => trivial

theorem Over.mono {more : WordId → Prop} (mentions : c.Over known)
    (h : ∀ id, known id → more id) : c.Over more := by
  cases c with
  | define name sort body remark => exact Term.Over.mono h mentions
  | assert t => exact Term.Over.mono h mentions
  | minimize id | maximize id | assertSoft id => exact h id mentions
  | getValue ids => exact fun id member => h id (mentions id member)
  | assertForall | push | pop => exact mentions.elim
  | _ => trivial

theorem Over.words (mentions : c.Over known) : ∀ id ∈ c.words, known id := by
  cases c with
  | define name sort body remark => exact Term.Over.mem_words mentions
  | assert t => exact Term.Over.mem_words mentions
  | minimize id | maximize id | assertSoft id =>
    have here : known id := mentions
    simpa [Command.words] using here
  | getValue ids => exact mentions
  | assertForall => exact mentions.elim
  | _ => simp [Command.words]

theorem Over.below (mentions : c.Over known) (levels : List Context) :
    c.below (ctx :: levels) = (c.signature?.toList ++ ctx) :: levels := by
  cases c with
  | push | pop => exact mentions.elim
  | _ => rfl

theorem Over.lets (mentions : c.Over known) : c.lets = [] := by
  cases c with
  | assertForall => exact mentions.elim
  | _ => rfl

end Command

/-- Commands that may stand where one context is visible and leave another one, whatever
levels are below. Those that are not quantified use none of the words that are set apart,
and only these are bound by the others. -/
structure Leads (p : Program) (apart : List WordId) (cs : List Command) (ctx next : Context) :
    Prop where
  visible : ∀ levels, Command.WellScoped p (ctx :: levels) cs
  levels : ∀ levels, cs.foldl (fun levels c => c.below levels) (ctx :: levels) = next :: levels
  outside : ∀ c ∈ cs, c.IsQuantified ∨ ∀ id ∈ c.words, id ∉ apart
  lets : ∀ c ∈ cs, ∀ id ∈ c.lets, id ∈ apart

namespace Leads

variable {p : Program} {apart : List WordId} {cs ds : List Command} {ctx next last : Context}

theorem nil : Leads p apart [] ctx ctx :=
  ⟨fun _ => trivial, fun _ => rfl, by simp, by simp⟩

theorem append (first : Leads p apart cs ctx next) (second : Leads p apart ds next last) :
    Leads p apart (cs ++ ds) ctx last where
  visible levels := by
    rw [Command.wellScoped_append, first.levels]
    exact ⟨first.visible levels, second.visible levels⟩
  levels levels := by rw [List.foldl_append, first.levels, second.levels]
  outside := List.forall_mem_append.mpr ⟨first.outside, second.outside⟩
  lets := List.forall_mem_append.mpr ⟨first.lets, second.lets⟩

/-- One command outside. -/
theorem of_over {c : Command} (mentions : c.Over fun id => ctx.Shows p id ∧ id ∉ apart) :
    Leads p apart [c] ctx (c.signature?.toList ++ ctx) where
  visible _ := ⟨mentions.visible fun _ known => known.1, trivial⟩
  levels levels := mentions.below levels
  outside := by simpa using .inr fun id member => (mentions.words id member).2
  lets := by simp [mentions.lets]

/-- Commands that declare no word leave the context as it is. -/
theorem of_settled (each : ∀ c ∈ cs, (c.Over fun id => ctx.Shows p id ∧ id ∉ apart) ∧
    c.signature? = none) : Leads p apart cs ctx ctx := by
  induction cs with
  | nil => exact nil
  | cons c rest ih =>
    obtain ⟨⟨mentions, none⟩, others⟩ := List.forall_mem_cons.mp each
    have first := of_over mentions
    rw [none] at first
    exact first.append (ih others)

/-- Commands that use no word add what they declare. -/
theorem of_idle (each : ∀ c ∈ cs, c.Over fun _ => False) :
    Leads p apart cs ctx ((cs.filterMap Command.signature?).reverse ++ ctx) := by
  induction cs generalizing ctx with
  | nil => exact nil
  | cons c rest ih =>
    obtain ⟨none, others⟩ := List.forall_mem_cons.mp each
    have first : Leads p apart [c] ctx (c.signature?.toList ++ ctx) :=
      of_over (none.mono fun _ => False.elim)
    have whole := first.append (ih others)
    cases signature : c.signature? <;> simpa [signature] using whole

/-- Commands on a level of their own. -/
theorem level (inside : Leads p apart cs ctx next) :
    Leads p apart ([.push 1] ++ cs ++ [.pop 1]) ctx ctx := by
  have members : ∀ c ∈ [Command.push 1] ++ cs ++ [.pop 1], c ∈ cs ∨ c.words = [] ∧ c.lets = [] := by
    simp only [List.forall_mem_append, List.forall_mem_singleton]
    exact ⟨⟨.inr ⟨rfl, rfl⟩, fun c listed => .inl listed⟩, .inr ⟨rfl, rfl⟩⟩
  refine ⟨fun levels => ?_, fun levels => ?_, fun c member => ?_, fun c member => ?_⟩
  · rw [Command.wellScoped_append]
    exact ⟨⟨trivial, inside.visible (ctx :: levels)⟩, trivial, trivial⟩
  · have closed := inside.levels (ctx :: levels)
    rw [List.foldl_append, List.foldl_append]
    exact congrArg (List.drop 1) closed
  · rcases members c member with listed | ⟨none, _⟩
    · exact inside.outside c listed
    · exact .inr (by simp [none])
  · rcases members c member with listed | ⟨_, none⟩
    · exact inside.lets c listed
    · simp [none]

end Leads

end SmtDialogue
