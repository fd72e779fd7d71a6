import SmtDialogue.Proofs.Layout
import SmtDialogue.Proofs.Visibility

/-!
# What inputs and definitions make visible

At the top an input is declared as a constant or, under universal ones, as a function of
these. Definitions that can stand at the top follow each other there; inside the quantified
assertion the values of the functions are bound first and then, one after the other, the
definitions that depend on them.
-/

namespace SmtDialogue

namespace Context

variable {ctx inner : Context} {id : WordId}

theorem lookup_of_mem (distinct : (ctx.map Prod.fst).Nodup) {e : WordId × Signature}
    (member : e ∈ ctx) : ctx.lookup e.1 = some e.2 := by
  obtain ⟨before, after, rfl⟩ := List.append_of_mem member
  refine List.lookup_eq_some_iff.mpr ⟨before, after, rfl, fun other earlier => ?_⟩
  rw [List.map_append] at distinct
  have apart := (List.nodup_append.mp distinct).2.2 _ (List.mem_map_of_mem earlier) e.1
    List.mem_cons_self
  simpa using Ne.symm apart

theorem lookup_append_of_notMem (absent : id ∉ inner.map Prod.fst) :
    (inner ++ ctx).lookup id = ctx.lookup id := by
  have none : inner.lookup id = none := by
    refine List.lookup_eq_none_iff.mpr fun e member => ?_
    simpa using fun same : id = e.1 => absent (List.mem_map.mpr ⟨e, member, same.symm⟩)
  rw [List.lookup_append, none, Option.none_or]

theorem lookup_cons_of_ne {other : WordId} (h : id ≠ other) (signature : Signature) :
    List.lookup id ((other, signature) :: ctx) = ctx.lookup id := by
  have absent : id ∉ [(other, signature)].map Prod.fst := by simpa using h
  exact lookup_append_of_notMem absent

variable {words : List (WordId × Kind)}

/-- The words that are not inside stand for values of their kinds. -/
def SeesOuter (ctx : Context) (words : List (WordId × Kind)) (inner : List WordId) : Prop :=
  ∀ w ∈ words, w.1 ∉ inner → ctx.lookup w.1 = some (.constant w.2)

/-- A new word hides none of the words that are seen. -/
theorem SeesOuter.cons {inner : List WordId} (sees : ctx.SeesOuter words inner)
    {w : WordId × Kind} (fresh : w.1 ∉ words.map Prod.fst) :
    SeesOuter ((w.1, .constant w.2) :: ctx) (words ++ [w]) inner := by
  intro v member outer
  rcases List.mem_append.mp member with old | new
  · have different : v.1 ≠ w.1 := fun same => fresh (same ▸ List.mem_map_of_mem old)
    rw [lookup_cons_of_ne different]
    exact sees v old outer
  · rw [List.mem_singleton.mp new]
    exact List.lookup_cons_self

theorem SeesOuter.shows {inner : List WordId} (sees : ctx.SeesOuter words inner) {p : Program}
    (kinds : ∀ w ∈ words, p.wordKind? w.1 = some w.2) (known : id ∈ words.map Prod.fst)
    (outer : id ∉ inner) : ctx.Shows p id := by
  obtain ⟨w, hw, rfl⟩ := List.mem_map.mp known
  exact ⟨w.2, sees w hw outer, kinds w hw⟩

theorem Sees.cons (sees : ctx.Sees words) {w : WordId × Kind} (fresh : w.1 ∉ words.map Prod.fst) :
    Sees ((w.1, .constant w.2) :: ctx) (words ++ [w]) := by
  have outer : ctx.SeesOuter words [] := fun v member _ => sees v member
  exact fun v member => outer.cons fresh v member List.not_mem_nil

theorem Sees.shows (sees : ctx.Sees words) {p : Program}
    (kinds : ∀ w ∈ words, p.wordKind? w.1 = some w.2) (known : id ∈ words.map Prod.fst) :
    ctx.Shows p id :=
  SeesOuter.shows (fun w member _ => sees w member) kinds known List.not_mem_nil

end Context

/-- An input under universal ones. -/
structure Skolem where
  var : Variable
  args : List Variable

namespace Skolem

variable (k : Skolem)

def word : WordId × Kind := (k.var.id, k.var.kind)

/-- The function that is declared for it. -/
def signature : Signature := ⟨k.args.map fun u => .value u.kind, .value k.var.kind⟩

/-- Its value inside the quantified assertion. -/
def binding : WordId × Term := Script.skolemBinding (k.var.id, k.args.map Variable.id)

end Skolem

namespace Script

variable (quantifier : Input → Quantifier)

/-- The signatures that the declarations of inputs behind these universal ones have. -/
def signatures : List Variable → List Input → Context
  | _, [] => []
  | before, i :: rest =>
    match quantifier i with
    | .all => signatures (before ++ [i.var]) rest
    | .exist =>
      (i.var.id, ⟨before.map fun u => .value u.kind, .value i.var.kind⟩) :: signatures before rest

/-- The inputs under universal ones, in order. -/
def hiddenInputs : List Variable → List Input → List Skolem
  | _, [] => []
  | before, i :: rest =>
    match quantifier i with
    | .all => hiddenInputs (before ++ [i.var]) rest
    | .exist =>
      (if before.isEmpty then [] else [⟨i.var, before⟩]) ++ hiddenInputs before rest

variable {quantifier} {before : List Variable} {inputs : List Input}

theorem filterMap_declarations :
    (declarations quantifier before inputs).filterMap Command.signature? =
      signatures quantifier before inputs := by
  induction inputs generalizing before with
  | nil => rfl
  | cons i rest ih =>
    cases prefixed : quantifier i with
    | all => simpa [declarations, signatures, prefixed] using ih
    | exist =>
      cases before <;>
        simp [declarations, signatures, prefixed, ih, Variable.command, Variable.skolemCommand,
          Command.signature?]

theorem sublist_signatures : ((signatures quantifier before inputs).map Prod.fst).Sublist
    (inputs.map fun i => i.var.id) := by
  induction inputs generalizing before with
  | nil => exact .slnil
  | cons i rest ih =>
    cases prefixed : quantifier i with
    | all => simpa [signatures, prefixed] using ih.cons _
    | exist => simpa [signatures, prefixed] using ih

/-- An input outside is declared as a constant. -/
theorem outer_mem_signatures {i : Input} (listed : i ∈ inputs)
    (outer : i.var.id ∉ innerInputs quantifier before inputs) :
    (i.var.id, .constant i.var.kind) ∈ signatures quantifier before inputs := by
  induction inputs generalizing before with
  | nil => cases listed
  | cons j rest ih =>
    cases prefixed : quantifier j with
    | all =>
      simp only [innerInputs, prefixed, List.mem_cons, not_or] at outer
      simp only [signatures, prefixed]
      rcases List.mem_cons.mp listed with rfl | later
      · exact absurd rfl outer.1
      · exact ih later outer.2
    | exist =>
      simp only [innerInputs, prefixed, List.mem_append, not_or] at outer
      simp only [signatures, prefixed]
      rcases List.mem_cons.mp listed with rfl | later
      · cases before with
        | nil => exact List.mem_cons_self
        | cons u us => simp [Scope.innerOf] at outer
      · exact List.mem_cons_of_mem _ (ih later outer.2)

theorem skolemsOf_eq_map : skolemsOf quantifier before inputs =
    (hiddenInputs quantifier before inputs).map fun k => (k.var.id, k.args.map Variable.id) := by
  induction inputs generalizing before with
  | nil => rfl
  | cons i rest ih =>
    cases prefixed : quantifier i with
    | all => simpa [skolemsOf, hiddenInputs, prefixed] using ih
    | exist => cases before <;> simp [skolemsOf, hiddenInputs, prefixed, ih]

theorem skolemNames_eq : (skolemsOf quantifier before inputs).map Prod.fst =
    ((hiddenInputs quantifier before inputs).map Skolem.word).map Prod.fst := by
  rw [skolemsOf_eq_map, List.map_map, List.map_map]
  rfl

theorem skolemBindings_eq : (skolemsOf quantifier before inputs).map skolemBinding =
    (hiddenInputs quantifier before inputs).map Skolem.binding := by
  rw [skolemsOf_eq_map, List.map_map]
  rfl

/-- An input under universal ones is declared as a function of them. -/
theorem hidden_mem_signatures {k : Skolem} (listed : k ∈ hiddenInputs quantifier before inputs) :
    (k.var.id, k.signature) ∈ signatures quantifier before inputs ∧ k.word ∈ inputWords inputs ∧
      ∀ u ∈ k.args, u ∈ before ∨ u ∈ universalsOf quantifier inputs := by
  induction inputs generalizing before with
  | nil => cases listed
  | cons i rest ih =>
    rw [universalsOf_cons]
    cases prefixed : quantifier i with
    | all =>
      simp only [hiddenInputs, prefixed] at listed
      obtain ⟨declared, word, universal⟩ := ih listed
      refine ⟨by simpa [signatures, prefixed] using declared, List.mem_cons_of_mem _ word, ?_⟩
      intro u hu
      simpa [or_assoc] using universal u hu
    | exist =>
      simp only [hiddenInputs, prefixed, List.mem_append] at listed
      simp only [signatures, prefixed]
      rcases listed with here | later
      · split at here
        · cases here
        · rw [List.mem_singleton.mp here]
          exact ⟨List.mem_cons_self, List.mem_cons_self, fun u hu => .inl hu⟩
      · obtain ⟨declared, word, universal⟩ := ih later
        exact ⟨List.mem_cons_of_mem _ declared, List.mem_cons_of_mem _ word,
          by simpa using universal⟩

/-- Behind a universal input every input is inside. -/
theorem mem_innerInputs_cons {u : Variable} {us : List Variable} {id : WordId} :
    id ∈ innerInputs quantifier (u :: us) inputs ↔ id ∈ inputs.map fun i => i.var.id := by
  induction inputs generalizing us with
  | nil => simp [innerInputs]
  | cons i rest ih =>
    cases prefixed : quantifier i <;> simp [innerInputs, prefixed, ih, Scope.innerOf]

/-- The inner inputs are those from the first universal one on. -/
theorem mem_varyingInputs {p : Program} {id : WordId} :
    id ∈ Features.varyingInputs p ↔ id ∈ innerInputs p.quantifier [] p.inputs := by
  rw [Features.varyingInputs]
  induction p.inputs with
  | nil => simp [innerInputs]
  | cons i rest ih =>
    cases prefixed : p.quantifier i with
    | all => simp [innerInputs, prefixed, mem_innerInputs_cons]
    | exist => simpa [innerInputs, prefixed, Scope.innerOf] using ih

theorem modelInputs_outer {p : Program} (distinct : (p.inputs.map fun i => i.var.id).Nodup) :
    ∀ id ∈ p.modelInputs, id ∈ (inputWords p.inputs).map Prod.fst ∧
      id ∉ innerInputs p.quantifier [] p.inputs := by
  intro id member
  have split := List.takeWhile_append_dropWhile (p := fun i => decide (p.quantifier i = .exist))
    (l := p.inputs)
  rw [← split, List.map_append] at distinct
  refine ⟨?_, fun inner => ?_⟩
  · obtain ⟨i, early, rfl⟩ := List.mem_map.mp member
    have listed := (List.takeWhile_sublist _).subset early
    exact List.mem_map.mpr ⟨(i.var.id, i.var.kind), List.mem_map_of_mem listed, rfl⟩
  · exact (List.nodup_append.mp distinct).2.2 _ member _ (mem_varyingInputs.mpr inner) rfl

end Script

namespace Definition

variable {p : Program} {words : List (WordId × Kind)} {inner : List WordId}

/-- The definitions outside use what is visible outside, and leave all of it visible. -/
theorem Follow.leads {ds : List Definition} (follow : Follow words inner ds) {ctx : Context}
    (sees : ctx.SeesOuter words inner) (known : ∀ id ∈ inner, id ∈ words.map Prod.fst)
    (kinds : ∀ w ∈ words ++ ds.map word, p.wordKind? w.1 = some w.2) :
    ∃ next, Leads p (inner ++ opened ds)
        ((ds.filter Definition.closed).map fun d => d.assignment.command d.body) ctx next ∧
      next.SeesOuter (words ++ ds.map word) (inner ++ opened ds) ∧
      ∀ id ∈ words.map Prod.fst, next.lookup id = ctx.lookup id := by
  induction ds generalizing words inner ctx with
  | nil => exact ⟨ctx, .nil, by simpa [opened] using sees, fun _ _ => rfl⟩
  | cons d rest ih =>
    have fresh := follow.opened_fresh
    obtain ⟨fits, later⟩ := follow
    have grown := known_innerOf d known
    have kindsWords := (List.forall_mem_append.mp kinds).1
    have words_cons : words ++ (d :: rest).map word = words ++ [d.word] ++ rest.map word := by simp
    have inner_cons : inner ++ opened (d :: rest) =
        inner ++ Scope.innerOf d.assignment.id d.closed ++ opened rest := by
      rw [opened_cons, List.append_assoc]
    have older : ∀ id ∈ words.map Prod.fst, id ∈ (words ++ [d.word]).map Prod.fst :=
      fun id member => List.map_append ▸ List.mem_append_left _ member
    rw [words_cons] at kinds ⊢
    cases closed : d.closed with
    | true =>
      have mentions : (d.assignment.command d.body).Over fun id =>
          ctx.Shows p id ∧ id ∉ inner ++ opened (d :: rest) := by
        refine Term.Over.mono (fun id arg => ?_) fits.over
        have outer := fits.closed.mp closed id arg
        refine ⟨sees.shows kindsWords (fits.known id arg) outer, ?_⟩
        rw [List.mem_append, not_or]
        exact ⟨outer, fun inside => fresh id inside (fits.known id arg)⟩
      have first := Leads.of_over mentions
      rw [closed, Scope.innerOf, if_pos rfl, List.append_nil] at later grown inner_cons
      rw [inner_cons] at first ⊢
      obtain ⟨next, leads, seen, kept⟩ := ih later (sees.cons fits.fresh) grown kinds
      refine ⟨next, ?_, seen, fun id member => ?_⟩
      · rw [List.filter_cons_of_pos closed]
        exact first.append leads
      · have different : id ≠ d.assignment.id := fun same => fits.fresh (same ▸ member)
        rw [kept id (older id member), word, Context.lookup_cons_of_ne different]
    | false =>
      rw [closed] at later grown
      have skipped : ctx.SeesOuter (words ++ [d.word])
          (inner ++ Scope.innerOf d.assignment.id false) := by
        intro w member outer
        rw [List.mem_append, not_or] at outer
        rcases List.mem_append.mp member with old | new
        · exact sees w old outer.1
        · rw [List.mem_singleton.mp new] at outer
          exact absurd (List.mem_singleton_self _) outer.2
      rw [inner_cons, closed]
      obtain ⟨next, leads, seen, kept⟩ := ih later skipped grown kinds
      refine ⟨next, ?_, seen, fun id member => kept id (older id member)⟩
      rw [List.filter_cons_of_neg (by simp [closed])]
      exact leads

end Definition

section

variable {p : Program} {body : Term} {words : List (WordId × Kind)} {ctx : Context}

/-- The value of an input under universal ones is its function at these. -/
theorem Skolem.visible_binding {k : Skolem} (sees : ctx.Sees words)
    (kinds : ∀ w ∈ words, p.wordKind? w.1 = some w.2)
    (args : ∀ u ∈ k.args, (u.id, u.kind) ∈ words) (kind : p.wordKind? k.var.id = some k.var.kind)
    (declared : ctx.lookup k.var.id = some k.signature) : k.binding.2.Visible p ctx := by
  have shown : ∀ t ∈ (k.args.map Variable.id).map Term.word, t.Visible p ctx := by
    intro t ht
    obtain ⟨id, member, rfl⟩ := List.mem_map.mp ht
    obtain ⟨u, hu, rfl⟩ := List.mem_map.mp member
    simpa only [Term.word, Term.Visible] using
      sees.shows kinds (List.mem_map.mpr ⟨_, args u hu, rfl⟩)
  simp only [binding, Script.skolemBinding, Term.Visible]
  refine ⟨⟨_, k.var.kind, declared, kind, ?_⟩, Term.visibleAll_iff.mpr shown⟩
  rw [List.map_map, List.forall₂_map_left_iff, List.forall₂_map_right_iff, List.forall₂_same]
  exact fun u hu => ⟨u.id, rfl, sees _ (args u hu)⟩

/-- The values of inputs under universal ones take the place of their functions. -/
theorem visibleBehind_skolems {ks : List Skolem} (sees : ctx.Sees words)
    (kinds : ∀ w ∈ words ++ ks.map Skolem.word, p.wordKind? w.1 = some w.2)
    (distinct : ((words ++ ks.map Skolem.word).map Prod.fst).Nodup)
    (args : ∀ k ∈ ks, ∀ u ∈ k.args, (u.id, u.kind) ∈ words)
    (declared : ∀ k ∈ ks, ctx.lookup k.var.id = some k.signature) {bs : List (WordId × Term)}
    (below : ∀ next : Context, next.Sees (words ++ ks.map Skolem.word) →
      Term.VisibleBehind p body next bs) :
    Term.VisibleBehind p body ctx (ks.map Skolem.binding ++ bs) := by
  induction ks generalizing words ctx with
  | nil => exact below ctx (by simpa using sees)
  | cons k rest ih =>
    obtain ⟨function, functions⟩ := List.forall_mem_cons.mp declared
    obtain ⟨here, others⟩ := List.forall_mem_cons.mp args
    have kindsWords := (List.forall_mem_append.mp kinds).1
    have words_cons : words ++ (k :: rest).map Skolem.word =
        words ++ [k.word] ++ rest.map Skolem.word := by simp
    rw [words_cons] at kinds distinct below
    have apart := distinct
    rw [List.map_append, List.nodup_append, List.map_append, List.nodup_append] at apart
    have fresh : k.word.1 ∉ words.map Prod.fst := fun member =>
      apart.1.2.2 _ member _ List.mem_cons_self rfl
    have kind := kinds k.word (by simp)
    refine ⟨k.visible_binding sees kindsWords here kind function, k.var.kind, .value _ function, ?_⟩
    refine ih (sees.cons fresh) kinds distinct ?_ ?_ below
    · exact fun j hj u hu => List.mem_append_left _ (others j hj u hu)
    · intro j hj
      have different : j.var.id ≠ k.var.id := by
        refine (apart.2.2 k.var.id ?_ j.var.id ?_).symm
        · exact List.mem_append_right _ List.mem_cons_self
        · exact List.mem_map_of_mem (List.mem_map_of_mem hj)
      exact (Context.lookup_cons_of_ne different _).trans (functions j hj)

/-- The definitions inside use what has been seen before them. -/
theorem Definition.Follow.visibleBehind {inner : List WordId} {ds : List Definition}
    (follow : Follow words inner ds) (sees : ctx.Sees words)
    (outside : ∀ d ∈ ds, d.closed = true →
      ctx.lookup d.assignment.id = some (.constant d.assignment.kind))
    (kinds : ∀ w ∈ words ++ ds.map word, p.wordKind? w.1 = some w.2)
    (below : ∀ next : Context, next.Sees (words ++ ds.map word) → body.Visible p next) :
    Term.VisibleBehind p body ctx ((ds.filter fun d => !d.closed).map binding) := by
  induction ds generalizing words inner ctx with
  | nil => exact below ctx (by simpa using sees)
  | cons d rest ih =>
    obtain ⟨fits, later⟩ := follow
    have words_cons : words ++ (d :: rest).map word = words ++ [d.word] ++ rest.map word := by simp
    have kindsWords := (List.forall_mem_append.mp kinds).1
    rw [words_cons] at kinds below
    obtain ⟨here, others⟩ := List.forall_mem_cons.mp outside
    cases closed : d.closed with
    | true =>
      rw [List.filter_cons_of_neg (by simp [closed])]
      refine ih later (fun w member => ?_) others kinds below
      rcases List.mem_append.mp member with old | new
      · exact sees w old
      · rw [List.mem_singleton.mp new]
        exact here closed
    | false =>
      rw [List.filter_cons_of_pos (by simp [closed])]
      obtain ⟨operands, args, known, written⟩ := fits.operands
      refine ⟨?_, d.assignment.kind, .operation written fun o ho => sees o (known o ho), ?_⟩
      · exact Term.Over.visible (fun id arg => sees.shows kindsWords (fits.known id arg)) fits.over
      · refine ih later (sees.cons fits.fresh) (fun e he outer => ?_) kinds below
        have listed : e.assignment.id ∈ (rest.map binding).map Prod.fst :=
          List.mem_map_of_mem (List.mem_map_of_mem he)
        have different : e.assignment.id ≠ d.assignment.id := by
          have absent := later.ordered.notMem _ listed
          simp only [List.map_append, List.mem_append, not_or] at absent
          simpa [word] using absent.2
        exact (Context.lookup_cons_of_ne different _).trans (others e he outer)

end

end SmtDialogue
