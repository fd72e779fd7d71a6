import SmtDialogue.Proofs.Definitions

/-!
# The scope while a program is written

While a program is written its scope holds the words introduced so far, at their
kinds, and tells the words under a universal input from those outside. From this
come the shape of what is written for the inputs and the assignments, and that no
definition outside uses a word of the inside.
-/

namespace SmtDialogue

namespace Scope

theorem kind?_declare_self (s : Scope) (id : WordId) (kind : Kind) (top : Bool) :
    (s.declare id kind top).kind? id = some kind := by
  have found := Keyed.get?_put_self Declared.id ⟨id, kind, top || s.isTop id⟩ s
  simp only [kind?, find?, declare]
  rw [found]
  rfl

theorem find?_declare_of_ne {s : Scope} {id other : WordId} (h : other ≠ id) (kind : Kind)
    (top : Bool) : (s.declare id kind top).find? other = s.find? other :=
  Keyed.get?_put_of_ne (fun same => h same.symm) s

theorem kind?_declare_of_ne {s : Scope} {id other : WordId} (h : other ≠ id) (kind : Kind)
    (top : Bool) : (s.declare id kind top).kind? other = s.kind? other := by
  rw [kind?, find?_declare_of_ne h, kind?]

theorem isTop_declare_self (s : Scope) (id : WordId) (kind : Kind) (top : Bool) :
    (s.declare id kind top).isTop id = (top || s.isTop id) := by
  have found := Keyed.get?_put_self Declared.id ⟨id, kind, top || s.isTop id⟩ s
  rw [isTop, find?, declare, found]
  rfl

theorem isTop_declare_of_ne {s : Scope} {id other : WordId} (h : other ≠ id) (kind : Kind)
    (top : Bool) : (s.declare id kind top).isTop other = s.isTop other := by
  rw [isTop, find?_declare_of_ne h, isTop]

theorem requireTop_eq_ok {s : Scope} {id : WordId} :
    s.requireTop id = .ok () ↔ s.isTop id = true := by
  rw [requireTop]
  split <;> simp [*]

/-- A scope of these words, where exactly the inner ones are not outside. -/
structure Holds (s : Scope) (words : List (WordId × Kind)) (inner : List WordId) : Prop where
  kind : ∀ id kind, s.kind? id = some kind ↔ (id, kind) ∈ words
  top : ∀ id, s.isTop id = true ↔ id ∈ words.map Prod.fst ∧ id ∉ inner
  inner : ∀ id ∈ inner, id ∈ words.map Prod.fst

theorem holds_nil : Holds [] [] [] where
  kind := by simp [kind?, find?, Keyed.get?]
  top := by simp [isTop, find?, Keyed.get?]
  inner := by simp

/-- The inner words after one more word. -/
def innerOf (id : WordId) (top : Bool) : List WordId :=
  if top then [] else [id]

theorem Holds.declare {s : Scope} {words : List (WordId × Kind)} {inner : List WordId}
    (holds : s.Holds words inner) {id : WordId} (fresh : id ∉ words.map Prod.fst) (kind : Kind)
    (top : Bool) :
    (s.declare id kind top).Holds (words ++ [(id, kind)]) (inner ++ innerOf id top) := by
  have undeclared : s.isTop id = false := by
    cases found : s.isTop id with
    | false => rfl
    | true => exact absurd ((holds.top id).mp found).1 fresh
  have outside : id ∉ inner := fun member => fresh (holds.inner id member)
  refine ⟨?_, ?_, ?_⟩
  · intro other k
    by_cases here : other = id
    · subst here
      have absent : (other, k) ∉ words := fun member =>
        fresh (List.mem_map.mpr ⟨_, member, rfl⟩)
      simp [kind?_declare_self, absent, eq_comm]
    · rw [kind?_declare_of_ne here, holds.kind]
      simp [here]
  · intro other
    by_cases here : other = id
    · subst here
      cases top <;> simp [isTop_declare_self, undeclared, innerOf, outside]
    · rw [isTop_declare_of_ne here, holds.top]
      have unlisted : other ∉ innerOf id top := by
        cases top <;> simp [innerOf, here]
      simp [here, unlisted]
  · intro other member
    rcases List.mem_append.mp member with old | new
    · rw [List.map_append]
      exact List.mem_append_left _ (holds.inner other old)
    · cases top <;> simp [innerOf] at new
      simp [new]

end Scope

theorem Assignment.over_args {a : Assignment} {operands : List (WordId × Kind)} {t : Term}
    (args : operands.map Prod.fst = a.args) (written : a.op.term a.kind operands = .ok t) :
    t.Over (· ∈ a.args) :=
  args ▸ Op.over_term written

/-- An assignment with the term it is written with, and whether it is defined outside. -/
structure Definition where
  assignment : Assignment
  body : Term
  closed : Bool

namespace Definition

def word (d : Definition) : WordId × Kind := (d.assignment.id, d.assignment.kind)

def binding (d : Definition) : WordId × Term := (d.assignment.id, d.body)

/-- A definition is of a new word, over the words before it, and outside exactly when
none of these is inside. -/
structure Fits (d : Definition) (words : List (WordId × Kind)) (inner : List WordId) : Prop where
  fresh : d.assignment.id ∉ words.map Prod.fst
  operands : ∃ operands, operands.map Prod.fst = d.assignment.args ∧ (∀ o ∈ operands, o ∈ words) ∧
    d.assignment.op.term d.assignment.kind operands = .ok d.body
  closed : d.closed = true ↔ ∀ id ∈ d.assignment.args, id ∉ inner

theorem Fits.over {d : Definition} {words : List (WordId × Kind)} {inner : List WordId}
    (fits : d.Fits words inner) : d.body.Over (· ∈ d.assignment.args) := by
  obtain ⟨operands, args, _, written⟩ := fits.operands
  exact Assignment.over_args args written

theorem Fits.known {d : Definition} {words : List (WordId × Kind)} {inner : List WordId}
    (fits : d.Fits words inner) : ∀ id ∈ d.assignment.args, id ∈ words.map Prod.fst := by
  obtain ⟨operands, args, known, _⟩ := fits.operands
  intro id member
  rw [← args] at member
  obtain ⟨o, ho, rfl⟩ := List.mem_map.mp member
  exact List.mem_map.mpr ⟨o, known o ho, rfl⟩

/-- The inner words are known also after this definition. -/
theorem known_innerOf (d : Definition) {words : List (WordId × Kind)} {inner : List WordId}
    (known : ∀ id ∈ inner, id ∈ words.map Prod.fst) :
    ∀ id ∈ inner ++ Scope.innerOf d.assignment.id d.closed,
      id ∈ (words ++ [d.word]).map Prod.fst := by
  intro id member
  rw [List.map_append]
  rcases List.mem_append.mp member with old | new
  · exact List.mem_append_left _ (known id old)
  · rw [Scope.innerOf] at new
    split at new
    · cases new
    · rw [List.mem_singleton.mp new]
      exact List.mem_append_right _ List.mem_cons_self

/-- The kinds of the operands, looked up again. -/
theorem mapM_operands {kind? : WordId → Option Kind} {operands : List (WordId × Kind)}
    (known : ∀ o ∈ operands, kind? o.1 = some o.2) :
    ((operands.map Prod.fst).mapM fun id => (kind? id).map fun kind => (id, kind)) =
      some operands := by
  induction operands with
  | nil => rfl
  | cons o rest ih =>
    have first := known o List.mem_cons_self
    have others := ih fun w hw => known w (List.mem_cons_of_mem o hw)
    simp [first, others]

/-- Definitions that follow each other. -/
def Follow : List (WordId × Kind) → List WordId → List Definition → Prop
  | _, _, [] => True
  | words, inner, d :: rest =>
    d.Fits words inner ∧
      Follow (words ++ [d.word]) (inner ++ Scope.innerOf d.assignment.id d.closed) rest

/-- The words that are bound inside. -/
def opened (ds : List Definition) : List WordId :=
  (ds.filter fun d => !d.closed).map fun d => d.assignment.id

theorem opened_cons (d : Definition) (ds : List Definition) :
    opened (d :: ds) = Scope.innerOf d.assignment.id d.closed ++ opened ds := by
  simp only [opened, Scope.innerOf]
  cases closed : d.closed <;> simp [closed]

theorem Follow.ordered {words : List (WordId × Kind)} {inner : List WordId}
    {ds : List Definition} (follow : Follow words inner ds) :
    Ordered (words.map Prod.fst) (ds.map binding) := by
  induction ds generalizing words inner with
  | nil => trivial
  | cons d rest ih =>
    obtain ⟨fits, later⟩ := follow
    refine ⟨fits.over.mono fits.known, fits.fresh, ?_⟩
    have others := ih later
    rw [List.map_append] at others
    exact others

theorem Follow.opened_fresh {words : List (WordId × Kind)} {inner : List WordId}
    {ds : List Definition} (follow : Follow words inner ds) :
    ∀ id ∈ opened ds, id ∉ words.map Prod.fst := by
  intro id member
  obtain ⟨d, hd, rfl⟩ := List.mem_map.mp member
  have listed : d.binding ∈ ds.map binding := List.mem_map_of_mem (List.mem_filter.mp hd).1
  exact follow.ordered.notMem _ (List.mem_map_of_mem listed)

/-- No definition outside is of a word of the inside, or uses one. -/
theorem Follow.closed_apart {words : List (WordId × Kind)} {inner : List WordId}
    (known : ∀ id ∈ inner, id ∈ words.map Prod.fst) {ds : List Definition}
    (follow : Follow words inner ds) :
    ∀ d ∈ ds, d.closed = true →
      d.assignment.id ∉ inner ++ opened ds ∧ d.body.Over (· ∉ inner ++ opened ds) := by
  induction ds generalizing words inner with
  | nil => simp
  | cons d rest ih =>
    have fresh := follow.opened_fresh
    obtain ⟨fits, later⟩ := follow
    intro e he closed
    rcases List.mem_cons.mp he with rfl | he
    · refine ⟨fun member => ?_, fits.over.mono fun id arg member => ?_⟩
      · rcases List.mem_append.mp member with old | new
        · exact fits.fresh (known _ old)
        · rw [opened_cons, closed] at new
          have absent := later.opened_fresh _ new
          simp [word] at absent
      · rcases List.mem_append.mp member with old | new
        · exact fits.closed.mp closed id arg old
        · exact fresh id new (fits.known id arg)
    · have grown := known_innerOf d known
      have others := ih grown later e he closed
      rwa [List.append_assoc, ← opened_cons] at others

/-- Where nothing is inside, every definition is outside. -/
theorem Follow.closed_of_nil {words : List (WordId × Kind)} {ds : List Definition}
    (follow : Follow words [] ds) : ∀ d ∈ ds, d.closed = true := by
  induction ds generalizing words with
  | nil => simp
  | cons d rest ih =>
    obtain ⟨fits, later⟩ := follow
    have closed : d.closed = true := fits.closed.mpr fun _ _ => List.not_mem_nil
    rw [closed] at later
    intro e he
    rcases List.mem_cons.mp he with rfl | he
    · exact closed
    · exact ih later e he

theorem Follow.body? {p : Program} {words : List (WordId × Kind)} {inner : List WordId}
    {ds : List Definition} (follow : Follow words inner ds)
    (kinds : ∀ w ∈ words ++ ds.map word, p.wordKind? w.1 = some w.2) :
    ∀ d ∈ ds, p.body? d.assignment = some d.body := by
  induction ds generalizing words inner with
  | nil => simp
  | cons d rest ih =>
    obtain ⟨fits, later⟩ := follow
    intro e he
    rcases List.mem_cons.mp he with rfl | he
    · obtain ⟨operands, args, known, written⟩ := fits.operands
      have found := mapM_operands fun o ho => kinds o (List.mem_append_left _ (known o ho))
      rw [Program.body?, ← args, found]
      simp [written, Except.toOption]
    · refine ih later (fun w hw => kinds w ?_) e he
      rw [List.map_cons]
      simpa using hw

end Definition

namespace Script

/-- One more assignment is defined outside or bound inside. -/
theorem Definitions.add_cases {d next : Definitions} {a : Assignment}
    (written : d.add a = .ok next) :
    ∃ body, a.term d.scope = .ok body ∧
      (a.args.all d.scope.isTop = true ∧ next =
          ⟨d.commands ++ [a.command body], d.bindings, d.scope.declare a.id a.kind true⟩ ∨
        a.args.all d.scope.isTop = false ∧ next =
          ⟨d.commands, d.bindings ++ [(a.id, body)], d.scope.declare a.id a.kind false⟩) := by
  obtain ⟨body, term, written⟩ := Except.bind_eq_ok.mp written
  refine ⟨body, term, ?_⟩
  cases closed : a.args.all d.scope.isTop with
  | true =>
    simp only [closed, if_true] at written
    cases written
    exact .inl ⟨rfl, rfl⟩
  | false =>
    simp only [closed, Bool.false_eq_true, if_false] at written
    cases written
    exact .inr ⟨rfl, rfl⟩

theorem add_eq_ok {d next : Definitions} {a : Assignment} (written : d.add a = .ok next)
    {words : List (WordId × Kind)} {inner : List WordId} (holds : d.scope.Holds words inner)
    (fresh : a.id ∉ words.map Prod.fst) :
    ∃ e : Definition, e.assignment = a ∧ e.Fits words inner ∧
      next.commands = d.commands ++ (if e.closed then [a.command e.body] else []) ∧
      next.bindings = d.bindings ++ (if e.closed then [] else [e.binding]) ∧
      next.scope.Holds (words ++ [e.word]) (inner ++ Scope.innerOf a.id e.closed) := by
  obtain ⟨body, term, added⟩ := d.add_cases written
  obtain ⟨operands, args, kinds, built⟩ := Assignment.term_eq_ok term
  have known : ∀ o ∈ operands, o ∈ words := fun o ho => (holds.kind _ _).mp (kinds o ho)
  have inScope : ∀ id ∈ a.args, id ∈ words.map Prod.fst := by
    intro id member
    rw [← args] at member
    obtain ⟨o, ho, rfl⟩ := List.mem_map.mp member
    exact List.mem_map.mpr ⟨o, known o ho, rfl⟩
  have outside : a.args.all d.scope.isTop = true ↔ ∀ id ∈ a.args, id ∉ inner := by
    rw [List.all_eq_true]
    exact forall₂_congr fun id member => by
      rw [holds.top]
      exact and_iff_right (inScope id member)
  refine ⟨⟨a, body, a.args.all d.scope.isTop⟩, rfl,
    ⟨fresh, ⟨operands, args, known, built⟩, outside⟩, ?_⟩
  rcases added with ⟨closed, rfl⟩ | ⟨closed, rfl⟩
  · rw [closed]
    exact ⟨rfl, (List.append_nil _).symm, holds.declare fresh a.kind true⟩
  · rw [closed]
    exact ⟨(List.append_nil _).symm, rfl, holds.declare fresh a.kind false⟩

/-- What the definitions of a program are made of. -/
theorem foldlM_add_eq_ok {assignments : List Assignment} {d last : Definitions}
    (written : assignments.foldlM Definitions.add d = .ok last) {words : List (WordId × Kind)}
    {inner : List WordId} (holds : d.scope.Holds words inner)
    (distinct : (words.map Prod.fst ++ assignments.map Assignment.id).Nodup) :
    ∃ ds : List Definition, ds.map Definition.assignment = assignments ∧
      Definition.Follow words inner ds ∧
      last.commands = d.commands ++
        (ds.filter Definition.closed).map (fun e => e.assignment.command e.body) ∧
      last.bindings = d.bindings ++ (ds.filter fun e => !e.closed).map Definition.binding ∧
      last.scope.Holds (words ++ ds.map Definition.word) (inner ++ Definition.opened ds) := by
  induction assignments generalizing d words inner with
  | nil =>
    cases written
    exact ⟨[], rfl, trivial, by simp, by simp, by simpa [Definition.opened] using holds⟩
  | cons a rest ih =>
    rw [List.foldlM_cons, Except.bind_eq_ok] at written
    obtain ⟨middle, first, others⟩ := written
    have fresh : a.id ∉ words.map Prod.fst := by
      intro member
      have apart := (List.nodup_append.mp distinct).2.2
      exact apart _ member _ List.mem_cons_self rfl
    obtain ⟨e, rfl, fits, commands, bindings, scope⟩ := add_eq_ok first holds fresh
    have remaining : ((words ++ [e.word]).map Prod.fst ++ rest.map Assignment.id).Nodup := by
      simpa [Definition.word] using distinct
    obtain ⟨ds, rfl, follow, commands', bindings', scope'⟩ := ih others scope remaining
    refine ⟨e :: ds, rfl, ⟨fits, follow⟩, ?_, ?_, ?_⟩
    · rw [commands', commands]
      cases closed : e.closed <;> simp [closed]
    · rw [bindings', bindings]
      cases closed : e.closed <;> simp [closed]
    · rw [Definition.opened_cons]
      simpa using scope'

end Script

end SmtDialogue
