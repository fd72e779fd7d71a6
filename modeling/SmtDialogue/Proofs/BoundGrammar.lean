import SmtDialogue.Answer.Bound
import SmtDialogue.Proofs.Objectives
import SmtDialogue.Proofs.Results

/-!
# The grammar of bounds

A tree is a bound when it has the shape of a production and all parts that the production
gives it are bounds. Reading accepts exactly these trees. Where it fails, it names a part of
no shape that stands below trees which all have one, and of all such parts the leftmost.
At a signed kind of width zero this holds of the trees that do not overflow, which one does at
its first number and where it negates an infinitesimal.
-/

namespace SmtDialogue.Extended

variable {kind : Kind} {e item : SExpr} {parts : List SExpr}

/-- The tree has the shape of a production, which gives it these parts. -/
inductive Matches (kind : Kind) : SExpr → List SExpr → Prop
  | posInfinity : Matches kind (.atom (.symbol "oo")) []
  | negInfinity : Matches kind (.atom (.symbol "-oo")) []
  | epsilon : Matches kind (.atom (.symbol "epsilon")) []
  | value {a : Atom} {v : Value} (noSymbol : ∀ name, a ≠ .symbol name)
    (decodes : Value.decode kind (.atom a) = .ok v) : Matches kind (.atom a) []
  | interval (low high : SExpr) :
    Matches kind (.app [.atom (.symbol "interval"), low, high]) [low, high]
  | sum (first second : SExpr) (rest : List SExpr) :
    Matches kind (.app (.atom (.symbol "+") :: first :: second :: rest)) (first :: second :: rest)
  | product (first second : SExpr) (rest : List SExpr) :
    Matches kind (.app (.atom (.symbol "*") :: first :: second :: rest)) (first :: second :: rest)
  | negation (only : SExpr) : Matches kind (.app [.atom (.symbol "-"), only]) [only]
  | difference (a b : SExpr) : Matches kind (.app [.atom (.symbol "-"), a, b]) [a, b]

/-- The trees that the productions derive. -/
inductive Derives (kind : Kind) : SExpr → Prop
  | parts {e : SExpr} {parts : List SExpr} (production : Matches kind e parts)
    (each : ∀ part ∈ parts, Derives kind part) : Derives kind e

/-- The parts of an application are what stands behind its operator. -/
theorem Matches.app {items : List SExpr} (production : Matches kind (.app items) parts) :
    ∃ operator, items = .atom (.symbol operator) :: parts := by
  cases production <;> exact ⟨_, rfl⟩

theorem Matches.atom {a : Atom} (production : Matches kind (.atom a) parts) : parts = [] := by
  cases production <;> rfl

theorem Matches.unique {others : List SExpr} (production : Matches kind e parts)
    (again : Matches kind e others) : parts = others := by
  cases e with
  | atom a => rw [production.atom, again.atom]
  | app items =>
    obtain ⟨_, first⟩ := production.app
    obtain ⟨_, second⟩ := again.app
    rw [first] at second
    exact (List.cons.inj second).2

theorem Matches.sizeOf_lt {part : SExpr} (production : Matches kind e parts)
    (member : part ∈ parts) : sizeOf part < sizeOf e := by
  cases e with
  | atom a =>
    rw [production.atom] at member
    cases member
  | app items =>
    obtain ⟨operator, rfl⟩ := production.app
    have inside := List.sizeOf_lt_of_mem member
    simp only [SExpr.app.sizeOf_spec, List.cons.sizeOf_spec]
    omega

/-- What every tree has when its parts have it, all trees have. -/
theorem induction_on_parts (kind : Kind) {P : SExpr → Prop}
    (step : ∀ e, (∀ parts, Matches kind e parts → ∀ part ∈ parts, P part) → P e) (e : SExpr) :
    P e :=
  step e fun _ production part member =>
    have := production.sizeOf_lt member
    induction_on_parts kind step part
termination_by sizeOf e

theorem derives_iff (production : Matches kind e parts) :
    Derives kind e ↔ ∀ part ∈ parts, Derives kind part := by
  constructor
  · rintro ⟨again, each⟩
    rw [production.unique again]
    exact each
  · exact .parts production

theorem ofList_eq_mapM (kind : Kind) (es : List SExpr) :
    ofList kind es = es.mapM (ofSExpr kind) := by
  induction es with
  | nil => rfl
  | cons e rest ih =>
    rw [ofList, List.mapM_cons, ih]
    cases ofSExpr kind e with
    | error failure => rfl
    | ok bound => cases rest.mapM (ofSExpr kind) <;> rfl

theorem matches_atom_iff {a : Atom} :
    (∃ parts, Matches kind (.atom a) parts) ↔ ∃ bound, ofAtom kind a = .ok bound := by
  constructor
  · rintro ⟨parts, production⟩
    cases production with
    | posInfinity => exact ⟨_, rfl⟩
    | negInfinity => exact ⟨_, rfl⟩
    | epsilon => exact ⟨_, rfl⟩
    | @value _ v noSymbol decodes =>
      refine ⟨.finite v, ?_⟩
      cases a with
      | symbol name => exact absurd rfl (noSymbol name)
      | _ => simp only [ofAtom, decodes]
  · rintro ⟨bound, read⟩
    unfold ofAtom at read
    split at read
    · exact ⟨[], .posInfinity⟩
    · exact ⟨[], .negInfinity⟩
    · exact ⟨[], .epsilon⟩
    · cases read
    · next noSymbol =>
      split at read
      · next v decodes => exact ⟨[], .value noSymbol decodes⟩
      · cases read
      · cases read

theorem ofAtom_eq_error {a : Atom} {failure : DecodeFailure}
    (failed : ofAtom kind a = .error failure) :
    failure = .unrecognizedExtended (.atom a) ∨
      failure = .overflow ∧ Value.decode kind (.atom a) = .error .overflow := by
  unfold ofAtom at failed
  split at failed
  · cases failed
  · cases failed
  · cases failed
  · cases failed
    exact .inl rfl
  · split at failed
    · cases failed
    · next overflow =>
      cases failed
      exact .inr ⟨rfl, overflow⟩
    · cases failed
      exact .inl rfl

theorem ofAtom_of_overflow {a : Atom}
    (overflow : Value.decode kind (.atom a) = .error .overflow) :
    ofAtom kind a = .error .overflow := by
  obtain rfl := Value.kind_of_decode_overflow overflow
  cases a with
  | symbol name => cases overflow
  | _ => simp only [ofAtom, overflow]

/-- The productions with parts are found by the operator and the number of its arguments. -/
theorem isSome_production?_iff {operator : String} {args : List SExpr} :
    (production? operator args.length).isSome = true ↔
      Matches kind (.app (.atom (.symbol operator) :: args)) args := by
  have exists_two : 2 ≤ args.length → ∃ first second rest, args = first :: second :: rest := by
    intro many
    obtain ⟨first, others, rfl⟩ := List.exists_cons_of_length_pos (Nat.zero_lt_of_lt many)
    obtain ⟨second, rest, rfl⟩ := List.exists_cons_of_length_pos (Nat.le_of_succ_le_succ many)
    exact ⟨first, second, rest, rfl⟩
  constructor
  · intro known
    rw [production?] at known
    split_ifs at known with interval sum product negation difference
    · obtain ⟨rfl, two⟩ := interval
      obtain ⟨low, high, rfl⟩ := List.length_eq_two.mp two
      exact .interval low high
    · obtain ⟨rfl, many⟩ := sum
      obtain ⟨first, second, rest, rfl⟩ := exists_two many
      exact .sum first second rest
    · obtain ⟨rfl, many⟩ := product
      obtain ⟨first, second, rest, rfl⟩ := exists_two many
      exact .product first second rest
    · obtain ⟨rfl, one⟩ := negation
      obtain ⟨only, rfl⟩ := List.length_eq_one_iff.mp one
      exact .negation only
    · obtain ⟨rfl, two⟩ := difference
      obtain ⟨a, b, rfl⟩ := List.length_eq_two.mp two
      exact .difference a b
    · cases known
  · intro production
    cases production <;> simp [production?]

/-- A production makes a bound of as many parts as it has. -/
theorem exists_build? {operator : String} {n : Nat} {production : Production}
    {bounds : List Extended} (known : production? operator n = some production)
    (many : bounds.length = n) : ∃ bound, production.build? bounds = some bound := by
  rw [production?] at known
  split_ifs at known with interval sum product negation difference <;> cases known
  · obtain ⟨low, high, rfl⟩ := List.length_eq_two.mp (many.trans interval.2)
    exact ⟨_, rfl⟩
  · obtain ⟨first, rest, rfl⟩ := List.exists_cons_of_length_pos (l := bounds) (by omega)
    exact ⟨_, rfl⟩
  · obtain ⟨first, rest, rfl⟩ := List.exists_cons_of_length_pos (l := bounds) (by omega)
    exact ⟨_, rfl⟩
  · obtain ⟨only, rfl⟩ := List.length_eq_one_iff.mp (many.trans negation.2)
    exact ⟨_, rfl⟩
  · obtain ⟨a, b, rfl⟩ := List.length_eq_two.mp (many.trans difference.2)
    exact ⟨_, rfl⟩

/-- Reading a tree overflows: at a number, in a part behind others that are read, or where a
part is negated. -/
inductive Overflows (kind : Kind) : SExpr → Prop
  | number {a : Atom} (overflow : Value.decode kind (.atom a) = .error .overflow) :
    Overflows kind (.atom a)
  | part {e part : SExpr} {before after : List SExpr}
    (production : Matches kind e (before ++ part :: after))
    (earlier : ∀ other ∈ before, ∃ bound, ofSExpr kind other = .ok bound)
    (overflow : Overflows kind part) : Overflows kind e
  | negation {only : SExpr} {x : Extended} (read : ofSExpr kind only = .ok x)
    (overflow : x.negateOverflows = true) : Overflows kind (.app [.atom (.symbol "-"), only])
  | difference {a b : SExpr} {x y : Extended} (first : ofSExpr kind a = .ok x)
    (second : ofSExpr kind b = .ok y) (overflow : y.negateOverflows = true) :
    Overflows kind (.app [.atom (.symbol "-"), a, b])

/-- A production that overflows on its parts is a negation or a difference. -/
theorem overflows_of_production {operator : String} {args : List SExpr} {bounds : List Extended}
    {known : Production} (found : production? operator args.length = some known)
    (read : List.Forall₂ (fun part bound => ofSExpr kind part = .ok bound) args bounds)
    (overflow : known.overflows bounds = true) :
    Overflows kind (.app (.atom (.symbol operator) :: args)) := by
  rw [production?] at found
  split_ifs at found with interval sum product negation difference <;> cases found
  · cases overflow
  · cases overflow
  · cases overflow
  · obtain ⟨rfl, one⟩ := negation
    obtain ⟨only, rfl⟩ := List.length_eq_one_iff.mp one
    obtain _ | ⟨read, _ | _⟩ := read
    exact .negation read overflow
  · obtain ⟨rfl, two⟩ := difference
    obtain ⟨a, b, rfl⟩ := List.length_eq_two.mp two
    obtain _ | ⟨first, _ | ⟨second, _ | _⟩⟩ := read
    exact .difference first second overflow

/-- Where a production matches, the parts are read from left to right, and the first failure
is the failure of the whole. When all parts are read, nothing but an overflow makes the whole
fail. -/
theorem ofSExpr_of_matches (production : Matches kind e parts) :
    (∀ bounds, parts.mapM (ofSExpr kind) = .ok bounds →
      (∃ bound, ofSExpr kind e = .ok bound) ∨
        Overflows kind e ∧ ofSExpr kind e = .error .overflow) ∧
    ∀ failure, parts.mapM (ofSExpr kind) = .error failure → ofSExpr kind e = .error failure := by
  cases e with
  | atom a =>
    obtain rfl := production.atom
    obtain ⟨bound, read⟩ := matches_atom_iff.mp ⟨_, production⟩
    refine ⟨fun _ _ => .inl ⟨bound, by rw [ofSExpr, read]⟩, fun failure failed => ?_⟩
    cases failed
  | app items =>
    obtain ⟨operator, rfl⟩ := production.app
    obtain ⟨known, found⟩ := Option.isSome_iff_exists.mp (isSome_production?_iff.mpr production)
    constructor
    · intro bounds read
      have each := Except.mapM_eq_ok.mp read
      cases overflow : known.overflows bounds with
      | true =>
        refine .inr ⟨overflows_of_production found each overflow, ?_⟩
        simp [ofSExpr, found, ofList_eq_mapM, read, overflow]
      | false =>
        obtain ⟨bound, built⟩ := exists_build? found each.length_eq.symm
        exact .inl ⟨bound, by simp [ofSExpr, found, ofList_eq_mapM, read, overflow, built]⟩
    · intro failure failed
      simp [ofSExpr, found, ofList_eq_mapM, failed]

/-- A tree without shape is not read, and unless it is a number that overflows, the failure
names it. -/
theorem ofSExpr_of_no_match (none : ∀ parts, ¬Matches kind e parts) :
    ofSExpr kind e = .error (.unrecognizedExtended e) ∨
      Overflows kind e ∧ ofSExpr kind e = .error .overflow := by
  cases e with
  | atom a =>
    rw [ofSExpr]
    cases read : ofAtom kind a with
    | error failure =>
      rcases ofAtom_eq_error read with rfl | ⟨rfl, overflow⟩
      · exact .inl rfl
      · exact .inr ⟨.number overflow, rfl⟩
    | ok bound =>
      obtain ⟨parts, production⟩ := matches_atom_iff.mpr ⟨bound, read⟩
      exact absurd production (none parts)
  | app items =>
    left
    unfold ofSExpr
    split
    · next same => cases same
    · next operator args same =>
      cases same
      cases found : production? operator args.length with
      | none => rfl
      | some known =>
        have matched : Matches kind (.app (.atom (.symbol operator) :: args)) args :=
          isSome_production?_iff.mp (Option.isSome_of_eq_some found)
        exact absurd matched (none args)
    · next same =>
      cases same
      rfl

theorem ofSExpr_of_overflows (overflows : Overflows kind e) :
    ofSExpr kind e = .error .overflow := by
  induction overflows with
  | number overflow => rw [ofSExpr, ofAtom_of_overflow overflow]
  | part production earlier _ ih =>
    exact (ofSExpr_of_matches production).2 _ (Except.mapM_eq_error.mpr ⟨_, _, _, rfl, earlier, ih⟩)
  | negation read overflow =>
    simp [ofSExpr, ofList, production?, read, Production.overflows, overflow]
  | difference first second overflow =>
    simp [ofSExpr, ofList, production?, first, second, Production.overflows, overflow]

/-- There is one kind at which trees overflow. -/
theorem Overflows.kind_eq (overflows : Overflows kind e) : kind = .int 0 := by
  induction overflows with
  | number overflow => exact Value.kind_of_decode_overflow overflow
  | part _ _ _ ih => exact ih
  | negation read overflow => exact ((kept_over kind).ofSExpr read).kind_of_negateOverflows overflow
  | difference _ second overflow =>
    exact ((kept_over kind).ofSExpr second).kind_of_negateOverflows overflow

/-- The item stands at a path in the tree, and all trees above it have the shape of a
production. A path tells which part is entered at each of them. -/
inductive Below (kind : Kind) : SExpr → List Nat → SExpr → Prop
  | here (e : SExpr) : Below kind e [] e
  | part {e part item : SExpr} {parts : List SExpr} {i : Nat} {path : List Nat}
    (production : Matches kind e parts) (found : parts[i]? = some part)
    (below : Below kind part path item) : Below kind e (i :: path) item

/-- A part without shape below trees that have one. -/
def Culprit (kind : Kind) (e : SExpr) (path : List Nat) (item : SExpr) : Prop :=
  Below kind e path item ∧ ∀ parts, ¬Matches kind item parts

/-- Every culprit somewhere else is further right where the paths to the two part. -/
def LeftmostCulprit (kind : Kind) (e : SExpr) (path : List Nat) (item : SExpr) : Prop :=
  Culprit kind e path item ∧
    ∀ other part, Culprit kind e other part → other = path ∨ List.Lex (· < ·) path other

theorem Below.unique {path : List Nat} {other : SExpr} (below : Below kind e path item)
    (again : Below kind e path other) : item = other := by
  induction below with
  | here e =>
    cases again
    rfl
  | part production found _ ih =>
    cases again with
    | part second there below =>
      rw [production.unique second, there] at found
      cases found
      exact ih below

theorem not_culprit_of_derives {path : List Nat} (derived : Derives kind e) :
    ¬Culprit kind e path item := by
  rintro ⟨below, none⟩
  induction below with
  | here e =>
    obtain ⟨production, _⟩ := derived
    exact none _ production
  | part production found _ ih =>
    exact ih ((derives_iff production).mp derived _ (List.mem_of_getElem? found)) none

/-- A tree without shape is its own culprit. -/
theorem leftmost_here (none : ∀ parts, ¬Matches kind e parts) :
    LeftmostCulprit kind e [] e :=
  ⟨⟨.here e, none⟩, fun other _ _ => (List.lex_nil_or_eq_nil other).symm⟩

/-- The leftmost culprit of a part behind derivable ones is the leftmost of the whole. -/
theorem LeftmostCulprit.part {before after : List SExpr} {part : SExpr} {path : List Nat}
    (production : Matches kind e (before ++ part :: after))
    (derived : ∀ earlier ∈ before, Derives kind earlier)
    (leftmost : LeftmostCulprit kind part path item) :
    LeftmostCulprit kind e (before.length :: path) item := by
  obtain ⟨⟨below, none⟩, first⟩ := leftmost
  refine ⟨⟨.part production (by simp) below, none⟩, ?_⟩
  rintro other found ⟨inside, unshaped⟩
  cases inside with
  | here => exact absurd production (unshaped _)
  | @part _ entered _ _ i rest again there inside =>
    rw [← production.unique again] at there
    by_cases earlier : i < before.length
    · rw [List.getElem?_append_left earlier] at there
      have derived := derived entered (List.mem_of_getElem? there)
      exact absurd ⟨inside, unshaped⟩ (not_culprit_of_derives derived)
    · by_cases same : i = before.length
      · subst same
        obtain rfl : part = entered := by simpa using there
        rcases first _ _ ⟨inside, unshaped⟩ with rfl | right
        · exact .inl rfl
        · exact .inr (.cons right)
      · exact .inr (.rel (by omega))

theorem LeftmostCulprit.path_unique {path other : List Nat} {part : SExpr}
    (leftmost : LeftmostCulprit kind e path item) (again : LeftmostCulprit kind e other part) :
    path = other := by
  rcases leftmost.2 _ _ again.1 with same | right
  · exact same.symm
  · rcases again.2 _ _ leftmost.1 with same | left
    · exact same
    · exact absurd left (asymm_of (List.Lex (· < ·)) right)

/-- A tree is read and derived, or it overflows, or the failure names the leftmost culprit. -/
theorem ofSExpr_cases (kind : Kind) (e : SExpr) :
    (Derives kind e ∧ ∃ bound, ofSExpr kind e = .ok bound) ∨
      (Overflows kind e ∧ ofSExpr kind e = .error .overflow) ∨
      ∃ path item, LeftmostCulprit kind e path item ∧
        ofSExpr kind e = .error (.unrecognizedExtended item) := by
  induction e using induction_on_parts kind with
  | step e ih =>
    by_cases shaped : ∃ parts, Matches kind e parts
    · obtain ⟨parts, production⟩ := shaped
      have derived : ∀ part ∈ parts, (∃ bound, ofSExpr kind part = .ok bound) →
          Derives kind part := by
        rintro part member ⟨bound, read⟩
        rcases ih parts production part member with ⟨derived, -⟩ | ⟨-, failed⟩ | ⟨_, _, -, failed⟩
        · exact derived
        · rw [read] at failed
          cases failed
        · rw [read] at failed
          cases failed
      obtain ⟨succeeds, fails⟩ := ofSExpr_of_matches production
      cases all : parts.mapM (ofSExpr kind) with
      | ok bounds =>
        have each := Except.exists_mapM_eq_ok.mp ⟨bounds, all⟩
        rcases succeeds bounds all with read | overflows
        · exact .inl ⟨.parts production fun part member => derived part member (each part member),
            read⟩
        · exact .inr (.inl overflows)
      | error reason =>
        have failed := fails reason all
        obtain ⟨before, part, after, rfl, earlier, here⟩ := Except.mapM_eq_error.mp all
        rcases ih _ production part (by simp) with ⟨-, bound, read⟩ | ⟨overflows, same⟩ |
          ⟨path, item, leftmost, same⟩
        · rw [here] at read
          cases read
        · cases here.symm.trans same
          exact .inr (.inl ⟨.part production earlier overflows, failed⟩)
        · cases here.symm.trans same
          have front : ∀ other ∈ before, Derives kind other := fun other member =>
            derived other (by simp [member]) (earlier other member)
          exact .inr (.inr ⟨_, item, leftmost.part production front, failed⟩)
    · have none := not_exists.mp shaped
      rcases ofSExpr_of_no_match none with failed | overflows
      · exact .inr (.inr ⟨[], e, leftmost_here none, failed⟩)
      · exact .inr (.inl overflows)

theorem ofSExpr_eq_ok_iff :
    (∃ bound, ofSExpr kind e = .ok bound) ↔ Derives kind e ∧ ¬Overflows kind e := by
  constructor
  · rintro ⟨bound, read⟩
    have fits : ¬Overflows kind e := by
      intro overflows
      rw [ofSExpr_of_overflows overflows] at read
      cases read
    rcases ofSExpr_cases kind e with ⟨derived, -⟩ | ⟨overflows, -⟩ | ⟨_, _, -, failed⟩
    · exact ⟨derived, fits⟩
    · exact absurd overflows fits
    · rw [failed] at read
      cases read
  · rintro ⟨derived, fits⟩
    rcases ofSExpr_cases kind e with ⟨-, read⟩ | ⟨overflows, -⟩ | ⟨_, _, leftmost, -⟩
    · exact read
    · exact absurd overflows fits
    · exact absurd leftmost.1 (not_culprit_of_derives derived)

theorem ofSExpr_eq_unrecognized_iff :
    ofSExpr kind e = .error (.unrecognizedExtended item) ↔
      ¬Overflows kind e ∧ ∃ path, LeftmostCulprit kind e path item := by
  constructor
  · intro failed
    have fits : ¬Overflows kind e := by
      intro overflows
      rw [ofSExpr_of_overflows overflows] at failed
      cases failed
    rcases ofSExpr_cases kind e with ⟨-, _, read⟩ | ⟨overflows, -⟩ | ⟨path, _, leftmost, same⟩
    · rw [read] at failed
      cases failed
    · exact absurd overflows fits
    · cases failed.symm.trans same
      exact ⟨fits, path, leftmost⟩
  · rintro ⟨fits, path, leftmost⟩
    rcases ofSExpr_cases kind e with ⟨derived, -⟩ | ⟨overflows, -⟩ | ⟨other, part, first, failed⟩
    · exact absurd leftmost.1 (not_culprit_of_derives derived)
    · exact absurd overflows fits
    · obtain rfl := leftmost.path_unique first
      rw [failed, leftmost.1.1.unique first.1.1]

/-- Reading accepts exactly the trees that the productions derive, unless they overflow. Where
there is a culprit it fails, and the failure is about the leftmost one, whose text its message
shows. An overflow comes before both, but there is one kind only at which trees overflow. -/
theorem ofSExpr_grammar (kind : Kind) (e : SExpr) :
    ((∃ bound, ofSExpr kind e = .ok bound) ↔ Derives kind e ∧ ¬Overflows kind e) ∧
    (∀ failure, ofSExpr kind e = .error failure ↔
      Overflows kind e ∧ failure = .overflow ∨
        ¬Overflows kind e ∧ ∃ path item, LeftmostCulprit kind e path item ∧
          failure = .unrecognizedExtended item ∧
          failure.message = "unrecognized extended value: " ++ item.text) ∧
    (Overflows kind e → kind = .int 0) := by
  refine ⟨ofSExpr_eq_ok_iff, fun failure => ⟨fun failed => ?_, ?_⟩, Overflows.kind_eq⟩
  · rcases ofSExpr_cases kind e with ⟨-, _, read⟩ | ⟨overflows, same⟩ | ⟨path, item, _, same⟩
    · rw [read] at failed
      cases failed
    · cases failed.symm.trans same
      exact .inl ⟨overflows, rfl⟩
    · cases failed.symm.trans same
      obtain ⟨fits, path, leftmost⟩ := ofSExpr_eq_unrecognized_iff.mp same
      exact .inr ⟨fits, path, item, leftmost, rfl, rfl⟩
  · rintro (⟨overflows, rfl⟩ | ⟨fits, path, item, leftmost, rfl, -⟩)
    · exact ofSExpr_of_overflows overflows
    · exact ofSExpr_eq_unrecognized_iff.mpr ⟨fits, path, leftmost⟩

/-- A sum whose second term is no bound, at a kind with numbers and at the one that has none,
where the first term overflows. -/
theorem ofSExpr_grammar_sum :
    let first := SExpr.app [.atom (.symbol "-"), .atom (.symbol "epsilon")]
    let second := SExpr.atom (.symbol "pi")
    let sum := SExpr.app [.atom (.symbol "+"), first, second]
    (∃ path, LeftmostCulprit .real sum path second) ∧ ¬Overflows .real sum ∧
      Overflows (.int 0) sum ∧ ofSExpr (.int 0) sum = .error .overflow := by
  intro first second sum
  obtain ⟨-, failures, only⟩ := ofSExpr_grammar .real sum
  have fits : ¬Overflows .real sum := fun overflows => nomatch only overflows
  have overflows : Overflows (.int 0) sum :=
    @Overflows.part (.int 0) sum first [] [second] (.sum first second []) (by simp)
      (.negation rfl rfl)
  refine ⟨?_, fits, overflows, ((ofSExpr_grammar (.int 0) sum).2.1 _).mpr (.inl ⟨overflows, rfl⟩)⟩
  rcases (failures (.unrecognizedExtended second)).mp rfl with ⟨overflows, -⟩ |
    ⟨-, path, item, leftmost, same, -⟩
  · exact absurd overflows fits
  · cases same
    exact ⟨path, leftmost⟩

/-- An infinitesimal is derived at every kind and so is its negation, which overflows at the
signed kind of width zero. -/
theorem ofSExpr_overflows :
    let tree := SExpr.app [.atom (.symbol "-"), .atom (.symbol "epsilon")]
    Derives (.int 0) tree ∧ ofSExpr (.int 0) tree = .error .overflow ∧
      ¬∀ (kind : Kind) (e : SExpr), (∃ bound, ofSExpr kind e = .ok bound) ↔ Derives kind e := by
  intro tree
  have derived : Derives (.int 0) tree := by
    refine .parts (.negation _) fun part member => ?_
    obtain rfl := List.mem_singleton.mp member
    exact .parts .epsilon (by simp)
  have failed : ofSExpr (.int 0) tree = .error .overflow := rfl
  refine ⟨derived, failed, fun exactly => ?_⟩
  obtain ⟨bound, read⟩ := (exactly (.int 0) tree).mpr derived
  rw [failed] at read
  cases read

end SmtDialogue.Extended
