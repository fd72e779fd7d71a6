import SmtDialogue.Proofs.Ingredients
import SmtDialogue.Proofs.Literals
import SmtDialogue.Proofs.Overflows
import SmtDialogue.Proofs.Tables

/-!
# Names, sorts and terms as expressions

The text of a sort or a term is one expression when the names in it are symbols or
numerals and its labels hold no bar. No application in it overflows: it has a name from the
language in front, or names and sorts behind the name.
-/

namespace SmtDialogue

namespace SExpr

/-- The tree of a symbol. -/
def named (name : String) : SExpr := .atom (.symbol name)

/-- The tree of a numeral. -/
def numeral (n : Nat) : SExpr := .atom (.int n none)

@[simp] theorem isMild_numeral (n : Nat) : (numeral n).IsMild :=
  isMild_atom (by simp)

/-- A symbol that no literal starts with heads an application that stays one. -/
theorem fold_symbol {name : String}
    (other : ∀ operator ∈ ["-", "/", "_", "fp", "root-obj"], name ≠ operator)
    (args : List SExpr) :
    fold (.atom (.symbol name) :: args) = .app (.atom (.symbol name) :: args) := by
  simp only [List.forall_mem_cons] at other
  obtain ⟨minus, slash, underscore, word, root, _⟩ := other
  have none : literal? name args = none := by
    rw [literal?, if_neg minus, if_neg slash, if_neg underscore, if_neg word, if_neg root]
  simp [fold, none]

end SExpr

open SExpr (named numeral fold)

theorem phrase_bare (name : String) (bare : Spelling.IsBare name.toList) :
    Phrase name.toList (named name) :=
  Phrase.of_proper (Spelling.proper_bare bare)

theorem phrase_numeral (n : Nat) : Phrase (toString n).toList (numeral n) := by
  have phrase := Phrase.of_proper (Spelling.proper_natural n)
  simpa [Spelling.natural, Spelling.chars, Spelling.tree, numeral] using phrase

/-- Texts with their trees, with blanks between them. -/
theorem phrases_spaced {ps : List (String × SExpr)} (each : ∀ p ∈ ps, Phrase p.1.toList p.2) :
    Phrases (spaced (ps.map Prod.fst)).toList (ps.map Prod.snd) := by
  rw [spaced, String.toList_intercalate]
  induction ps with
  | nil => exact Phrases.nil
  | cons p rest ih =>
    obtain ⟨first, others⟩ := List.forall_mem_cons.mp each
    cases rest with
    | nil => simpa using first.item
    | cons q more => simpa using Phrases.cons first (ih others)

/-- Texts with blanks between them are as many items, of which all that holds of each. -/
theorem exists_phrases_spaced {P : SExpr → Prop} {texts : List String}
    (each : ∀ t ∈ texts, ∃ e, Phrase t.toList e ∧ P e) :
    ∃ es, Phrases (spaced texts).toList es ∧ ∀ e ∈ es, P e := by
  have trees : ∃ ps : List (String × SExpr), ps.map Prod.fst = texts ∧
      ∀ p ∈ ps, Phrase p.1.toList p.2 ∧ P p.2 := by
    induction texts with
    | nil => exact ⟨[], rfl, by simp⟩
    | cons t rest ih =>
      obtain ⟨⟨e, first⟩, others⟩ := List.forall_mem_cons.mp each
      obtain ⟨ps, rfl, later⟩ := ih others
      exact ⟨(t, e) :: ps, rfl, List.forall_mem_cons.mpr ⟨first, later⟩⟩
  obtain ⟨ps, rfl, all⟩ := trees
  exact ⟨_, phrases_spaced fun p hp => (all p hp).1,
    List.forall_mem_map.mpr fun p hp => (all p hp).2⟩

/-- Texts between parentheses, where the application stays one. -/
theorem phrase_app {ps : List (String × SExpr)} (each : ∀ p ∈ ps, Phrase p.1.toList p.2)
    (fits : SExpr.foldOverflows (ps.map Prod.snd) = false)
    (stays : fold (ps.map Prod.snd) = .app (ps.map Prod.snd)) :
    Phrase ('(' :: (spaced (ps.map Prod.fst)).toList ++ [')']) (.app (ps.map Prod.snd)) :=
  stays ▸ (phrases_spaced each).list fits

/-- An indexed identifier that is no literal. -/
theorem phrase_indexed (name : String) (bare : Spelling.IsBare name.toList) (indices : List Nat)
    (stays : fold (named "_" :: named name :: indices.map numeral) =
      .app (named "_" :: named name :: indices.map numeral)) :
    Phrase ('(' :: (spaced ("_" :: name :: indices.map toString)).toList ++ [')'])
      (.app (named "_" :: named name :: indices.map numeral)) := by
  have each : ∀ p ∈ ("_", named "_") :: (name, named name) ::
      indices.map (fun n => (toString n, numeral n)), Phrase p.1.toList p.2 := by
    simp only [List.forall_mem_cons, List.forall_mem_map]
    exact ⟨phrase_bare "_" (by decide), phrase_bare name bare, fun n _ => phrase_numeral n⟩
  have texts : (indices.map fun n => (toString n, numeral n)).map Prod.fst =
      indices.map toString := by simp [Function.comp_def]
  have trees : (indices.map fun n => (toString n, numeral n)).map Prod.snd =
      indices.map numeral := by simp [Function.comp_def]
  have whole := phrase_app each (SExpr.foldOverflows_symbol (by decide) (by decide) _)
    (by rw [List.map_cons, List.map_cons, trees]; exact stays)
  rwa [List.map_cons, List.map_cons, List.map_cons, List.map_cons, texts, trees] at whole

/-- The text is one expression wherever it stands. -/
def Legible (text : String) : Prop :=
  ∃ e, Phrase text.toList e

/-- The text is one expression, and no application overflows with it behind its head. -/
def Mild (text : String) : Prop :=
  ∃ e, Phrase text.toList e ∧ e.IsMild

/-- The text is one application. -/
def Enclosed (text : String) : Prop :=
  ∃ items, Phrase text.toList (fold items)

/-- Inside an application the text is a number of items. -/
def Itemized (cs : List Char) : Prop :=
  ∃ es, Phrases cs es

/-- With these items in front an application does not overflow, whatever stands behind them. -/
def Headed (cs : List Char) : Prop :=
  ∃ es, Phrases cs es ∧ ∀ more, SExpr.foldOverflows (es ++ more) = false

namespace Legible

variable {text : String}

theorem of_proper {s : Spelling} (proper : s.Proper) (spelled : s.chars = text.toList) :
    Legible text :=
  ⟨s.tree, spelled ▸ Phrase.of_proper proper⟩

theorem items (legible : Legible text) : Itemized text.toList := by
  obtain ⟨e, phrase⟩ := legible
  exact ⟨[e], phrase.item⟩

theorem bare (isBare : Spelling.IsBare text.toList) : Legible text :=
  ⟨_, phrase_bare text isBare⟩

theorem natural (n : Nat) : Legible (toString n) :=
  ⟨_, phrase_numeral n⟩

end Legible

namespace Mild

variable {text : String}

theorem legible (mild : Mild text) : Legible text := by
  obtain ⟨e, phrase, -⟩ := mild
  exact ⟨e, phrase⟩

theorem bare (isBare : Spelling.IsBare text.toList) : Mild text :=
  ⟨_, phrase_bare text isBare, SExpr.isMild_symbol text⟩

theorem natural (n : Nat) : Mild (toString n) :=
  ⟨_, phrase_numeral n, SExpr.isMild_numeral n⟩

end Mild

namespace Enclosed

variable {text : String}

theorem legible (enclosed : Enclosed text) : Legible text := by
  obtain ⟨items, phrase⟩ := enclosed
  exact ⟨fold items, phrase⟩

/-- What an application is folded into is no symbol. -/
theorem headed (enclosed : Enclosed text) : Headed text.toList := by
  obtain ⟨items, phrase⟩ := enclosed
  exact ⟨[fold items], phrase.item, SExpr.foldOverflows_fold items⟩

end Enclosed

namespace Headed

variable {cs ds : List Char}

theorem bare {text : String} (isBare : Spelling.IsBare text.toList) (word : text ≠ "fp")
    (root : text ≠ "root-obj") : Headed text.toList :=
  ⟨[named text], (phrase_bare text isBare).item, SExpr.foldOverflows_symbol word root⟩

theorem append (first : Headed cs) {gap : List Char} (isGap : Gap gap) (second : Itemized ds) :
    Headed (cs ++ gap ++ ds) := by
  obtain ⟨es, first, fits⟩ := first
  obtain ⟨fs, second⟩ := second
  exact ⟨es ++ fs, first.append isGap second, fun more => by simpa using fits (fs ++ more)⟩

/-- Items on both sides of a blank. -/
theorem spaced (first : Headed cs) (second : Itemized ds) : Headed (cs ++ ' ' :: ds) := by
  simpa using first.append gap_blank second

theorem list (headed : Headed cs) {text : String} (written : text.toList = '(' :: cs ++ [')']) :
    Enclosed text := by
  obtain ⟨es, items, fits⟩ := headed
  exact ⟨es, written ▸ items.list (by simpa using fits [])⟩

end Headed

/-- Texts with blanks between them are items. -/
theorem itemized_spaced {texts : List String} (each : ∀ t ∈ texts, Legible t) :
    Itemized (spaced texts).toList := by
  obtain ⟨es, items, -⟩ := @exists_phrases_spaced (fun _ => True) texts
    (by simpa [Legible] using each)
  exact ⟨es, items⟩

theorem headed_spaced {head : String} {texts : List String} (headed : Headed head.toList)
    (each : ∀ t ∈ texts, Legible t) : Headed (spaced (head :: texts)).toList := by
  cases texts with
  | nil => simpa [spaced] using headed
  | cons t rest =>
    have whole := headed.spaced (itemized_spaced each)
    simpa [spaced, String.intercalate_cons_cons] using whole

/-- Texts between parentheses, of which the first is no symbol that literals start with. -/
theorem enclosed_spaced {texts : List String} (each : ∀ t ∈ texts, Legible t)
    (headed : ∀ t ∈ texts.head?, Headed t.toList) : Enclosed ("(" ++ spaced texts ++ ")") := by
  cases texts with
  | nil => exact ⟨[], Phrases.nil.list rfl⟩
  | cons t rest =>
    exact (headed_spaced (headed t rfl) (List.forall_mem_cons.mp each).2).list (by simp)

/-- Texts between parentheses that make nothing overflow. -/
theorem enclosed_mild {texts : List String} (each : ∀ t ∈ texts, Mild t) :
    Enclosed ("(" ++ spaced texts ++ ")") := by
  obtain ⟨es, items, mild⟩ := exists_phrases_spaced each
  have whole := items.list (SExpr.foldOverflows_of_mild mild)
  exact ⟨es, by simpa using whole⟩

/-- A symbol that needs no bars, or a numeral. -/
def IsSimple (text : String) : Prop :=
  Literal.isSimpleSymbol text = true ∨ Numeral.isDigits text.toList = true

theorem IsSimple.inside {text : String} (simple : IsSimple text) :
    text.toList ≠ [] ∧ ∀ c ∈ text.toList, Lexeme.endsWord c = false ∧ c ≠ '|' := by
  rcases simple with symbol | digits
  · exact (Literal.isBare_of_isSimpleSymbol symbol).1
  · simp only [Numeral.isDigits, Bool.and_eq_true, Bool.not_eq_true', List.isEmpty_eq_false_iff,
      List.all_eq_true] at digits
    exact ⟨digits.1, fun c hc => Numeral.inWord_of_isDigit (digits.2 c hc)⟩

theorem IsSimple.mild {text : String} (simple : IsSimple text) : Mild text := by
  have word : Spelling.IsWord text.toList := simple.inside
  rcases simple with symbol | digits
  · exact .bare (Literal.isBare_of_isSimpleSymbol symbol)
  · have first : ∀ c ∈ text.toList.head?, Numeral.isDigit c = true := by
      simp only [Numeral.isDigits, Bool.and_eq_true, List.all_eq_true] at digits
      exact fun c hc => digits.2 c (List.mem_of_mem_head? hc)
    have hash : text.toList.head? ≠ some '#' := fun same => absurd (first _ same) (by decide)
    exact ⟨_, .word word.unquoted fun start => Token.ofWord_of_ne_hash hash start,
      SExpr.isMild_atom (Atom.ofWord_ne_sized _)⟩

/-- A name that may stand in a query: what the user chose is simple. -/
def Name.IsLegible : Name → Prop
  | .function name => IsSimple name
  | _ => True

/-- A kind whose declared sort has a simple name. -/
def Kind.IsLegible : Kind → Prop
  | .sort name _ => IsSimple name
  | _ => True

def NameSort.IsLegible : NameSort → Prop
  | .value kind => kind.IsLegible
  | .array index elem => index.IsLegible ∧ elem.IsLegible

theorem Spelling.isBare_text (id : WordId) : IsBare id.text.toList := by
  rw [id.toList_text]
  exact @isBare_numbered ['s'] (by decide) (by decide) id.index.toNat

theorem WordId.mild (id : WordId) : Mild id.text :=
  .bare (Spelling.isBare_text id)

theorem WordId.headed (id : WordId) : Headed id.text.toList :=
  .bare (Spelling.isBare_text id) (id.text_ne (by decide)) (id.text_ne (by decide))

theorem Name.mild {n : Name} (legible : n.IsLegible) : Mild n.text := by
  cases n with
  | word id => exact id.mild
  | table id =>
    have bare := @Spelling.isBare_numbered "table".toList (by decide) (by decide) id
    exact .bare (by simpa [text] using bare)
  | array id =>
    have bare := @Spelling.isBare_numbered "array_".toList (by decide) (by decide) id
    exact .bare (by simpa [text] using bare)
  | function name => exact IsSimple.mild legible

/-- An indexed sort. -/
theorem mild_indexed (name : String) (bare : Spelling.IsBare name.toList) (indices : List Nat)
    (stays : fold (named "_" :: named name :: indices.map numeral) =
      .app (named "_" :: named name :: indices.map numeral)) {text : String}
    (written : text.toList = ("(" ++ spaced ("_" :: name :: indices.map toString) ++ ")").toList) :
    Mild text := by
  have phrase := phrase_indexed name bare indices stays
  refine ⟨.app (named "_" :: named name :: indices.map numeral),
    by simpa [written] using phrase, ?_⟩
  exact SExpr.isMild_app (by decide) _

theorem Kind.mild {kind : Kind} (legible : kind.IsLegible) : Mild kind.sortText := by
  cases kind with
  | bits signed width =>
    exact mild_indexed "BitVec" (by decide) [width.toNat] rfl (by simp [sortText, spaced])
  | float => exact mild_indexed "FloatingPoint" (by decide) [8, 24] rfl rfl
  | double => exact mild_indexed "FloatingPoint" (by decide) [11, 53] rfl rfl
  | sort name constructors => exact IsSimple.mild legible
  | bool | integer | real | string | char => exact .bare (by decide)

theorem NameSort.mild {sort : NameSort} (legible : sort.IsLegible) : Mild sort.text := by
  cases sort with
  | value kind => exact Kind.mild legible
  | array index elem =>
    obtain ⟨e, first, -⟩ := Kind.mild legible.1
    obtain ⟨f, second, -⟩ := Kind.mild legible.2
    have each : ∀ p ∈ [("Array", named "Array"), (index.sortText, e), (elem.sortText, f)],
        Phrase p.1.toList p.2 := by
      simpa using ⟨phrase_bare "Array" (by decide), first, second⟩
    have whole := phrase_app each (SExpr.foldOverflows_symbol (by decide) (by decide) _)
      (SExpr.fold_symbol (by decide) _)
    refine ⟨.app [named "Array", e, f], by simpa [text, spaced] using whole, ?_⟩
    exact SExpr.isMild_app (by decide) _

/-- A value whose label has no bar. -/
def Value.IsLegible (v : Value) : Prop :=
  ∀ index label, v.payload = .element index label → '|' ∉ label.toList

theorem Value.legible {v : Value} (legible : v.IsLegible) : Legible v.literal := by
  by_cases empty : v.kind.width? = some 0
  · -- a word of no bits is written with one digit
    obtain ⟨kind, payload, fits⟩ := v
    cases Payload.fits_iff.mp fits with
    | @bits signed width i sized inRange =>
      obtain rfl : width = 0 := by simpa [Kind.width?] using empty
      refine .of_proper (@Spelling.proper_hexadecimal 1 0 (by decide) (by decide) (by decide)) ?_
      simp [Spelling.hexadecimal, Spelling.chars, literal, Kind.width?, Literal.bits,
        Numeral.padded]
    | _ => cases empty
  · exact .of_proper (proper_spelling empty legible) v.chars_spelling

theorem isLegible_ofWord (width : UInt32) (i : Int) : (Value.ofWord width i).IsLegible :=
  fun _ _ same => nomatch same

def Operator.IsLegible : Operator → Prop
  | .builtIn name | .rounded name =>
    Spelling.IsBare name.toList ∧ name ≠ "fp" ∧ name ≠ "root-obj"
  | .extract _ _ => True
  | .declared n => n.IsLegible
  | .everywhere sort => sort.IsLegible

/-- A declared name is applied to names. -/
def Operator.Accepts (operator : Operator) (args : List Term) : Prop :=
  ∀ n, operator = .declared n → ∀ a ∈ args, ∃ m, a = .name m

theorem Operator.accepts_of_ne {operator : Operator} (other : ∀ n, operator ≠ .declared n)
    (args : List Term) : operator.Accepts args :=
  fun n same => absurd same (other n)

/-- Slices are no special floating-point words. -/
theorem fold_extract (high low : Nat) :
    fold (named "_" :: named "extract" :: [high, low].map numeral) =
      .app (named "_" :: named "extract" :: [high, low].map numeral) := by
  have word : ∀ f, SExpr.specialWord? f "extract" = none := by simp [SExpr.specialWord?]
  have special : ∀ e s, SExpr.special? "extract" e s = none := by
    intro e s
    unfold SExpr.special?
    split
    · rw [word]
      rfl
    · rw [word]
      rfl
    · rfl
  have none : ∀ e s, SExpr.literal? "_" [named "extract", e, s] = none := by
    intro e s
    rw [SExpr.literal?, if_neg (by decide), if_neg (by decide), if_pos rfl]
    exact special e s
  rw [named, fold, List.map_cons, List.map_cons, List.map_nil]
  simp only [none]

theorem Operator.headed {operator : Operator} (legible : operator.IsLegible)
    (builtIn : ∀ n, operator ≠ .declared n) : Headed operator.text.toList := by
  cases operator with
  | builtIn name => exact .bare legible.1 legible.2.1 legible.2.2
  | rounded name =>
    have mode := (@Legible.bare "RNE" (by decide)).items
    simpa [text] using (Headed.bare legible.1 legible.2.1 legible.2.2).spaced mode
  | extract high low =>
    have whole := phrase_indexed "extract" (by decide) [high, low] (fold_extract high low)
    exact ⟨_, Phrase.item (by simpa [text, spaced] using whole), fun _ => rfl⟩
  | declared n => exact absurd rfl (builtIn n)
  | everywhere sort =>
    have items : ∀ t ∈ ["const", sort.text], Legible t := by
      simpa using ⟨@Legible.bare "const" (by decide), (NameSort.mild legible).legible⟩
    have whole := headed_spaced (@Headed.bare "as" (by decide) (by decide) (by decide)) items
    exact (whole.list (by simp [text, spaced])).headed

namespace Term

mutual

/-- Terms in which every name, sort and label is legible. -/
def IsLegible : Term → Prop
  | .name n => n.IsLegible
  | .literal v => v.IsLegible
  | .apply operator args => operator.IsLegible ∧ operator.Accepts args ∧ IsLegibleAll args

def IsLegibleAll : List Term → Prop
  | [] => True
  | t :: rest => t.IsLegible ∧ IsLegibleAll rest

end

theorem isLegibleAll_iff {args : List Term} : IsLegibleAll args ↔ ∀ a ∈ args, a.IsLegible := by
  induction args with
  | nil => simp [IsLegibleAll]
  | cons a rest ih => simp [IsLegibleAll, ih]

/-- Arguments stand behind the operator, with blanks before them. -/
theorem text_apply (operator : Operator) (args : List Term) :
    (Term.apply operator args).text = "(" ++ spaced (operator.text :: args.map text) ++ ")" := by
  have behind : ∀ args : List Term, ∀ front : String,
      spaced (front :: args.map text) = front ++ textArgs args := by
    intro args
    induction args with
    | nil => simp [spaced, textArgs]
    | cons a rest ih =>
      intro front
      have step : spaced (front :: text a :: rest.map text) =
          front ++ " " ++ spaced (text a :: rest.map text) := by
        simp [spaced, String.intercalate_cons_cons]
      rw [List.map_cons, step, ih, textArgs]
      simp [String.append_assoc]
  simp [text, behind, String.append_assoc]

mutual

theorem legible : ∀ {t : Term}, t.IsLegible → Legible t.text
  | .name _, parts => (Name.mild (by simpa only [IsLegible] using parts)).legible
  | .literal _, parts => Value.legible (by simpa only [IsLegible] using parts)
  | .apply operator args, parts => by
    rw [IsLegible] at parts
    obtain ⟨head, accepts, each⟩ := parts
    rw [text_apply]
    by_cases declared : ∃ n, operator = .declared n
    · obtain ⟨n, rfl⟩ := declared
      refine (enclosed_mild (List.forall_mem_cons.mpr ⟨Name.mild head, ?_⟩)).legible
      refine List.forall_mem_map.mpr fun a ha => ?_
      obtain ⟨m, rfl⟩ := accepts n rfl a ha
      exact Name.mild (by simpa only [IsLegible] using isLegibleAll_iff.mp each _ ha)
    · have headed := Operator.headed head fun n same => declared ⟨n, same⟩
      exact ((headed_spaced headed (legibleAll each)).list (by simp)).legible

theorem legibleAll : ∀ {args : List Term}, IsLegibleAll args → ∀ t ∈ args.map text, Legible t
  | [], _ => by simp
  | _ :: _, parts => by
    rw [IsLegibleAll] at parts
    exact List.forall_mem_cons.mpr ⟨legible parts.1, legibleAll parts.2⟩

end

theorem isBare_builtIns : ∀ name ∈ Op.builtIns, Spelling.IsBare name.toList := by
  decide +kernel

theorem other_builtIns : ∀ name ∈ Op.builtIns, name ≠ "fp" ∧ name ≠ "root-obj" := by
  decide

/-- A call of a built-in operator on legible terms. -/
theorem isLegible_call {name : String} (listed : name ∈ Op.builtIns) {args : List Term}
    (each : ∀ a ∈ args, a.IsLegible) : (call name args).IsLegible := by
  rw [call, IsLegible]
  exact ⟨⟨isBare_builtIns _ listed, other_builtIns _ listed⟩, Operator.accepts_of_ne (by simp) _,
    isLegibleAll_iff.mpr each⟩

end Term

/-- The terms of operations on legible names are legible. -/
theorem Op.Form.isLegible {op : Op} {args : List Term} {t : Term} (form : op.Form args t)
    (names : ∀ a ∈ args, ∃ n, a = .name n) (each : ∀ a ∈ args, a.IsLegible)
    (named : ∀ n, op.name? = some n → n.IsLegible) : t.IsLegible := by
  have some : ∀ used : List Term, (∀ a ∈ used, a ∈ args) → ∀ a ∈ used, a.IsLegible :=
    fun used inside a ha => each a (inside a ha)
  cases form with
  | operand given => exact each _ given
  | name given => simpa [Term.IsLegible] using named _ given
  | call listed used => exact Term.isLegible_call listed (some _ used)
  | rounded listed used =>
    rw [Term.IsLegible]
    exact ⟨⟨Term.isBare_builtIns _ listed, Term.other_builtIns _ listed⟩,
      Operator.accepts_of_ne (by simp) _, Term.isLegibleAll_iff.mpr (some _ used)⟩
  | extract high low =>
    rw [Term.IsLegible]
    exact ⟨trivial, Operator.accepts_of_ne (by simp) _, Term.isLegibleAll_iff.mpr each⟩
  | declared given =>
    rw [Term.IsLegible]
    exact ⟨named _ given, fun _ _ => names, Term.isLegibleAll_iff.mpr each⟩
  | selected given =>
    refine Term.isLegible_call (by decide) (List.forall_mem_cons.mpr ⟨?_, each⟩)
    simpa [Term.IsLegible] using named _ given
  | unequal =>
    have equal : (Term.call "fp.eq" args).IsLegible := Term.isLegible_call (by decide) each
    exact Term.isLegible_call (by decide) (by simpa using equal)
  | shifted listed given width i =>
    have shifts : ∀ name ∈ ["bvshl", "bvashr", "bvlshr"], name ∈ builtIns := by decide
    have amount : (Term.literal (Value.ofWord width i)).IsLegible := by
      simpa [Term.IsLegible] using isLegible_ofWord width i
    exact Term.isLegible_call (shifts _ listed) (by simpa using ⟨each _ given, amount⟩)
  | @magnitude less negate zero a ordered listed least given =>
    have orders : ∀ name ∈ ["bvslt", "<"], name ∈ builtIns := by decide
    have negations : ∀ name ∈ ["bvneg", "-"], name ∈ builtIns := by decide
    have literal : (Term.literal zero).IsLegible := by
      rcases least with ⟨width, rfl⟩ | rfl
      · simpa [Term.IsLegible] using isLegible_ofWord width 0
      · simp [Term.IsLegible, Value.IsLegible, Value.ofReal]
    have below : (Term.call less [a, .literal zero]).IsLegible :=
      Term.isLegible_call (orders _ ordered) (by simpa using ⟨each a given, literal⟩)
    have negated : (Term.call negate [a]).IsLegible :=
      Term.isLegible_call (negations _ listed) (by simpa using each a given)
    exact Term.isLegible_call (by decide) (by simpa using ⟨below, negated, each a given⟩)

end SmtDialogue
