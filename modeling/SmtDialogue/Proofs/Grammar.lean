import SmtDialogue.Proofs.Folded
import SmtDialogue.Proofs.Results
import SmtDialogue.Proofs.Scanning

/-!
# Trees and the lexemes they are read from

What the reader accepts is a grammar: atoms, and parentheses around what is read in turn.
So every atom of a tree that was read is a lexeme of the text, or it is what an
application of the text was folded into.
-/

namespace SmtDialogue.SExpr

/-- The lexemes are read as these expressions, one after the other. -/
inductive Reads : List Lexeme → List SExpr → Prop where
  | nil : Reads [] []
  | atom {ls : List Lexeme} {es : List SExpr} {l : Lexeme} {a : Atom} (earlier : Reads ls es)
      (token : l.token = .atom a) : Reads (ls ++ [l]) (es ++ [.atom a])
  | app {ls inner : List Lexeme} {es items : List SExpr} {l r : Lexeme} (earlier : Reads ls es)
      (opening : l.token = .opening) (inside : Reads inner items)
      (closing : r.token = .closing) : Reads (ls ++ (l :: inner ++ [r])) (es ++ [fold items])

theorem Reads.append {ls ms : List Lexeme} {es fs : List SExpr} (first : Reads ls es)
    (second : Reads ms fs) : Reads (ls ++ ms) (es ++ fs) := by
  induction second with
  | nil => simpa using first
  | atom _ token ih =>
    rw [← List.append_assoc, ← List.append_assoc]
    exact .atom ih token
  | @app ms inner fs items l r _ opening inside closing ih _ =>
    rw [← List.append_assoc ls, ← List.append_assoc es]
    exact .app ih opening inside closing

/-- The lexemes open these applications and are read as the items these have so far. -/
inductive Opened : List Lexeme → Frames → Prop where
  | none : Opened [] []
  | inside {ls inner : List Lexeme} {frames : Frames} {l : Lexeme} {items : List SExpr}
      (outer : Opened ls frames) (opening : l.token = .opening)
      (reads : Reads inner items.reverse) : Opened (ls ++ l :: inner) (items :: frames)

/-- What is complete goes into the innermost open application, or out. -/
theorem Opened.place {ls ms : List Lexeme} {frames : Frames} (opened : Opened ls frames)
    {e : SExpr} (reads : Reads ms [e]) :
    (∀ inner, place e frames = .inside inner → Opened (ls ++ ms) inner) ∧
      ∀ f, SExpr.place e frames = .outside f → ls = [] ∧ f = e := by
  cases opened with
  | none =>
    constructor
    · rintro inner ⟨⟩
    · rintro f ⟨⟩
      exact ⟨rfl, rfl⟩
  | @inside ls inner frames l items outer opening earlier =>
    constructor
    · rintro frames ⟨⟩
      rw [List.append_assoc, List.cons_append]
      refine .inside outer opening ?_
      rw [List.reverse_cons]
      exact earlier.append reads
    · rintro f ⟨⟩

/-- One lexeme more: the open applications, or the expression that is complete. -/
theorem Opened.take {ls : List Lexeme} {frames : Frames} (opened : Opened ls frames)
    {l : Lexeme} {placed : Placed} (taken : take frames l = .ok placed) :
    (∀ inner, placed = .inside inner → Opened (ls ++ [l]) inner) ∧
      ∀ e, placed = .outside e → Reads (ls ++ [l]) [e] := by
  simp only [SExpr.take] at taken
  split at taken
  · next opening =>
    cases taken
    constructor
    · rintro inner ⟨⟩
      exact .inside opened opening .nil
    · rintro e ⟨⟩
  · next closing =>
    split at taken
    · cases taken
    · next items frames =>
      split at taken <;> cases taken
      cases opened with
      | @inside ls inner frames opener items outer opening reads =>
        have whole : Reads (opener :: inner ++ [l]) [fold items.reverse] :=
          .app .nil opening reads closing
        obtain ⟨inside, outside⟩ := outer.place whole
        rw [List.append_assoc]
        refine ⟨inside, fun e same => ?_⟩
        obtain ⟨rfl, rfl⟩ := outside e same
        exact whole
  · next a token =>
    cases taken
    have one : Reads [l] [.atom a] := .atom .nil token
    obtain ⟨inside, outside⟩ := opened.place one
    refine ⟨inside, fun e same => ?_⟩
    obtain ⟨rfl, rfl⟩ := outside e same
    exact one
  · cases taken

theorem Opened.readAllFrom {size : Nat} {ls ms : List Lexeme} {frames : Frames}
    (opened : Opened ls frames) {es : List SExpr}
    (read : readAllFrom size frames ms = .ok es) : Reads (ls ++ ms) es := by
  induction ms generalizing ls frames es with
  | nil =>
    rw [SExpr.readAllFrom] at read
    split at read
    · next closed =>
      cases read
      cases opened with
      | none => exact .nil
      | inside => cases closed
    · cases read
  | cons l ms ih =>
    rw [SExpr.readAllFrom] at read
    rw [← List.singleton_append, ← List.append_assoc]
    split at read
    · cases read
    · next inner taken => exact ih ((opened.take taken).1 inner rfl) read
    · next e taken =>
      obtain ⟨others, later, rfl⟩ := Except.map_eq_ok.mp read
      exact ((opened.take taken).2 e rfl).append (ih .none later)

/-- The lexemes of a text are read as what the reader returns. -/
theorem reads_of_parseAll {text : String} {es : List SExpr} (read : parseAll text = .ok es) :
    Reads (Lexeme.ofText text) es :=
  Opened.none.readAllFrom (Except.mapError_eq_ok.mp read)

/-- An application with these items is written among the lexemes. -/
inductive Written (items : List SExpr) : List Lexeme → Prop where
  | between {before inner after : List Lexeme} {l r : Lexeme} (opening : l.token = .opening)
      (reads : Reads inner items) (closing : r.token = .closing) :
      Written items (before ++ (l :: inner ++ [r]) ++ after)

theorem Written.within {items : List SExpr} {ls : List Lexeme} (written : Written items ls)
    (before after : List Lexeme) : Written items (before ++ ls ++ after) := by
  cases written with
  | @between first inner last l r opening reads closing =>
    have same : before ++ (first ++ (l :: inner ++ [r]) ++ last) ++ after =
        before ++ first ++ (l :: inner ++ [r]) ++ (last ++ after) := by simp
    rw [same]
    exact .between opening reads closing

/-- Where an atom comes from: it is a lexeme, or an application is folded into it. -/
inductive Origin (a : Atom) (ls : List Lexeme) : Prop where
  | lexeme {l : Lexeme} (among : l ∈ ls) (token : l.token = .atom a)
  | folded {items : List SExpr} (written : Written items ls) (folds : fold items = .atom a)

theorem Origin.within {a : Atom} {ls : List Lexeme} (origin : Origin a ls)
    (before after : List Lexeme) : Origin a (before ++ ls ++ after) := by
  cases origin with
  | lexeme among token => exact .lexeme (by simp [among]) token
  | folded written folds => exact .folded (written.within before after) folds

theorem Reads.origin {ls : List Lexeme} {es : List SExpr} (reads : Reads ls es) {a : Atom}
    (member : a ∈ atomsList es) : Origin a ls := by
  induction reads with
  | nil => cases member
  | @atom ls es l b earlier token ih =>
    obtain ⟨e, inside, atom⟩ := mem_atomsList.mp member
    rcases List.mem_append.mp inside with before | here
    · have origin := ih (mem_atomsList.mpr ⟨e, before, atom⟩)
      simpa using origin.within [] [l]
    · cases List.mem_singleton.mp here
      cases List.mem_singleton.mp atom
      exact .lexeme (by simp) token
  | @app ls inner es items l r earlier opening inside closing ih ihInside =>
    obtain ⟨e, among, atom⟩ := mem_atomsList.mp member
    rcases List.mem_append.mp among with before | here
    · have origin := ih (mem_atomsList.mpr ⟨e, before, atom⟩)
      simpa using origin.within [] (l :: inner ++ [r])
    · cases List.mem_singleton.mp here
      rcases fold_cases items with stays | ⟨b, folds, _⟩
      · rw [stays, atoms] at atom
        simpa using (ihInside atom).within (ls ++ [l]) [r]
      · rw [folds] at atom
        cases List.mem_singleton.mp atom
        have written : Written items (ls ++ (l :: inner ++ [r]) ++ []) :=
          .between opening inside closing
        exact .folded (by simpa using written) folds

end SmtDialogue.SExpr
