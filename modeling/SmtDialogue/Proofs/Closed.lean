import SmtDialogue.Proofs.Folded
import SmtDialogue.Proofs.LineByLine

/-!
# Lines that leave nothing open

What follows such lines is grouped as an answer of its own. Lines that are read as
expressions are of this kind when no bar stands inside a word. A group takes such a bar for
the beginning of a quoted symbol and goes on, although the reader has the whole expression.
-/

namespace SmtDialogue

/-- A text that is read as one expression holds that one. -/
theorem SExpr.parseAll_of_parse {text : String} {e : SExpr} (read : parse text = .ok e) :
    parseAll text = .ok [e] := by
  have all : ∀ (size : Nat) (frames : Frames) (ls : List Lexeme),
      readOneFrom size frames ls = .ok (e, []) → readAllFrom size frames ls = .ok [e] := by
    intro size frames ls one
    induction ls generalizing frames with
    | nil => cases one
    | cons l ls ih =>
      rw [readOneFrom] at one
      rw [readAllFrom]
      cases taken : take frames l with
      | error f => simp [taken] at one
      | ok p =>
        rw [taken] at one
        cases p with
        | inside frames => exact ih frames one
        | outside f =>
          cases one
          rfl
  rw [parseAll, all _ _ _ (parse_eq_ok.mp read)]
  rfl

namespace SExpr

/-- What goes inside an application leaves that one open. -/
theorem ne_nil_of_take {frames inner : Frames} {l : Lexeme}
    (taken : take frames l = .ok (.inside inner)) : inner ≠ [] := by
  obtain ⟨start, token⟩ := l
  rintro rfl
  cases token with
  | opening => cases taken
  | closing =>
    cases frames with
    | nil => cases taken
    | cons items outer =>
      obtain ⟨-, placed⟩ := take_closing_eq_ok.mp taken
      cases outer <;> cases placed
  | atom a => cases frames <;> cases taken
  | fault f => cases taken

/-- Nothing is read from nothing only. -/
theorem eq_nil_of_readAllFrom {size : Nat} {frames : Frames} {ls : List Lexeme}
    (read : readAllFrom size frames ls = .ok []) : frames = [] ∧ ls = [] := by
  induction ls generalizing frames with
  | nil => cases frames <;> simp_all [readAllFrom]
  | cons l ls ih =>
    rw [readAllFrom] at read
    cases taken : take frames l with
    | error f => simp [taken] at read
    | ok p =>
      rw [taken] at read
      cases p with
      | inside inner => exact absurd (ih read).1 (ne_nil_of_take taken)
      | outside f =>
        obtain ⟨es, _, same⟩ := Except.map_eq_ok.mp read
        cases same

/-- A text that holds one expression is read as that one. -/
theorem parse_of_parseAll {text : String} {e : SExpr} (read : parseAll text = .ok [e]) :
    parse text = .ok e := by
  have one : ∀ (size : Nat) (frames : Frames) (ls : List Lexeme),
      readAllFrom size frames ls = .ok [e] → readOneFrom size frames ls = .ok (e, []) := by
    intro size frames ls all
    induction ls generalizing frames with
    | nil => cases frames <;> simp [readAllFrom] at all
    | cons l ls ih =>
      rw [readAllFrom] at all
      rw [readOneFrom]
      cases taken : take frames l with
      | error f => simp [taken] at all
      | ok p =>
        rw [taken] at all
        cases p with
        | inside frames => exact ih frames all
        | outside f =>
          obtain ⟨es, rest, same⟩ := Except.map_eq_ok.mp all
          cases same
          obtain ⟨_, rfl⟩ := eq_nil_of_readAllFrom rest
          rfl
  exact parse_eq_ok.mpr (one _ _ _ (Except.mapError_eq_ok.mp read))

/-- A text is read as one expression when its tokens make that one. -/
theorem parse_eq_ok_iff_reach {text : String} {e : SExpr} :
    parse text = .ok e ↔ reach [] (Lexeme.cut .blank text.toList) = some ([e], []) := by
  rw [← parseAll_eq_ok]
  exact ⟨parseAll_of_parse, parse_of_parseAll⟩

end SExpr

namespace Group

/-- What is open behind some lines; behind a line where a group can end it is nothing. -/
def behind (r : Reach) : List String → Reach
  | [] => r
  | line :: rest =>
    behind (if (r.follow line.toList).isClosed then .start else r.follow line.toList) rest

/-- Lines that end where no expression is open. -/
def Closed (lines : List String) : Prop :=
  behind .start lines = .start

instance (lines : List String) : Decidable (Closed lines) :=
  inferInstanceAs (Decidable (behind .start lines = .start))

theorem fromLines_append {r : Reach} {current : String} {lines : List String}
    (fresh : r = .start → current = "") (ended : behind r lines = .start)
    (rest : List String) :
    fromLines r current (lines ++ rest) = fromLines r current lines ++ ofLines rest := by
  induction lines generalizing r current with
  | nil =>
    obtain rfl := fresh ended
    obtain rfl : r = .start := ended
    have nothing : ofText "" = [] := by simp [ofText, Text.isBlankText]
    rw [List.nil_append, fromLines, nothing, List.nil_append, ofLines]
  | cons line lines ih =>
    rw [behind] at ended
    simp only [List.cons_append, fromLines]
    split
    · next closed =>
      rw [if_pos closed] at ended
      rw [ih (fun _ => rfl) ended, List.append_assoc]
    · next opened =>
      rw [if_neg opened] at ended
      refine ih (fun start => ?_) ended
      rw [start] at opened
      exact absurd rfl opened

theorem ofLines_append {lines : List String} (closed : Closed lines) (rest : List String) :
    ofLines (lines ++ rest) = ofLines lines ++ ofLines rest :=
  fromLines_append (fun _ => rfl) closed rest

theorem ofLines_flatten {blocks : List (List String)} (closed : ∀ block ∈ blocks, Closed block)
    (rest : List String) :
    ofLines (blocks.flatten ++ rest) = blocks.flatMap ofLines ++ ofLines rest := by
  induction blocks with
  | nil => rfl
  | cons block blocks ih =>
    obtain ⟨first, others⟩ := List.forall_mem_cons.mp closed
    rw [List.flatten_cons, List.append_assoc, ofLines_append first, ih others,
      List.flatMap_cons, List.append_assoc]

/-- In another order, closed lines make the same groups. -/
theorem perm_ofLines {blocks others : List (List String)}
    (closed : ∀ block ∈ blocks, Closed block) (perm : blocks.Perm others) (rest : List String) :
    (ofLines (blocks.flatten ++ rest)).Perm (ofLines (others.flatten ++ rest)) := by
  rw [ofLines_flatten closed, ofLines_flatten fun block member =>
    closed block (perm.mem_iff.mpr member)]
  exact (perm.flatMap_right _).append_right _

/-- A text that is read has nothing open at its end. -/
theorem Reach.ofText_of_reach {text : String} {es : List SExpr}
    (read : SExpr.reach [] (Lexeme.cut .blank text.toList) = some (es, [])) :
    Reach.ofText text = .start := by
  have length := SExpr.length_of_reach read
  have sound := SExpr.none_notMem_of_reach read
  rw [Lexeme.cut_eq, Token.weigh_append, Token.weigh_finish] at length
  rw [Lexeme.cut_eq, List.mem_append, not_or] at sound
  have depth : Token.weigh (Lexeme.passed .blank text.toList) = 0 := by simpa using length.symm
  rw [ofText, Reach.of, depth, ofMode_eq_nothing sound.2, start]

theorem behind_ofText {current : String} {lines : List String} {es : List SExpr}
    (newline : ∀ line ∈ lines, '\n' ∉ line.toList)
    (unbarred : Unbarred .blank (current.toList ++ unread lines))
    (read : SExpr.reach [] (Lexeme.cut .blank (current.toList ++ unread lines)) = some (es, [])) :
    behind (.ofText current) lines = .start := by
  -- As for the groups, the reach is always that of the text since the last end of one.
  induction lines generalizing current es with
  | nil =>
    rw [unread_nil, List.append_nil] at read
    exact Reach.ofText_of_reach read
  | cons line lines ih =>
    obtain ⟨first, rest⟩ := List.forall_mem_cons.mp newline
    rw [unread_cons] at unbarred read
    have joined := unbarred.joinLine
    rw [← cut_joinLine] at read
    rw [behind, follow_joinLine first joined.append.1]
    split
    · next closed =>
      have outside := (Reach.isClosed_iff.mp closed).2
      rw [cut_unread outside, SExpr.reach_append, Option.bind_eq_some_iff] at read
      obtain ⟨⟨front, frames⟩, read, later⟩ := read
      obtain rfl := reach_isClosed closed read
      obtain ⟨⟨back, last⟩, more, same⟩ := Option.map_eq_some_iff.mp later
      cases same
      exact @ih "" back rest (joined.append.2.unread outside) more
    · exact ih rest joined read

/-- Lines that are read as expressions, with no bar inside a word. -/
structure Whole (lines : List String) : Prop where
  newline : ∀ line ∈ lines, '\n' ∉ line.toList
  unbarred : Unbarred .blank (String.intercalate "\n" lines).toList
  read : (SExpr.parseAll (String.intercalate "\n" lines)).isOk = true

instance (lines : List String) : Decidable (Whole lines) :=
  decidable_of_iff ((∀ line ∈ lines, '\n' ∉ line.toList) ∧
      Unbarred .blank (String.intercalate "\n" lines).toList ∧
      (SExpr.parseAll (String.intercalate "\n" lines)).isOk = true)
    ⟨fun ⟨newline, unbarred, read⟩ => ⟨newline, unbarred, read⟩,
      fun ⟨newline, unbarred, read⟩ => ⟨newline, unbarred, read⟩⟩

/-- Such lines leave nothing open. -/
theorem Whole.closed {lines : List String} (whole : Whole lines) : Closed lines := by
  obtain ⟨newline, unbarred, read⟩ := whole
  cases all : SExpr.parseAll (String.intercalate "\n" lines) with
  | error e =>
    rw [all] at read
    cases read
  | ok es =>
    by_cases none : lines = []
    · rw [none]
      rfl
    · have text := unread_eq none
      rw [SExpr.parseAll_eq_ok, ← cut_newline_blank, ← text] at all
      exact @behind_ofText "" lines es newline (text ▸ unbarred.newline) all

/-- The bar is a character of a word for the reader, but leaves a quoted symbol open. -/
example : (SExpr.parse "((s0|x 1))").isOk = true ∧ ¬Closed ["((s0|x 1))"] := by
  decide +kernel

end Group

end SmtDialogue
