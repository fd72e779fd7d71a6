import SmtDialogue.Answer.Group
import SmtDialogue.Proofs.Offsets

/-!
# Groups are read as their lines

The characters of a line are followed in two ways: by the machine that cuts a text into
lexemes, and by the reach of a group, which only knows strings, quoted symbols and the
number of open parentheses. Both agree on these. So a group ends where no expression is
open, and the groups of an answer are read as its lines are.
-/

namespace SmtDialogue

open Lexeme (tokens cut passed step finish)

/-- What a token adds to the number of open parentheses. -/
def Token.weight : Option Token → Int
  | some .opening => 1
  | some .closing => -1
  | _ => 0

/-- What tokens add to the number of open parentheses. -/
def Token.weigh (ts : List (Option Token)) : Int :=
  (ts.map weight).sum

namespace Token

@[simp] theorem weigh_nil : weigh [] = 0 := rfl

@[simp] theorem weigh_cons (t : Option Token) (ts : List (Option Token)) :
    weigh (t :: ts) = weight t + weigh ts := by
  simp [weigh]

@[simp] theorem weigh_append (ts us : List (Option Token)) :
    weigh (ts ++ us) = weigh ts + weigh us := by
  simp [weigh]

@[simp] theorem weight_ofWord (start : Nat) (contents : List Char) :
    weight (Lexeme.ofWord start contents).token.sound? = 0 := by
  have radix : ∀ base bits digits,
      weight (radixToken base bits start contents.reverse digits).sound? = 0 := by
    intro base bits digits
    rw [radixToken]
    cases Numeral.readInt? base digits with
    | none => rfl
    | some i => cases widthOverflows bits digits <;> rfl
  unfold Lexeme.ofWord Token.ofWord
  dsimp only
  split
  · exact radix 2 1 _
  · exact radix 16 4 _
  · rfl
  · rfl

@[simp] theorem weight_ofString (start : Nat) (contents : List Char) :
    weight (Lexeme.ofString start contents).token.sound? = 0 := rfl

@[simp] theorem weight_ofQuotedSymbol (start : Nat) (contents : List Char) :
    weight (Lexeme.ofQuotedSymbol start contents).token.sound? = 0 := rfl

/-- The end of a text completes no parenthesis. -/
@[simp] theorem weigh_finish (mode : LexMode) : weigh (tokens (finish mode)) = 0 := by
  cases mode <;> simp [finish] <;> rfl

end Token

/-- Whether a word has begun. -/
def LexMode.isWord : LexMode → Bool
  | .word _ _ => true
  | _ => false

namespace SExpr

/-- The number of applications that are open around a placed expression. -/
def Placed.depth : Placed → Nat
  | .inside frames => frames.length
  | .outside _ => 0

theorem depth_place (e : SExpr) (frames : Frames) : (place e frames).depth = frames.length := by
  cases frames <;> rfl

theorem depth_of_take {frames : Frames} {t : Token} {p : Placed}
    (taken : take frames ⟨0, t⟩ = .ok p) :
    (p.depth : Int) = frames.length + Token.weight (some t) := by
  cases t with
  | opening =>
    cases taken
    simp [Placed.depth, Token.weight]
  | closing =>
    cases frames with
    | nil => cases taken
    | cons items outer =>
      obtain ⟨_, rfl⟩ := take_closing_eq_ok.mp taken
      simp [depth_place, Token.weight]
  | atom a =>
    cases taken
    simp [depth_place, Token.weight]
  | fault f => cases taken

/-- The applications that are open are the parentheses opened and not closed. -/
theorem length_of_reach {frames inner : Frames} {ts : List (Option Token)} {es : List SExpr}
    (reached : reach frames ts = some (es, inner)) :
    (inner.length : Int) = frames.length + Token.weigh ts := by
  induction ts generalizing frames es with
  | nil =>
    cases reached
    simp
  | cons t ts ih =>
    cases t with
    | none => cases reached
    | some t =>
      rw [reach] at reached
      cases taken : take frames ⟨0, t⟩ with
      | error f => simp [taken] at reached
      | ok p =>
        have depth := depth_of_take taken
        rw [taken] at reached
        rw [Token.weigh_cons, ← Int.add_assoc, ← depth]
        cases p with
        | inside frames => exact ih reached
        | outside e =>
          obtain ⟨⟨fs, last⟩, later, same⟩ := Option.map_eq_some_iff.mp reached
          cases same
          exact ih later

end SExpr

namespace Group

/-- What a mode of the machine has left open. -/
def Inside.ofMode : LexMode → Inside
  | .string _ _ _ => .string
  | .quotedSymbol _ _ => .quotedSymbol
  | _ => .nothing

/-- The reach of characters that leave the machine in a mode, behind these tokens. -/
def Reach.of (mode : LexMode) (ts : List (Option Token)) : Reach :=
  ⟨.ofMode mode, Token.weigh ts⟩

/-- No bar stands inside a word. -/
def Unbarred (mode : LexMode) (cs : List Char) : Prop :=
  ∀ before after, cs = before ++ '|' :: after → (mode.after before).isWord = false

theorem unbarred_nil (mode : LexMode) : Unbarred mode [] := by
  intro before after same
  simp at same

theorem unbarred_cons {mode : LexMode} {c : Char} {cs : List Char} :
    Unbarred mode (c :: cs) ↔
      (c = '|' → mode.isWord = false) ∧ Unbarred (step 0 mode c).2 cs := by
  constructor
  · intro unbarred
    refine ⟨?_, ?_⟩
    · rintro rfl
      exact unbarred [] cs rfl
    · rintro before after rfl
      exact unbarred (c :: before) after rfl
  · rintro ⟨head, tail⟩ before after same
    cases before with
    | nil =>
      obtain ⟨bar, _⟩ := List.cons_eq_cons.mp same
      exact head bar
    | cons d before =>
      rw [List.cons_append, List.cons_eq_cons] at same
      obtain ⟨rfl, same⟩ := same
      exact tail before after same

instance Unbarred.decidable : ∀ mode cs, Decidable (Unbarred mode cs)
  | mode, [] => isTrue (unbarred_nil mode)
  | mode, c :: cs =>
    have := Unbarred.decidable (step 0 mode c).2 cs
    decidable_of_iff _ unbarred_cons.symm

theorem Unbarred.tail {mode : LexMode} {c : Char} {cs : List Char}
    (unbarred : Unbarred mode (c :: cs)) : Unbarred (step 0 mode c).2 cs :=
  (unbarred_cons.mp unbarred).2

theorem Unbarred.newline {cs : List Char} (unbarred : Unbarred .blank cs) :
    Unbarred .blank ('\n' :: cs) :=
  unbarred_cons.mpr ⟨by simp, unbarred⟩

theorem Unbarred.append {mode : LexMode} {cs ds : List Char} (unbarred : Unbarred mode (cs ++ ds)) :
    Unbarred mode cs ∧ Unbarred (mode.after cs) ds := by
  refine ⟨?_, ?_⟩
  · rintro before after rfl
    exact unbarred before (after ++ ds) (by simp)
  · rintro before after rfl
    rw [← LexMode.after_append]
    exact unbarred (cs ++ before) after (by simp)

/-- The reach after a move of the machine: a comment is not followed any further. -/
def Reach.next (ts : List (Option Token)) (move : List Lexeme × LexMode) (cs : List Char) : Reach :=
  if move.2 = .comment then .of .comment (ts ++ tokens move.1)
  else (Reach.of move.2 (ts ++ tokens move.1)).follow cs

theorem follow_begin (ts : List (Option Token)) (c : Char) (cs : List Char) :
    (Reach.of .blank ts).follow (c :: cs) = .next ts (Lexeme.begin 0 c) cs := by
  rw [Lexeme.begin]
  split_ifs with blank comment opening closing quote bar
  · simp only [Text.isAsciiBlank, Bool.or_eq_true, decide_eq_true_eq] at blank
    rcases blank with (((rfl | rfl) | rfl) | rfl) | rfl <;>
      simp [Reach.next, Reach.of, Reach.follow, Inside.ofMode]
  all_goals
    simp_all [Reach.next, Reach.of, Reach.follow, Inside.ofMode, Token.sound?, Token.weight,
      sub_eq_add_neg]

/-- One character moves the reach as it moves the machine. -/
theorem follow_cons {mode : LexMode} {c : Char} {cs : List Char} (ts : List (Option Token))
    (unbarred : Unbarred mode (c :: cs)) (outside : mode ≠ .comment) :
    (Reach.of mode ts).follow (c :: cs) = .next ts (step 0 mode c) cs := by
  cases mode with
  | blank => exact follow_begin ts c cs
  | comment => exact absurd rfl outside
  | string start mark contents =>
    by_cases quote : c = '"' <;>
      simp [step, quote, Reach.next, Reach.of, Reach.follow, Inside.ofMode]
  | closingQuote start contents =>
    by_cases quote : c = '"'
    · simp [step, quote, Reach.next, Reach.of, Reach.follow, Inside.ofMode]
    · -- The string ends here, and the character begins something outside.
      have same : Reach.of (.closingQuote start contents) ts =
          .of .blank (ts ++ tokens [Lexeme.ofString start contents]) := by
        simp [Reach.of, Inside.ofMode]
      rw [same, follow_begin]
      simp [step, quote, Reach.next]
  | quotedSymbol start contents =>
    by_cases bar : c = '|' <;>
      simp [step, bar, Reach.next, Reach.of, Reach.follow, Inside.ofMode]
  | word start contents =>
    cases ends : Lexeme.endsWord c with
    | true =>
      have same : Reach.of (.word start contents) ts =
          .of .blank (ts ++ tokens [Lexeme.ofWord start contents]) := by
        simp [Reach.of, Inside.ofMode]
      rw [same, follow_begin]
      simp [step, ends, Reach.next]
    | false =>
      have bar : c ≠ '|' := by
        rintro rfl
        cases (unbarred_cons.mp unbarred).1 rfl
      simp only [Lexeme.endsWord, Bool.or_eq_false_iff, decide_eq_false_iff_not] at ends
      simp [step, Lexeme.endsWord, Reach.next, Reach.of, Reach.follow, Inside.ofMode, bar, ends]

/-- A comment goes on to the end of the line. -/
theorem after_comment {cs : List Char} (line : '\n' ∉ cs) :
    LexMode.comment.after cs = .comment ∧ passed .comment cs = [] := by
  induction cs with
  | nil => exact ⟨rfl, rfl⟩
  | cons c cs ih =>
    have first : c ≠ '\n' := fun same => line (same ▸ List.mem_cons_self)
    simp [passed, step, first, ih fun member => line (List.mem_cons_of_mem c member)]

/-- A line is followed as the machine reads it. -/
theorem follow_line {mode : LexMode} {cs : List Char} (line : '\n' ∉ cs)
    (unbarred : Unbarred mode cs) (outside : mode ≠ .comment) (ts : List (Option Token)) :
    (Reach.of mode ts).follow cs = .of (mode.after cs) (ts ++ passed mode cs) := by
  induction cs generalizing mode ts with
  | nil => simp [Reach.follow, passed]
  | cons c cs ih =>
    rw [follow_cons ts unbarred outside, Reach.next, passed, LexMode.after_cons]
    have rest : '\n' ∉ cs := fun member => line (List.mem_cons_of_mem c member)
    split
    · next comment =>
      obtain ⟨mode, none⟩ := after_comment rest
      rw [comment, mode, none, List.append_nil]
    · next goes => rw [ih rest unbarred.tail goes, List.append_assoc]

/-- The reach of a text that a group begins with. -/
def Reach.ofText (text : String) : Reach :=
  .of (LexMode.blank.after text.toList) (passed .blank text.toList)

/-- Lines behind a group that has begun. -/
def unread (lines : List String) : List Char :=
  lines.flatMap fun line => '\n' :: line.toList

/-- The mode in which a line begins behind a mode in which the line before it ended. -/
theorem after_newline (mode : LexMode) :
    (step 0 mode '\n').2 ≠ .comment ∧
      Inside.ofMode (step 0 mode '\n').2 = Inside.ofMode mode ∧
      Token.weigh (tokens (step 0 mode '\n').1) = 0 := by
  cases mode <;> simp [step, Lexeme.begin, Lexeme.endsWord, Text.isAsciiBlank, Inside.ofMode]

theorem step_newline {mode : LexMode} (outside : Inside.ofMode mode = .nothing) :
    (step 0 mode '\n').2 = .blank := by
  cases mode <;> simp_all [step, Lexeme.begin, Lexeme.endsWord, Text.isAsciiBlank, Inside.ofMode]

/-- A line end between two lines ends what it does not stand inside of. -/
theorem cut_newline {mode : LexMode} (outside : Inside.ofMode mode = .nothing) (cs : List Char) :
    cut mode ('\n' :: cs) = tokens (finish mode) ++ cut .blank cs := by
  cases mode <;> simp_all [Lexeme.cut_cons, step, Lexeme.begin, Lexeme.endsWord, finish,
    Text.isAsciiBlank, Inside.ofMode]

theorem cut_newline_blank (cs : List Char) : cut .blank ('\n' :: cs) = cut .blank cs :=
  cut_newline rfl cs

theorem cut_blanks_append {cs : List Char} (blank : ∀ c ∈ cs, Text.isAsciiBlank c = true)
    (rest : List Char) : cut .blank (cs ++ rest) = cut .blank rest := by
  induction cs with
  | nil => rfl
  | cons c cs ih =>
    obtain ⟨first, others⟩ := List.forall_mem_cons.mp blank
    simp [Lexeme.cut_cons, step, Lexeme.begin, first, ih others]

theorem cut_blanks {cs : List Char} (blank : ∀ c ∈ cs, Text.isAsciiBlank c = true) :
    cut .blank cs = [] := by
  simpa [Lexeme.cut_nil, finish] using cut_blanks_append blank []

theorem step_comment : step 0 .blank ';' = ([], .comment) := by
  simp [step, Lexeme.begin, Text.isAsciiBlank]

theorem cut_comment {cs : List Char} (line : '\n' ∉ cs) : cut .blank (';' :: cs) = [] := by
  obtain ⟨inside, nothing⟩ := after_comment line
  rw [Lexeme.cut_cons, step_comment, Lexeme.cut_eq, inside, nothing]
  rfl

@[simp] theorem unread_nil : unread [] = [] := rfl

@[simp] theorem unread_cons (line : String) (lines : List String) :
    unread (line :: lines) = '\n' :: (line.toList ++ unread lines) := rfl

theorem toList_joinLine (current line : String) :
    (joinLine current line).toList =
      if current.isEmpty then line.toList else current.toList ++ '\n' :: line.toList := by
  rw [joinLine]
  split <;> simp

/-- The line end that joins a line to nothing is not read. -/
theorem cut_joinLine (current line : String) (cs : List Char) :
    cut .blank ((joinLine current line).toList ++ cs) =
      cut .blank (current.toList ++ '\n' :: (line.toList ++ cs)) := by
  rw [toList_joinLine]
  split
  · next empty => simp [String.isEmpty_iff.mp empty, cut_newline_blank]
  · simp

theorem Unbarred.joinLine {current line : String} {cs : List Char}
    (unbarred : Unbarred .blank (current.toList ++ '\n' :: (line.toList ++ cs))) :
    Unbarred .blank ((joinLine current line).toList ++ cs) := by
  rw [toList_joinLine]
  split
  · next empty =>
    rw [String.isEmpty_iff.mp empty] at unbarred
    exact unbarred.tail
  · simpa using unbarred

/-- A line moves the reach of a group to that of the longer group. -/
theorem follow_joinLine {current line : String} (newline : '\n' ∉ line.toList)
    (unbarred : Unbarred .blank (joinLine current line).toList) :
    (Reach.ofText current).follow line.toList = Reach.ofText (joinLine current line) := by
  rw [Reach.ofText, Reach.ofText]
  rw [toList_joinLine] at unbarred ⊢
  split at unbarred
  · next empty =>
    rw [if_pos empty, String.isEmpty_iff.mp empty]
    exact follow_line newline unbarred (by simp) []
  · next begun =>
    rw [if_neg begun]
    obtain ⟨outside, inside, weight⟩ := after_newline (LexMode.blank.after current.toList)
    have ended : Reach.of (LexMode.blank.after current.toList) (passed .blank current.toList) =
        .of (step 0 (LexMode.blank.after current.toList) '\n').2
          (passed .blank current.toList ++
            tokens (step 0 (LexMode.blank.after current.toList) '\n').1) := by
      simp [Reach.of, inside, weight]
    rw [ended, follow_line newline unbarred.append.2.tail outside, LexMode.after_append,
      LexMode.after_cons, Lexeme.passed_append, passed, List.append_assoc]

/-- Where nothing is open, what follows is cut as a text of its own. -/
theorem cut_unread {text : String} (outside : (Reach.ofText text).inside = .nothing)
    (lines : List String) :
    cut .blank (text.toList ++ unread lines) =
      cut .blank text.toList ++ cut .blank (unread lines) := by
  cases lines with
  | nil => simp [Lexeme.cut_nil, finish]
  | cons line lines =>
    rw [unread_cons, Lexeme.cut_append, cut_newline outside, cut_newline_blank,
      Lexeme.cut_eq .blank text.toList, List.append_assoc]

theorem Reach.isClosed_iff {r : Reach} : r.isClosed = true ↔ r.depth ≤ 0 ∧ r.inside = .nothing := by
  simp [Reach.isClosed]

theorem Unbarred.unread {mode : LexMode} {lines : List String}
    (unbarred : Unbarred mode (unread lines)) (outside : Inside.ofMode mode = .nothing) :
    Unbarred .blank (Group.unread lines) := by
  cases lines with
  | nil => exact unbarred_nil .blank
  | cons line lines =>
    rw [unread_cons] at unbarred ⊢
    have tail := unbarred.tail
    rw [step_newline outside] at tail
    exact tail.newline

/-- A group that can end here leaves no application open, or is not read at all. -/
theorem reach_isClosed {text : String} (closed : (Reach.ofText text).isClosed = true)
    {es : List SExpr} {frames : SExpr.Frames}
    (reached : SExpr.reach [] (cut .blank text.toList) = some (es, frames)) : frames = [] := by
  have length := SExpr.length_of_reach reached
  rw [Lexeme.cut_eq, Token.weigh_append, Token.weigh_finish] at length
  have depth : Token.weigh (passed .blank text.toList) ≤ 0 := (Reach.isClosed_iff.mp closed).1
  have none : frames.length = 0 := by
    simp only [List.length_nil] at length
    omega
  exact List.length_eq_zero_iff.mp none

/-- What groups are read as, one after the other. -/
def readGroups (groups : List String) : Except ReadError (List SExpr) :=
  List.flatten <$> groups.mapM SExpr.parseAll

theorem readGroups_append {gs hs : List String} {es : List SExpr} :
    readGroups (gs ++ hs) = .ok es ↔
      ∃ first second, readGroups gs = .ok first ∧ readGroups hs = .ok second ∧
        first ++ second = es := by
  rw [readGroups, readGroups, readGroups, List.mapM_append]
  cases gs.mapM SExpr.parseAll with
  | error e => simp [bind, Except.bind, Functor.map, Except.map]
  | ok parts =>
    cases hs.mapM SExpr.parseAll <;>
      simp [bind, Except.bind, pure, Except.pure, Functor.map, Except.map]

/-- A text is read as the group that it is, and blanks as none. -/
theorem readGroups_ofText {text : String} (blank : ∀ c ∈ text.toList, Text.isBlank c = true →
    Text.isAsciiBlank c = true) {es : List SExpr} :
    readGroups (ofText text) = .ok es ↔
      SExpr.reach [] (cut .blank text.toList) = some (es, []) := by
  rw [ofText]
  split
  · next all =>
    have blanks : cut .blank text.toList = [] :=
      cut_blanks fun c member => blank c member (List.all_eq_true.mp all c member)
    simp [readGroups, blanks, SExpr.reach, pure, Except.pure, Functor.map, Except.map]
  · have one : readGroups [text] = SExpr.parseAll text := by
      simp only [readGroups, List.mapM_cons, List.mapM_nil]
      cases SExpr.parseAll text with
      | error e => rfl
      | ok es => exact congrArg Except.ok (by simp)
    rw [one, SExpr.parseAll_eq_ok]

/-- Behind a group that has begun, the groups are read as the text that is left. -/
theorem readGroups_fromLines {current : String} {lines : List String}
    (newline : ∀ line ∈ lines, '\n' ∉ line.toList)
    (blank : ∀ c ∈ current.toList ++ unread lines, Text.isBlank c = true →
      Text.isAsciiBlank c = true)
    (unbarred : Unbarred .blank (current.toList ++ unread lines)) {es : List SExpr} :
    readGroups (fromLines (.ofText current) current lines) = .ok es ↔
      SExpr.reach [] (cut .blank (current.toList ++ unread lines)) = some (es, []) := by
  -- The reach is always that of the text so far, so a line either ends the group, and the
  -- next one begins with the empty text, or makes the text longer.
  induction lines generalizing current es with
  | nil =>
    rw [unread_nil, List.append_nil] at blank ⊢
    exact readGroups_ofText blank
  | cons line lines ih =>
    obtain ⟨first, rest⟩ := List.forall_mem_cons.mp newline
    rw [unread_cons] at unbarred blank ⊢
    have joined := unbarred.joinLine
    have blanks : ∀ c ∈ (joinLine current line).toList ++ unread lines, Text.isBlank c = true →
        Text.isAsciiBlank c = true := by
      intro c member
      apply blank
      rw [toList_joinLine] at member
      split at member <;> simp_all
    simp only [fromLines, follow_joinLine first joined.append.1]
    rw [← cut_joinLine]
    split
    · next closed =>
      have outside := (Reach.isClosed_iff.mp closed).2
      have this : ∀ {es}, readGroups (ofText (joinLine current line)) = .ok es ↔ _ :=
        readGroups_ofText fun c member => blanks c (List.mem_append_left _ member)
      have others : ∀ {es}, readGroups (fromLines .start "" lines) = .ok es ↔
          SExpr.reach [] (cut .blank (unread lines)) = some (es, []) :=
        @ih "" rest (fun c member => blanks c (List.mem_append_right _ member))
          (joined.append.2.unread outside)
      rw [readGroups_append, cut_unread outside, SExpr.reach_append, Option.bind_eq_some_iff]
      constructor
      · rintro ⟨front, back, read, later, rfl⟩
        exact ⟨(front, []), this.mp read, by simp [others.mp later]⟩
      · rintro ⟨⟨front, frames⟩, read, later⟩
        obtain rfl := reach_isClosed closed read
        obtain ⟨⟨back, last⟩, more, same⟩ := Option.map_eq_some_iff.mp later
        cases same
        exact ⟨front, back, this.mpr read, others.mpr more, rfl⟩
    · exact ih rest blanks joined

/-- Lines for which a group ends where the machine has nothing begun: each is one line,
blanks are those that end a word, and no bar stands inside a word. -/
structure Regular (lines : List String) : Prop where
  newline : ∀ line ∈ lines, '\n' ∉ line.toList
  blank : ∀ line ∈ lines, ∀ c ∈ line.toList, Text.isBlank c = true →
    c = ' ' ∨ c = '\t' ∨ c = '\r' ∨ c = '\x0c'
  unbarred : Unbarred .blank (String.intercalate "\n" lines).toList

theorem unread_eq {lines : List String} (some : lines ≠ []) :
    unread lines = '\n' :: (String.intercalate "\n" lines).toList := by
  rw [String.toList_intercalate]
  cases lines with
  | nil => exact absurd rfl some
  | cons line lines =>
    clear some
    induction lines generalizing line with
    | nil => simp
    | cons next lines ih =>
      rw [unread_cons, ih next]
      simp [List.intercalate]

/-- The lines of an answer are read as its groups, one after the other. -/
theorem parseAll_lines {lines : List String} (regular : Regular lines) (es : List SExpr) :
    SExpr.parseAll (String.intercalate "\n" lines) = .ok es ↔
      ∃ parts, (ofLines lines).mapM SExpr.parseAll = .ok parts ∧ es = parts.flatten := by
  have groups : readGroups (ofLines lines) = .ok es ↔
      ∃ parts, (ofLines lines).mapM SExpr.parseAll = .ok parts ∧ es = parts.flatten := by
    refine Except.map_eq_ok.trans (exists_congr fun parts => and_congr_right fun _ => eq_comm)
  rw [← groups, SExpr.parseAll_eq_ok]
  by_cases none : lines = []
  · subst none
    simp [readGroups, ofLines, fromLines, ofText, Text.isBlankText, Lexeme.cut_nil, finish,
      SExpr.reach, pure, Except.pure, Functor.map, Except.map]
  · have text := unread_eq none
    have blank : ∀ c ∈ unread lines, Text.isBlank c = true → Text.isAsciiBlank c = true := by
      intro c member blank
      obtain ⟨line, inside, member⟩ := List.mem_flatMap.mp member
      rcases List.mem_cons.mp member with rfl | member
      · rfl
      · rcases regular.blank line inside c member blank with rfl | rfl | rfl | rfl <;> rfl
    have unbarred : Unbarred .blank (unread lines) := text ▸ regular.unbarred.newline
    rw [← cut_newline_blank, ← text]
    exact (@readGroups_fromLines "" lines regular.newline blank unbarred es).symm

/-- A string, a quoted symbol and a comment that hold what begins and ends others. -/
def tangled : List String :=
  ["(a \"x;", "\"\"|) y\" |q(", "\"z| ; \" (", "b)", "", " \t", "c (d", ")"]

theorem regular_tangled : Regular tangled where
  newline := by simp [tangled]
  blank := by simp [tangled, Text.isBlank]
  unbarred := by decide +kernel

/-- The eight lines are two groups, and these are read as the three expressions of the lines. -/
theorem parseAll_lines_tangled :
    ofLines tangled = ["(a \"x;\n\"\"|) y\" |q(\n\"z| ; \" (\nb)", "c (d\n)"] ∧
      ∃ parts, (ofLines tangled).mapM SExpr.parseAll = .ok parts ∧
        [.app [.atom (.symbol "a"), .atom (.string "x;\n\"|) y"), .atom (.symbol "q(\n\"z"),
          .atom (.symbol "b")], .atom (.symbol "c"), .app [.atom (.symbol "d")]] = parts.flatten :=
  ⟨by decide +kernel, (parseAll_lines regular_tangled _).mp (by decide +kernel)⟩

end Group

end SmtDialogue
