import SmtDialogue.Answer.Group
import SmtDialogue.Proofs.Escapes
import SmtDialogue.Proofs.Scanning

/-!
# Spellings

A spelling is a text that is known to be one expression: a word together with the
atom it reads as, a string, a quoted symbol, or a list of spellings with single
blanks between them. Its lexemes and its tree are computed from it, so what the
reader makes of a text is settled by giving its spelling, and the text may stand
inside any other one. A spelling also leaves no parenthesis, string or quoted
symbol open.
-/

namespace SmtDialogue

inductive Spelling where
  /-- A word and the atom it reads as. -/
  | word (cs : List Char) (a : Atom)
  /-- A string, as it stands between the quotes before these are doubled. -/
  | string (contents : List Char)
  /-- A symbol between bars. -/
  | quoted (name : List Char)
  | list (items : List Spelling)

namespace Spelling

mutual

def chars : Spelling → List Char
  | .word cs _ => cs
  | .string contents => '"' :: Literal.doubled contents ++ ['"']
  | .quoted name => '|' :: name ++ ['|']
  | .list items => '(' :: charsList items ++ [')']

/-- Several spellings with single blanks between them. -/
def charsList : List Spelling → List Char
  | [] => []
  | [s] => s.chars
  | s :: t :: rest => s.chars ++ ' ' :: charsList (t :: rest)

end

mutual

/-- The tree that a spelling reads as. -/
def tree : Spelling → SExpr
  | .word _ a => .atom a
  | .string contents => .atom (.string (String.ofList (Escape.decode contents)))
  | .quoted name => .atom (.symbol (String.ofList name))
  | .list items => SExpr.fold (treeList items)

def treeList : List Spelling → List SExpr
  | [] => []
  | s :: rest => s.tree :: treeList rest

end

mutual

def tokens : Spelling → List Token
  | .word _ a => [.atom a]
  | .string contents => [.atom (.string (String.ofList (Escape.decode contents)))]
  | .quoted name => [.atom (.symbol (String.ofList name))]
  | .list items => .opening :: tokensList items ++ [.closing]

def tokensList : List Spelling → List Token
  | [] => []
  | s :: rest => s.tokens ++ tokensList rest

end

/-- Characters that make one word, wherever it stands. -/
def IsWord (cs : List Char) : Prop :=
  cs ≠ [] ∧ ∀ c ∈ cs, Lexeme.endsWord c = false ∧ c ≠ '|'

mutual

/-- Words are single words that read as said, quoted symbols hold no bar, and folding a list does
not overflow. -/
def Proper : Spelling → Prop
  | .word cs a => IsWord cs ∧ ∀ start, Token.ofWord start cs = .atom a
  | .string _ => True
  | .quoted name => '|' ∉ name
  | .list items => SExpr.foldOverflows (treeList items) = false ∧ ProperList items

def ProperList : List Spelling → Prop
  | [] => True
  | s :: rest => s.Proper ∧ ProperList rest

end

theorem properList_iff {items : List Spelling} :
    ProperList items ↔ ∀ s ∈ items, s.Proper := by
  induction items with
  | nil => simp [ProperList]
  | cons s rest ih => simp [ProperList, ih]

theorem treeList_eq_map (items : List Spelling) : treeList items = items.map tree := by
  induction items with
  | nil => rfl
  | cons s rest ih => rw [treeList, ih, List.map_cons]

theorem charsList_eq_intercalate (items : List Spelling) :
    charsList items = List.intercalate [' '] (items.map chars) := by
  induction items with
  | nil => rfl
  | cons s rest ih =>
    cases rest with
    | nil => simp [charsList]
    | cons t others => simp [charsList, ih]

/-- A text that ends a word or a string before it. -/
def Ends (rest : List Char) : Prop :=
  ∀ c ∈ rest.head?, Lexeme.endsWord c = true ∧ c ≠ '"'

theorem ends_nil : Ends [] := by
  simp [Ends]

theorem ends_blank (rest : List Char) : Ends (' ' :: rest) := by
  simp [Ends, Lexeme.endsWord, Text.isAsciiBlank]

theorem ends_closing (rest : List Char) : Ends (')' :: rest) := by
  simp [Ends, Lexeme.endsWord]

/-- The text is scanned into lexemes with these tokens before what follows it. -/
def Scans (cs rest : List Char) (ts : List Token) : Prop :=
  ∀ offset, ∃ ls stop, ls.map Lexeme.token = ts ∧
    Lexeme.scan offset .blank (cs ++ rest) = ls ++ Lexeme.scan stop .blank rest

theorem Scans.append {cs ds rest : List Char} {ts us : List Token}
    (first : Scans cs (ds ++ rest) ts) (second : Scans ds rest us) :
    Scans (cs ++ ds) rest (ts ++ us) := by
  intro offset
  obtain ⟨ls, middle, hls, scanned⟩ := first offset
  obtain ⟨ms, stop, hms, scanned'⟩ := second middle
  refine ⟨ls ++ ms, stop, by rw [List.map_append, hls, hms], ?_⟩
  rw [List.append_assoc, scanned, scanned', List.append_assoc]

theorem scans_blank (rest : List Char) : Scans [' '] rest [] := by
  intro offset
  exact ⟨[], _, rfl, rfl⟩

theorem scans_opening (rest : List Char) : Scans ['('] rest [.opening] := by
  intro offset
  exact ⟨[⟨offset, .opening⟩], _, rfl, rfl⟩

theorem scans_closing (rest : List Char) : Scans [')'] rest [.closing] := by
  intro offset
  exact ⟨[⟨offset, .closing⟩], _, rfl, rfl⟩

theorem takeWhile_of_ends {cs rest : List Char} (inside : ∀ c ∈ cs, Lexeme.endsWord c = false)
    (ends : Ends rest) : (cs ++ rest).takeWhile (!Lexeme.endsWord ·) = cs := by
  rw [List.takeWhile_append_of_pos fun c member => by simp [inside c member]]
  cases rest with
  | nil => simp
  | cons c rest => simp [(ends c rfl).1]

theorem dropWhile_of_ends {cs rest : List Char} (inside : ∀ c ∈ cs, Lexeme.endsWord c = false)
    (ends : Ends rest) : (cs ++ rest).dropWhile (!Lexeme.endsWord ·) = rest := by
  rw [List.dropWhile_append_of_pos fun c member => by simp [inside c member]]
  cases rest with
  | nil => rfl
  | cons c rest => simp [(ends c rfl).1]

/-- Characters that begin a word and go on with it. -/
structure Unquoted (cs : List Char) : Prop where
  nonempty : cs ≠ []
  bar : cs.head? ≠ some '|'
  inside : ∀ c ∈ cs, Lexeme.endsWord c = false

theorem IsWord.unquoted {cs : List Char} (word : IsWord cs) : Unquoted cs where
  nonempty := word.1
  bar first := (word.2 '|' (List.mem_of_mem_head? first)).2 rfl
  inside c hc := (word.2 c hc).1

theorem scans_word {cs : List Char} {a : Atom} (word : Unquoted cs)
    (reads : ∀ start, Token.ofWord start cs = .atom a) {rest : List Char} (ends : Ends rest) :
    Scans cs rest [.atom a] := by
  intro offset
  have taken := takeWhile_of_ends word.inside ends
  have left := dropWhile_of_ends word.inside ends
  obtain ⟨c, others, rfl⟩ := List.exists_cons_of_ne_nil word.nonempty
  have begins : Lexeme.endsWord c = false := word.inside c List.mem_cons_self
  have bar : c ≠ '|' := fun same => word.bar (congrArg some same)
  have scanned := Lexeme.scan_wordStart begins bar offset (others ++ rest)
  rw [← List.cons_append, taken, left, reads] at scanned
  exact ⟨[⟨offset, .atom a⟩], _, rfl, scanned⟩

/-- A string that has begun goes on to the quote that closes it. -/
theorem scan_string (contents : List Char) {rest : List Char} (ends : Ends rest)
    (offset start mark : Nat) (begun : List Char) :
    ∃ stop, Lexeme.scan offset (.string start mark begun)
        (Literal.doubled contents ++ '"' :: rest) =
      Lexeme.ofString start (contents.reverse ++ begun) :: Lexeme.scan stop .blank rest := by
  induction contents generalizing offset mark begun with
  | nil =>
    cases rest with
    | nil => exact ⟨0, rfl⟩
    | cons c rest =>
      have quote := (ends c rfl).2
      exact ⟨offset + 1, by simp [Literal.doubled, Lexeme.scan, Lexeme.step, quote]; rfl⟩
  | cons c contents ih =>
    by_cases quote : c = '"'
    · subst quote
      obtain ⟨stop, scanned⟩ := ih (offset + '"'.utf8Size + '"'.utf8Size)
        (offset + '"'.utf8Size + 1) ('"' :: begun)
      exact ⟨stop, by simpa [Literal.doubled, Lexeme.scan, Lexeme.step] using scanned⟩
    · obtain ⟨stop, scanned⟩ := ih (offset + c.utf8Size) mark (c :: begun)
      exact ⟨stop, by simpa [Literal.doubled, Lexeme.scan, Lexeme.step, quote] using scanned⟩

theorem scans_string (contents : List Char) {rest : List Char} (ends : Ends rest) :
    Scans ('"' :: Literal.doubled contents ++ ['"']) rest
      [.atom (.string (String.ofList (Escape.decode contents)))] := by
  intro offset
  obtain ⟨stop, scanned⟩ := scan_string contents ends (offset + '"'.utf8Size) offset (offset + 1) []
  refine ⟨[Lexeme.ofString offset contents.reverse], stop, by simp [Lexeme.ofString], ?_⟩
  simpa [Lexeme.scan, Lexeme.step, Lexeme.begin, Lexeme.endsWord, Text.isAsciiBlank] using scanned

theorem scans_quoted {name : List Char} (bar : '|' ∉ name) (rest : List Char) :
    Scans ('|' :: name ++ ['|']) rest [.atom (.symbol (String.ofList name))] := by
  intro offset
  have begun : Lexeme.scan offset .blank ('|' :: name ++ ['|'] ++ rest) =
      Lexeme.scan (offset + '|'.utf8Size) (.quotedSymbol offset []) (name ++ '|' :: rest) := by
    simp [Lexeme.scan, Lexeme.step, Lexeme.begin, Text.isAsciiBlank]
  have scanned := Lexeme.scan_quotedSymbol bar (offset + '|'.utf8Size) offset [] rest
  exact ⟨[Lexeme.ofQuotedSymbol offset (name.reverse ++ [])], _, by simp [Lexeme.ofQuotedSymbol],
    begun.trans scanned⟩

mutual

theorem scans : ∀ (s : Spelling), s.Proper → ∀ {rest : List Char}, Ends rest →
    Scans s.chars rest s.tokens
  | .word _ _, proper, _, ends => scans_word proper.1.unquoted proper.2 ends
  | .string contents, _, _, ends => scans_string contents ends
  | .quoted _, proper, rest, _ => scans_quoted proper rest
  | .list items, proper, rest, _ => by
    have inside := scansList items proper.2 (ends_closing rest)
    exact ((scans_opening _).append inside).append (scans_closing rest)

theorem scansList : ∀ (items : List Spelling), ProperList items → ∀ {rest : List Char},
    Ends rest → Scans (charsList items) rest (tokensList items)
  | [], _, _, _ => fun offset => ⟨[], offset, rfl, rfl⟩
  | [s], proper, _, ends => by
    simpa [charsList, tokensList] using scans s proper.1 ends
  | s :: t :: others, proper, rest, ends => by
    have first := scans s proper.1 (ends_blank (charsList (t :: others) ++ rest))
    have others := scansList (t :: others) proper.2 ends
    exact first.append ((scans_blank _).append others)

end

end Spelling

namespace SExpr

/-- Lexemes that are taken without a fault and complete no expression before the
last one. -/
inductive Feeds : Frames → List Lexeme → Placed → Prop where
  | nil (frames : Frames) : Feeds frames [] (.inside frames)
  | inside {frames inner : Frames} {lexeme : Lexeme} {ls : List Lexeme} {p : Placed}
      (taken : take frames lexeme = .ok (.inside inner)) (rest : Feeds inner ls p) :
      Feeds frames (lexeme :: ls) p
  | outside {frames : Frames} {lexeme : Lexeme} {e : SExpr}
      (taken : take frames lexeme = .ok (.outside e)) : Feeds frames [lexeme] (.outside e)

theorem Feeds.append {frames inner : Frames} {ls ms : List Lexeme} {p : Placed}
    (first : Feeds frames ls (.inside inner)) (second : Feeds inner ms p) :
    Feeds frames (ls ++ ms) p := by
  generalize state : Placed.inside inner = q at first
  induction first with
  | nil frames =>
    cases state
    exact second
  | inside taken _ ih => exact .inside taken (ih state)
  | outside _ => cases state

theorem Feeds.of_take {frames : Frames} {lexeme : Lexeme} {p : Placed}
    (taken : take frames lexeme = .ok p) : Feeds frames [lexeme] p := by
  cases p with
  | inside inner => exact .inside taken (.nil inner)
  | outside e => exact .outside taken

theorem readOneFrom_of_outside {frames : Frames} {ls : List Lexeme} {e : SExpr}
    (feeds : Feeds frames ls (.outside e)) (size : Nat) (rest : List Lexeme) :
    readOneFrom size frames (ls ++ rest) = .ok (e, rest) := by
  generalize state : Placed.outside e = q at feeds
  induction feeds with
  | nil frames => cases state
  | inside taken _ ih => simp [readOneFrom, taken, ih state]
  | outside taken =>
    cases state
    simp [readOneFrom, taken]

end SExpr

namespace Spelling

open SExpr (Frames Feeds Placed place)

theorem take_atom (frames : Frames) {lexeme : Lexeme} {a : Atom}
    (token : lexeme.token = .atom a) :
    SExpr.take frames lexeme = .ok (place (.atom a) frames) := by
  simp [SExpr.take, token]

/-- The lexeme of an atom places it. -/
theorem feeds_atom (frames : Frames) {ls : List Lexeme} {a : Atom}
    (tokens : ls.map Lexeme.token = [.atom a]) : Feeds frames ls (place (.atom a) frames) := by
  obtain ⟨lexeme, rfl, token⟩ := List.map_eq_singleton_iff.mp tokens
  exact .of_take (take_atom frames token)

mutual

/-- The lexemes of a spelling place its tree. -/
theorem feeds : ∀ (s : Spelling), s.Proper → ∀ (frames : Frames) {ls : List Lexeme},
    ls.map Lexeme.token = s.tokens → Feeds frames ls (place s.tree frames)
  | .word _ _, _, frames, _, tokens => feeds_atom frames tokens
  | .string _, _, frames, _, tokens => feeds_atom frames tokens
  | .quoted _, _, frames, _, tokens => feeds_atom frames tokens
  | .list items, proper, frames, ls, tokens => by
    obtain ⟨front, last, rfl, hfront, hlast⟩ := List.map_eq_append_iff.mp tokens
    obtain ⟨first, middle, rfl, hfirst, hmiddle⟩ := List.map_eq_cons_iff.mp hfront
    obtain ⟨closing, rfl, hclosing⟩ := List.map_eq_singleton_iff.mp hlast
    have opened : SExpr.take frames first = .ok (.inside ([] :: frames)) := by
      simp [SExpr.take, hfirst]
    have inside := feedsList items proper.2 [] frames hmiddle
    have closed : SExpr.take (((treeList items).reverse ++ []) :: frames) closing =
        .ok (place (Spelling.list items).tree frames) := by
      simp [SExpr.take, hclosing, tree, proper.1]
    exact .inside opened (inside.append (.of_take closed))

/-- The lexemes of several spellings put their trees into the open application. -/
theorem feedsList : ∀ (items : List Spelling), ProperList items → ∀ (begun : List SExpr)
    (outer : Frames) {ls : List Lexeme}, ls.map Lexeme.token = tokensList items →
      Feeds (begun :: outer) ls (.inside (((treeList items).reverse ++ begun) :: outer))
  | [], _, begun, outer, ls, tokens => by
    obtain rfl := List.map_eq_nil_iff.mp tokens
    exact .nil _
  | s :: rest, proper, begun, outer, ls, tokens => by
    obtain ⟨first, others, rfl, hfirst, hothers⟩ := List.map_eq_append_iff.mp tokens
    have one := feeds s proper.1 (begun :: outer) hfirst
    have more := feedsList rest proper.2 (s.tree :: begun) outer hothers
    have joined := @Feeds.append (begun :: outer) ((s.tree :: begun) :: outer) _ _ _ one more
    simpa [treeList] using joined

end

theorem follow_word {cs : List Char} (word : ∀ c ∈ cs, Lexeme.endsWord c = false ∧ c ≠ '|')
    (r : Group.Reach) (outside : r.inside = .nothing) (rest : List Char) :
    r.follow (cs ++ rest) = r.follow rest := by
  induction cs with
  | nil => rfl
  | cons c cs ih =>
    obtain ⟨hc, bar⟩ := word c List.mem_cons_self
    simp only [Lexeme.endsWord, Bool.or_eq_false_iff, decide_eq_false_iff_not] at hc
    obtain ⟨⟨⟨⟨_, opening⟩, closing⟩, quote⟩, comment⟩ := hc
    have others := ih fun d hd => word d (List.mem_cons_of_mem c hd)
    simp [Group.Reach.follow, outside, opening, closing, quote, comment, bar, others]

theorem follow_string (contents : List Char) (depth : Int) (rest : List Char) :
    (Group.Reach.mk .string depth).follow (Literal.doubled contents ++ '"' :: rest) =
      (Group.Reach.mk .nothing depth).follow rest := by
  induction contents with
  | nil => simp [Literal.doubled, Group.Reach.follow]
  | cons c contents ih =>
    by_cases quote : c = '"'
    · subst quote
      simpa [Literal.doubled, Group.Reach.follow] using ih
    · simpa [Literal.doubled, Group.Reach.follow, quote] using ih

theorem follow_quoted {name : List Char} (bar : '|' ∉ name) (depth : Int) (rest : List Char) :
    (Group.Reach.mk .quotedSymbol depth).follow (name ++ '|' :: rest) =
      (Group.Reach.mk .nothing depth).follow rest := by
  induction name with
  | nil => simp [Group.Reach.follow]
  | cons c name ih =>
    have hc : c ≠ '|' := fun same => bar (same ▸ List.mem_cons_self)
    simpa [Group.Reach.follow, hc] using ih fun h => bar (List.mem_cons_of_mem c h)

mutual

/-- A spelling leaves nothing open, and as many parentheses as before it. -/
theorem follow_chars : ∀ (s : Spelling), s.Proper → ∀ (depth : Int) (rest : List Char),
    (Group.Reach.mk .nothing depth).follow (s.chars ++ rest) =
      (Group.Reach.mk .nothing depth).follow rest
  | .word _ _, proper, depth, rest => follow_word proper.1.2 _ rfl rest
  | .string contents, _, depth, rest => by
    simpa [chars, Group.Reach.follow] using follow_string contents depth rest
  | .quoted _, proper, depth, rest => by
    simpa [chars, Group.Reach.follow] using follow_quoted proper depth rest
  | .list items, proper, depth, rest => by
    have inside := follow_charsList items proper.2 (depth + 1) (')' :: rest)
    simpa [chars, Group.Reach.follow] using inside

theorem follow_charsList : ∀ (items : List Spelling), ProperList items →
    ∀ (depth : Int) (rest : List Char),
      (Group.Reach.mk .nothing depth).follow (charsList items ++ rest) =
        (Group.Reach.mk .nothing depth).follow rest
  | [], _, _, _ => rfl
  | [s], proper, depth, rest => follow_chars s proper.1 depth rest
  | s :: t :: others, proper, depth, rest => by
    have first := follow_chars s proper.1 depth (' ' :: (charsList (t :: others) ++ rest))
    have others := follow_charsList (t :: others) proper.2 depth rest
    simpa [charsList, Group.Reach.follow, others] using first

end

end Spelling

end SmtDialogue
