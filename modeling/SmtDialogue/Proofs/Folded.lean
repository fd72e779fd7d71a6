import SmtDialogue.Proofs.Words

/-!
# What the reader makes

No application in a tree that was read stands for an atom or overflows, since every
application is folded when it is closed. Every keyword in the tree is a word of the text.
A symbol is at most as long as the text, so a text that reads as the symbol of that very
text is a single word.
-/

namespace SmtDialogue

/-- A word behind a colon. -/
structure IsKeyword (cs : List Char) : Prop where
  colon : cs.head? = some ':'
  inside : ∀ c ∈ cs, Lexeme.endsWord c = false

/-- What an atom keeps of the text it was read from, in a text with this many characters. -/
def Atom.Within (n : Nat) : Atom → Prop
  | .symbol name => name.toList.length ≤ n
  | .keyword name => IsKeyword name.toList
  | _ => True

theorem Atom.Within.mono {m n : Nat} (h : m ≤ n) {a : Atom} (within : a.Within m) :
    a.Within n := by
  cases a with
  | symbol name => exact Nat.le_trans within h
  | keyword name => exact within
  | _ => trivial

theorem Atom.within_ofWord {word : List Char} (inside : ∀ c ∈ word, Lexeme.endsWord c = false) :
    (Atom.ofWord word).Within word.length := by
  rw [Atom.ofWord]
  split
  · next colon => exact ⟨by simpa using colon, by simpa using inside⟩
  · split
    · trivial
    · split
      · trivial
      · simp [Within]

/-- A word is no number of a width. -/
theorem Atom.ofWord_ne_sized (word : List Char) (i : Int) (width : UInt32) :
    Atom.ofWord word ≠ .int i (some width) := by
  unfold Atom.ofWord
  split
  · simp
  · split
    · simp
    · split <;> simp

theorem Atom.toList_of_ofWord {word : List Char} {name : String}
    (symbol : Atom.ofWord word = .symbol name) : name.toList = word := by
  simp only [Atom.ofWord] at symbol
  split at symbol
  · cases symbol
  · split at symbol
    · cases symbol
    · split at symbol <;> cases symbol
      exact String.toList_ofList

/-- A word that is a symbol is that symbol wherever it starts. -/
theorem Token.symbol_of_ofWord {start : Nat} {word : List Char} {name : String}
    (token : Token.ofWord start word = .atom (.symbol name)) :
    name.toList = word ∧ ∀ other, Token.ofWord other word = .atom (.symbol name) := by
  have radix : ∀ base bits digits,
      radixToken base bits start word digits ≠ .atom (.symbol name) := by
    intro base bits digits same
    rw [radixToken] at same
    split at same
    · split at same <;> cases same
    · cases same
  by_cases hash : word.head? = some '#'
  · unfold Token.ofWord at token
    split at token
    · exact absurd token (radix 2 1 _)
    · exact absurd token (radix 16 4 _)
    · cases token
    · next other =>
      obtain ⟨rest, rfl⟩ := List.head?_eq_some_iff.mp hash
      exact absurd rfl (other rest)
  · rw [Token.ofWord_of_ne_hash hash] at token
    have symbol : Atom.ofWord word = .symbol name := Token.atom.inj token
    exact ⟨Atom.toList_of_ofWord symbol, fun other => by
      rw [Token.ofWord_of_ne_hash hash, symbol]⟩

/-- What the token of a lexeme keeps of the text. -/
def Token.Within (n : Nat) (t : Token) : Prop :=
  ∀ a, t = .atom a → a.Within n

theorem Token.within_ofWord (start : Nat) {word : List Char}
    (inside : ∀ c ∈ word, Lexeme.endsWord c = false) :
    (Token.ofWord start word).Within word.length := by
  have radix : ∀ base bits digits,
      (radixToken base bits start word digits).Within word.length := by
    intro base bits digits a token
    rw [radixToken] at token
    split at token
    · split at token <;> cases token
      trivial
    · cases token
  unfold Token.ofWord
  split
  · exact radix 2 1 _
  · exact radix 16 4 _
  · rintro a ⟨⟩
  · rintro a ⟨⟩
    exact Atom.within_ofWord inside

/-- The characters of the word or quoted symbol that has begun. -/
def LexMode.begun : LexMode → List Char
  | .word _ contents | .quotedSymbol _ contents => contents
  | _ => []

/-- A word that has begun has not ended. -/
def LexMode.Open : LexMode → Prop
  | .word _ contents => ∀ c ∈ contents, Lexeme.endsWord c = false
  | _ => True

namespace Lexeme

theorem open_begin (offset : Nat) (c : Char) :
    (∀ l ∈ (begin offset c).1, l.token.Within 0) ∧ (begin offset c).2.Open ∧
      (begin offset c).2.begun.length ≤ 1 := by
  have opening : Token.opening.Within 0 := by rintro a ⟨⟩
  have closing : Token.closing.Within 0 := by rintro a ⟨⟩
  unfold begin
  split_ifs with h₁ h₂ h₃ h₄ h₅ h₆
  case neg =>
    have inside : endsWord c = false := by
      simp_all [endsWord]
    simp [LexMode.Open, LexMode.begun, inside]
  all_goals simp [LexMode.Open, LexMode.begun, opening, closing]

/-- Only a word begins with the character that begins it. -/
theorem begun_begin (offset : Nat) (c : Char) :
    (begin offset c).2.begun = [] ∨ endsWord c = false ∧ c ≠ '|' := by
  unfold begin
  split_ifs with h₁ h₂ h₃ h₄ h₅ h₆
  case neg => simp_all [endsWord]
  all_goals exact .inl rfl

theorem open_step {mode : LexMode} (opened : mode.Open) (offset : Nat) (c : Char) :
    (∀ l ∈ (step offset mode c).1, l.token.Within mode.begun.length) ∧
      (step offset mode c).2.Open ∧
      (step offset mode c).2.begun.length ≤ mode.begun.length + 1 := by
  obtain ⟨none, begins, short⟩ := open_begin offset c
  have string : ∀ start contents, (ofString start contents).token.Within 0 := by
    rintro start contents a ⟨⟩
    trivial
  cases mode with
  | blank => exact ⟨none, begins, short⟩
  | comment =>
    simp only [step]
    split <;> simp [LexMode.Open, LexMode.begun]
  | string start mark contents =>
    simp only [step]
    split <;> simp [LexMode.Open, LexMode.begun]
  | closingQuote start contents =>
    simp only [step]
    split
    · simp [LexMode.Open, LexMode.begun]
    · exact ⟨List.forall_mem_cons.mpr ⟨string start contents, none⟩, begins, short⟩
  | quotedSymbol start contents =>
    simp only [step]
    split
    · refine ⟨?_, trivial, by simp [LexMode.begun]⟩
      simp [ofQuotedSymbol, Token.Within, Atom.Within, LexMode.begun]
    · simp [LexMode.Open, LexMode.begun]
  | word start contents =>
    simp only [step]
    split
    · have inside : ∀ d ∈ contents.reverse, endsWord d = false := by
        simpa [LexMode.Open] using opened
      have word := Token.within_ofWord start inside
      rw [List.length_reverse] at word
      refine ⟨List.forall_mem_cons.mpr ⟨word, fun l hl a token => ?_⟩, begins,
        Nat.le_trans short (Nat.le_add_left 1 _)⟩
      exact (none l hl a token).mono (Nat.zero_le _)
    · next inside =>
      refine ⟨by simp, ?_, by simp [LexMode.begun]⟩
      exact List.forall_mem_cons.mpr ⟨by simpa using inside, opened⟩

theorem within_finish {mode : LexMode} (opened : mode.Open) :
    ∀ l ∈ finish mode, l.token.Within mode.begun.length := by
  cases mode with
  | word start contents =>
    have inside : ∀ d ∈ contents.reverse, endsWord d = false := by
      simpa [LexMode.Open] using opened
    have word := Token.within_ofWord start inside
    simpa [finish, ofWord, LexMode.begun] using word
  | closingQuote start contents => simp [finish, ofString, Token.Within, Atom.Within]
  | _ => simp [finish, Token.Within]

/-- No symbol is longer than the text it is read from, and keywords are words. -/
theorem within_scan {mode : LexMode} (opened : mode.Open) (offset : Nat) (cs : List Char) :
    ∀ l ∈ scan offset mode cs, l.token.Within (mode.begun.length + cs.length) := by
  induction cs generalizing offset mode with
  | nil => exact within_finish opened
  | cons c cs ih =>
    obtain ⟨before, next, longer⟩ := open_step opened offset c
    intro l member a token
    rw [List.length_cons]
    rcases List.mem_append.mp member with here | later
    · exact (before l here a token).mono (by omega)
    · exact (ih next _ l later a token).mono (by omega)

end Lexeme

/-- Atoms that are neither a symbol nor a keyword. -/
def Atom.IsValue : Atom → Prop
  | .symbol _ | .keyword _ => False
  | _ => True

namespace SExpr

mutual

/-- The atoms of a tree, from left to right. -/
def atoms : SExpr → List Atom
  | .atom a => [a]
  | .app items => atomsList items

def atomsList : List SExpr → List Atom
  | [] => []
  | e :: rest => e.atoms ++ atomsList rest

end

mutual

/-- No application in the tree stands for an atom. -/
def Folded : SExpr → Prop
  | .atom _ => True
  | .app items => fold items = .app items ∧ FoldedList items

def FoldedList : List SExpr → Prop
  | [] => True
  | e :: rest => e.Folded ∧ FoldedList rest

end

theorem foldedList_iff {items : List SExpr} : FoldedList items ↔ ∀ e ∈ items, e.Folded := by
  induction items with
  | nil => simp [FoldedList]
  | cons e rest ih => simp [FoldedList, ih]

theorem mem_atomsList {items : List SExpr} {a : Atom} :
    a ∈ atomsList items ↔ ∃ e ∈ items, a ∈ e.atoms := by
  induction items with
  | nil => simp [atomsList]
  | cons e rest ih => simp [atomsList, ih]

/-- What an application is folded into. A number with a width comes from one name only. -/
theorem literal?_cases {operator : String} {args : List SExpr} {a : Atom}
    (folds : literal? operator args = some a) :
    (∃ i, a = .int i none) ∨ (∃ r, a = .real r) ∨ (∃ x, a = .float x) ∨ (∃ x, a = .double x) ∨
      ∃ name size, operator = "_" ∧ args = [.atom (.symbol name), size] ∧
        bitVector? name size = some a := by
  simp only [literal?] at folds
  split_ifs at folds with minus slash under
  · simp only [negation?] at folds
    split at folds
    · cases folds
      exact .inl ⟨_, rfl⟩
    · obtain ⟨r, _, rfl⟩ := Option.map_eq_some_iff.mp folds
      exact .inr (.inl ⟨r, rfl⟩)
    · cases folds
  · simp only [quotient?] at folds
    split at folds
    · split at folds
      · split at folds <;> cases folds
        exact .inr (.inl ⟨_, rfl⟩)
      · cases folds
    · cases folds
  · simp only [indexed?] at folds
    split at folds
    · next name size => exact .inr (.inr (.inr (.inr ⟨name, size, under, rfl, folds⟩)))
    · simp only [special?] at folds
      split at folds
      · obtain ⟨p, _, rfl⟩ := Option.map_eq_some_iff.mp folds
        exact .inr (.inr (.inl ⟨_, rfl⟩))
      · obtain ⟨p, _, rfl⟩ := Option.map_eq_some_iff.mp folds
        exact .inr (.inr (.inr (.inl ⟨_, rfl⟩)))
      · cases folds
    · cases folds
  · simp only [fields?] at folds
    split at folds
    · split_ifs at folds <;> cases folds
      · exact .inr (.inr (.inl ⟨_, rfl⟩))
      · exact .inr (.inr (.inr (.inl ⟨_, rfl⟩)))
    · cases folds
  · simp only [root?] at folds
    split at folds
    · split at folds
      · split at folds <;> cases folds
        exact .inr (.inl ⟨_, rfl⟩)
      · cases folds
    · cases folds

/-- A literal with `bv` is a number with the given width. -/
theorem exists_of_bitVector? {name : String} {size : SExpr} {a : Atom}
    (reads : bitVector? name size = some a) :
    ∃ digits i width, name.toList = 'b' :: 'v' :: digits ∧
      Numeral.readInt? 10 digits = some i ∧ natBelow? UInt32.size size = some width ∧
      a = .int i (some (UInt32.ofNat width)) := by
  simp only [bitVector?] at reads
  split at reads
  · next digits named =>
    split at reads
    · next i width number sized =>
      cases reads
      exact ⟨digits, i, width, named, number, sized, rfl⟩
    · cases reads
  · cases reads

/-- Nothing is folded into a symbol or a keyword. -/
theorem isValue_of_literal? {operator : String} {args : List SExpr} {a : Atom}
    (folds : literal? operator args = some a) : a.IsValue := by
  rcases literal?_cases folds with ⟨i, rfl⟩ | ⟨r, rfl⟩ | ⟨x, rfl⟩ | ⟨x, rfl⟩ |
    ⟨name, size, -, -, bits⟩
  · trivial
  · trivial
  · trivial
  · trivial
  · obtain ⟨digits, i, width, -, -, -, rfl⟩ := exists_of_bitVector? bits
    trivial

theorem fold_cases (items : List SExpr) :
    fold items = .app items ∨ ∃ a : Atom, fold items = .atom a ∧ a.IsValue := by
  unfold fold
  split
  · next operator args =>
    split
    · next a folds => exact .inr ⟨a, rfl, isValue_of_literal? folds⟩
    · exact .inl rfl
  · exact .inl rfl

theorem overflowsAny_eq_false {items : List SExpr} :
    overflowsAny items = false ↔ ∀ e ∈ items, e.overflows = false := by
  induction items with
  | nil => simp [overflowsAny]
  | cons e rest ih => simp [overflowsAny, ih]

/-- What a tree keeps of a text with this many characters that it was read from. -/
structure Kept (n : Nat) (e : SExpr) : Prop where
  folded : e.Folded
  fits : e.overflows = false
  atoms : ∀ a ∈ e.atoms, a.Within n

variable {n : Nat}

theorem kept_atom {a : Atom} (within : a.Within n) : (SExpr.atom a).Kept n :=
  ⟨trivial, by simp [overflows], by simpa [SExpr.atoms] using within⟩

theorem kept_fold {items : List SExpr} (fits : foldOverflows items = false)
    (kept : ∀ e ∈ items, e.Kept n) : (fold items).Kept n := by
  rcases fold_cases items with stays | ⟨a, folds, value⟩
  · rw [stays]
    have each := overflowsAny_eq_false.mpr fun e he => (kept e he).fits
    refine ⟨⟨stays, foldedList_iff.mpr fun e he => (kept e he).folded⟩,
      by simp [overflows, fits, each],
      fun a member => ?_⟩
    obtain ⟨e, he, inside⟩ := mem_atomsList.mp member
    exact (kept e he).atoms a inside
  · rw [folds]
    refine kept_atom ?_
    cases a <;> trivial

/-- What was put into open applications. -/
def KeptFrames (n : Nat) (frames : Frames) : Prop :=
  ∀ items ∈ frames, ∀ e ∈ items, e.Kept n

theorem kept_place {e : SExpr} (kept : e.Kept n) {frames : Frames} (held : KeptFrames n frames) :
    (∀ inner, place e frames = .inside inner → KeptFrames n inner) ∧
      ∀ f, place e frames = .outside f → f.Kept n := by
  cases frames with
  | nil =>
    constructor
    · rintro inner ⟨⟩
    · rintro f ⟨⟩
      exact kept
  | cons items outer =>
    obtain ⟨here, others⟩ := List.forall_mem_cons.mp held
    constructor
    · rintro inner ⟨⟩
      exact List.forall_mem_cons.mpr ⟨List.forall_mem_cons.mpr ⟨kept, here⟩, others⟩
    · rintro f ⟨⟩

theorem kept_take {frames : Frames} (held : KeptFrames n frames) {l : Lexeme}
    (within : l.token.Within n) {placed : Placed} (taken : take frames l = .ok placed) :
    (∀ inner, placed = .inside inner → KeptFrames n inner) ∧
      ∀ f, placed = .outside f → f.Kept n := by
  simp only [take] at taken
  split at taken
  · cases taken
    constructor
    · rintro inner ⟨⟩
      exact List.forall_mem_cons.mpr ⟨by simp, held⟩
    · rintro f ⟨⟩
  · split at taken
    · cases taken
    · next items outer =>
      split at taken <;> cases taken
      next fits =>
      obtain ⟨here, others⟩ := List.forall_mem_cons.mp held
      exact kept_place (kept_fold (Bool.not_eq_true _ ▸ fits) fun e he =>
        here e (List.mem_reverse.mp he)) others
  · next a token =>
    cases taken
    exact kept_place (kept_atom (within a token)) held
  · cases taken

theorem kept_readOneFrom {size : Nat} {frames : Frames} (held : KeptFrames n frames)
    {ls : List Lexeme} (within : ∀ l ∈ ls, l.token.Within n) {e : SExpr} {rest : List Lexeme}
    (read : readOneFrom size frames ls = .ok (e, rest)) : e.Kept n := by
  induction ls generalizing frames with
  | nil => simp [readOneFrom] at read
  | cons l ls ih =>
    obtain ⟨here, later⟩ := List.forall_mem_cons.mp within
    rw [readOneFrom] at read
    split at read
    · cases read
    · next inner taken => exact ih ((kept_take held here taken).1 inner rfl) later read
    · next f taken =>
      cases read
      exact (kept_take held here taken).2 _ rfl

theorem parse_eq_ok {text : String} {e : SExpr} :
    parse text = .ok e ↔
      readOneFrom text.utf8ByteSize [] (Lexeme.ofText text) = .ok (e, []) := by
  rw [parse]
  cases readOneFrom text.utf8ByteSize [] (Lexeme.ofText text) with
  | error f => simp
  | ok r =>
    obtain ⟨f, rest⟩ := r
    cases rest <;> simp

/-- A tree that was read is folded and does not overflow, and its atoms are of its text. -/
theorem kept_parse {text : String} {e : SExpr} (read : parse text = .ok e) :
    e.Kept text.toList.length := by
  have within := @Lexeme.within_scan .blank trivial 0 text.toList
  simp only [LexMode.begun, List.length_nil, Nat.zero_add] at within
  exact kept_readOneFrom (by simp [KeptFrames]) within (parse_eq_ok.mp read)

end SExpr

end SmtDialogue
