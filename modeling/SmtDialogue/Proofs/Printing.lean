import SmtDialogue.Proofs.Folded
import SmtDialogue.Proofs.Literals

/-!
# Trees printed and read again

A tree that was read is read again from its printed form. This leaves out the atoms that
are printed as something else: floating-point words, approximations, roots whose
coefficients are not in reduced form, strings in which an escape is left, and symbols
that need bars.
-/

namespace SmtDialogue

open SExpr (fold parse)

namespace SExpr

/-- What is read while an application is open is the tree of an application. -/
theorem readOneFrom_inside {size : Nat} {frames : Frames} (inside : frames ≠ []) {ls : List Lexeme}
    {e : SExpr} {rest : List Lexeme} (read : readOneFrom size frames ls = .ok (e, rest)) :
    ∃ items, e = fold items := by
  induction ls generalizing frames with
  | nil => simp [readOneFrom] at read
  | cons l ls ih =>
    obtain ⟨items, outer, rfl⟩ := List.exists_cons_of_ne_nil inside
    rw [readOneFrom, take] at read
    cases token : l.token with
    | opening => exact ih (List.cons_ne_nil _ _) (by simpa [token] using read)
    | atom a => exact ih (List.cons_ne_nil _ _) (by simpa [token, place] using read)
    | fault f => simp [token] at read
    | closing =>
      have fits : foldOverflows items.reverse = false := by
        refine Bool.eq_false_of_not_eq_true fun overflows => ?_
        simp [token, overflows] at read
      cases outer with
      | nil =>
        simp only [token, fits, Bool.false_eq_true, if_false, place] at read
        cases read
        exact ⟨_, rfl⟩
      | cons more outer =>
        exact ih (List.cons_ne_nil _ _) (by simpa [token, fits, place] using read)

/-- A text that reads as a symbol is a single lexeme. -/
theorem ofText_of_symbol {text name : String} (read : parse text = .ok (.atom (.symbol name))) :
    ∃ l, Lexeme.ofText text = [l] ∧ l.token = .atom (.symbol name) := by
  have unfolded : ∀ items, SExpr.atom (.symbol name) ≠ fold items := by
    intro items same
    rcases fold_cases items with stays | ⟨a, folds, value⟩
    · rw [stays] at same
      cases same
    · rw [folds] at same
      cases same
      exact value
  have read := parse_eq_ok.mp read
  cases lexemes : Lexeme.ofText text with
  | nil => simp [lexemes, readOneFrom] at read
  | cons l ls =>
    rw [lexemes, readOneFrom, take] at read
    cases token : l.token with
    | opening =>
      obtain ⟨items, same⟩ :=
        readOneFrom_inside (List.cons_ne_nil _ _) (by simpa [token] using read)
      exact absurd same (unfolded items)
    | closing => simp [token] at read
    | fault f => simp [token] at read
    | atom a =>
      simp only [token, place] at read
      cases read
      exact ⟨l, rfl, token⟩

/-- A text that reads as the symbol of that very text is a word without bars. -/
theorem unquoted_of_parse {name : String} (read : parse name = .ok (.atom (.symbol name))) :
    Spelling.Unquoted name.toList ∧
      ∀ start, Token.ofWord start name.toList = .atom (.symbol name) := by
  obtain ⟨l, lexemes, token⟩ := ofText_of_symbol read
  rw [Lexeme.ofText] at lexemes
  cases characters : name.toList with
  | nil => simp [characters, Lexeme.scan, Lexeme.finish] at lexemes
  | cons c cs =>
    rw [characters, Lexeme.scan, Lexeme.step] at lexemes
    obtain ⟨before, opened, _⟩ := Lexeme.open_begin 0 c
    rcases Lexeme.begun_begin 0 c with nothing | ⟨inside, bar⟩
    · -- only the characters behind the first one can be a symbol, and they are too few
      have within : l.token.Within cs.length := by
        have member := List.mem_singleton_self l
        rw [← lexemes] at member
        rcases List.mem_append.mp member with here | later
        · exact fun a same => (before l here a same).mono (Nat.zero_le _)
        · simpa [nothing] using Lexeme.within_scan opened _ cs l later
      have short : name.toList.length ≤ cs.length := within _ token
      rw [characters, List.length_cons] at short
      omega
    · rw [Lexeme.begin_of_word inside bar] at lexemes
      rw [List.nil_append, Lexeme.scan_word] at lexemes
      obtain ⟨rfl, _⟩ := List.cons.inj lexemes
      obtain ⟨whole, reads⟩ := Token.symbol_of_ofWord token
      have word : cs.takeWhile (fun c => !Lexeme.endsWord c) = cs := by
        rw [characters] at whole
        simpa using whole.symm
      have others : ∀ d ∈ cs, Lexeme.endsWord d = false := by
        simpa using List.takeWhile_eq_self_iff.mp word
      refine ⟨⟨List.cons_ne_nil c cs, by simpa using bar,
        List.forall_mem_cons.mpr ⟨inside, others⟩⟩, ?_⟩
      rw [word] at reads
      simpa using reads

end SExpr

namespace Spelling

/-- An integer in decimal digits behind its sign. -/
theorem toList_repr (i : Int) :
    i.repr.toList = (if i < 0 then ['-'] else []) ++ Nat.toDigits 10 i.natAbs := by
  cases i with
  | ofNat n => simp [Int.repr]
  | negSucc n => simp [Int.repr, Int.negSucc_lt_zero]

/-- The literal of an integer at a width, which is not its two's complement. -/
def indexed (i : Int) (width : UInt32) : Spelling :=
  .list [bare "_", bare ("bv" ++ toString i), natural width.toNat]

theorem chars_indexed (i : Int) (width : UInt32) :
    (indexed i width).chars = (Atom.int i (some width)).text.toList := by
  simp [indexed, bare, natural, chars, charsList, Atom.text]

theorem proper_indexed (i : Int) (width : UInt32) : (indexed i width).Proper := by
  have digits : ∀ c ∈ Nat.toDigits 10 i.natAbs, Lexeme.endsWord c = false ∧ c ≠ '|' :=
    fun c hc => Numeral.inWord_of_isDigit (Numeral.isDigit_of_mem_toDigits hc)
  have name : IsBare ("bv" ++ toString i).toList := by
    have characters : ("bv" ++ toString i).toList =
        'b' :: 'v' :: ((if i < 0 then ['-'] else []) ++ Nat.toDigits 10 i.natAbs) := by
      rw [← toList_repr]
      simp
    rw [characters]
    refine ⟨⟨by simp, ?_⟩, by simp, by simp, by simp [leading?]; decide⟩
    intro c hc
    rcases List.mem_cons.mp hc with rfl | hc
    · decide
    · rcases List.mem_cons.mp hc with rfl | hc
      · decide
      · rcases List.mem_append.mp hc with sign | digit
        · split at sign
          · rw [List.mem_singleton.mp sign]
            decide
          · cases sign
        · exact digits c digit
  exact ⟨rfl, proper_bare (by decide), proper_bare name, proper_natural _, trivial⟩

theorem readInt?_repr (i : Int) : Numeral.readInt? 10 i.repr.toList = some i := by
  have positive : ∀ n : Nat, Numeral.readInt? 10 (Nat.toDigits 10 n) = some (n : Int) := by
    intro n
    obtain ⟨ds, read, worth⟩ :=
      Numeral.mapM_digit?_toDigits (show 1 < 10 by decide) (by decide) n
    rw [Numeral.readInt?_of_digits read Nat.toDigits_ne_nil, worth]
  rw [toList_repr]
  by_cases negative : i < 0
  · obtain ⟨c, rest, digits, hc⟩ := head?_toDigits i.natAbs
    have plus : c ≠ '+' := Numeral.ne_of_isDigit hc (by decide)
    have minus : c ≠ '-' := Numeral.ne_of_isDigit hc (by decide)
    have magnitude := positive i.natAbs
    rw [digits] at magnitude
    have natural : (Numeral.readNat? 10 (c :: rest)).map Int.ofNat = some (i.natAbs : Int) := by
      simpa [Numeral.readInt?, minus] using magnitude
    obtain ⟨n, read, same⟩ := Option.map_eq_some_iff.mp natural
    have value : -(n : Int) = i := by
      have worth : (n : Int) = (i.natAbs : Int) := same
      omega
    rw [if_pos negative, digits]
    simp [Numeral.readInt?, plus, read, value]
  · have magnitude : (i.natAbs : Int) = i := by omega
    rw [if_neg negative, List.nil_append, positive, magnitude]

theorem tree_indexed (i : Int) (width : UInt32) :
    (indexed i width).tree = .atom (.int i (some width)) := by
  have size : SExpr.natBelow? UInt32.size (.atom (.int width.toNat none)) = some width.toNat :=
    SExpr.natBelow?_eq_some.mpr ⟨width.toNat_lt_size, none, rfl⟩
  simp [indexed, bare, natural, tree, treeList, SExpr.fold, SExpr.literal?, SExpr.indexed?,
    SExpr.bitVector?, readInt?_repr, size]

end Spelling

namespace Atom

/-- Atoms that are printed as what they are: no floating-point words and no
approximations, roots without a zero at the end of their coefficients, strings in which
no escape is left, and symbols that need no bars. -/
def Repeats : Atom → Prop
  | .symbol name => parse name = .ok (.atom (.symbol name))
  | .keyword _ | .int _ _ | .real (.exact _) => True
  | .real (.approximate _) | .float _ | .double _ => False
  | .real (.root p _) => p.val.getLast? ≠ some 0 ∨ p.val = [0]
  | .string s => Escape.decode s.toList = s.toList

/-- The coefficients of a root are some. -/
def Rooted : Atom → Prop
  | .real (.root p _) => p.val ≠ []
  | _ => True

instance : DecidablePred Repeats
  | .symbol name => inferInstanceAs (Decidable (parse name = .ok (.atom (.symbol name))))
  | .keyword _ | .int _ _ | .real (.exact _) => inferInstanceAs (Decidable True)
  | .real (.approximate _) | .float _ | .double _ => inferInstanceAs (Decidable False)
  | .real (.root p _) => inferInstanceAs (Decidable (p.val.getLast? ≠ some 0 ∨ p.val = [0]))
  | .string s => inferInstanceAs (Decidable (Escape.decode s.toList = s.toList))

instance : DecidablePred Rooted
  | .real (.root p _) => inferInstanceAs (Decidable (p.val ≠ []))
  | .real (.exact _) | .real (.approximate _) | .symbol _ | .keyword _ | .int _ _ | .float _
  | .double _ | .string _ => inferInstanceAs (Decidable True)

end Atom

theorem Coefficients.reduced_eq_self {p : Coefficients} (nonempty : p ≠ [])
    (last : p.getLast? ≠ some 0 ∨ p = [0]) : reduced p = p := by
  rcases last with last | rfl
  · obtain ⟨front, a, rfl⟩ := List.eq_nil_or_concat' p |>.resolve_left nonempty
    have nonzero : a ≠ 0 := by simpa using last
    simp [reduced, trim_append_of_ne nonzero]
  · rfl

/-- An atom that repeats is read from its printed form. -/
theorem Atom.phrase_text {n : Nat} {a : Atom} (within : a.Within n) (repeats : a.Repeats)
    (rooted : a.Rooted) : Phrase a.text.toList (.atom a) := by
  cases a with
  | symbol name =>
    obtain ⟨unquoted, reads⟩ := SExpr.unquoted_of_parse repeats
    exact .word unquoted reads
  | keyword name =>
    obtain ⟨rest, word⟩ := List.head?_eq_some_iff.mp within.colon
    have unquoted : Spelling.Unquoted name.toList :=
      ⟨by simp [word], by simp [word], within.inside⟩
    have reads : ∀ start, Token.ofWord start name.toList = .atom (.keyword name) := by
      intro start
      rw [Token.ofWord_of_ne_hash (by simp [word])]
      simp [Atom.ofWord, within.colon]
    exact .word unquoted reads
  | int i width =>
    cases width with
    | none =>
      have phrase := Phrase.of_proper (Spelling.proper_integer i)
      rwa [Spelling.tree_integer, Spelling.chars_integer] at phrase
    | some width =>
      have phrase := Phrase.of_proper (Spelling.proper_indexed i width)
      rwa [Spelling.tree_indexed, Spelling.chars_indexed] at phrase
  | real r =>
    cases r with
    | exact q =>
      have phrase := Phrase.of_proper (Spelling.proper_rational q)
      rwa [Spelling.tree_rational, Spelling.chars_rational] at phrase
    | approximate q => exact absurd repeats id
    | root p index =>
      have phrase := Phrase.of_proper (Spelling.proper_root p index)
      have reduced : p.reduced = p := Subtype.ext (Coefficients.reduced_eq_self rooted repeats)
      rwa [Spelling.tree_root, reduced, Spelling.chars_root] at phrase
  | float bits => exact absurd repeats id
  | double bits => exact absurd repeats id
  | string s =>
    have decoded : Escape.decode s.toList = s.toList := repeats
    have phrase := Phrase.of_proper (s := .string s.toList) trivial
    rw [Spelling.tree, decoded, String.ofList_toList] at phrase
    have characters : (Spelling.string s.toList).chars = (Atom.string s).text.toList := by
      simp [Spelling.chars, Atom.text, doubledQuotes, Literal.doubled]
    rwa [characters] at phrase

namespace SExpr

variable {n : Nat}

mutual

theorem phrase_text : ∀ (e : SExpr), e.Folded → e.overflows = false →
    (∀ a ∈ e.atoms, Phrase a.text.toList (.atom a)) → Phrase e.text.toList e
  | .atom a, _, _, each => each a (by simp [atoms])
  | .app items, folded, fits, each => by
    rw [overflows, Bool.or_eq_false_iff] at fits
    have inside := phrases_textList items folded.2 fits.2 each
    have whole := inside.list fits.1
    rw [folded.1] at whole
    simpa [text] using whole

theorem phrases_textList : ∀ (items : List SExpr), FoldedList items → overflowsAny items = false →
    (∀ a ∈ atomsList items, Phrase a.text.toList (.atom a)) →
      Phrases (textList items).toList items
  | [], _, _, _ => by simpa [textList] using Phrases.nil
  | [e], folded, fits, each => by
    rw [overflowsAny, Bool.or_eq_false_iff] at fits
    have only := phrase_text e folded.1 fits.1 fun a member => each a (by simp [atomsList, member])
    simpa [textList] using only.item
  | e :: f :: rest, folded, fits, each => by
    rw [overflowsAny, Bool.or_eq_false_iff] at fits
    have first := phrase_text e folded.1 fits.1 fun a member => each a (by simp [atomsList, member])
    have others := phrases_textList (f :: rest) folded.2 fits.2
      fun a member => each a (List.mem_append_right _ member)
    simpa [textList] using Phrases.cons first others

end

/-- A tree that was read is read again from its printed form, unless an atom in it is
printed as something else. -/
theorem parse_text {text : String} {e : SExpr} (read : parse text = .ok e)
    (repeats : ∀ a ∈ e.atoms, a.Repeats) (rooted : ∀ a ∈ e.atoms, a.Rooted) :
    parse e.text = .ok e := by
  have kept := kept_parse read
  have phrase := phrase_text e kept.folded kept.fits fun a member =>
    Atom.phrase_text (kept.atoms a member) (repeats a member) (rooted a member)
  exact phrase.parse

/-- Signs, widths, quotients, roots, quotes and an application that is none of these. -/
def mixed : SExpr :=
  .app [.atom (.symbol "f"), .atom (.symbol "a"), .atom (.keyword ":k"), .atom (.int (-5) none),
    .atom (.int (-3) (some 8)), .atom (.string "\""),
    .atom (.real (.root ⟨[-2, 0, 1], by decide⟩ 1)),
    .atom (.real (.exact (1 / 3))), .app [.atom (.symbol "-"), .atom (.symbol "x")]]

theorem parse_text_mixed :
    (∀ a ∈ mixed.atoms, a.Repeats) ∧ (∀ a ∈ mixed.atoms, a.Rooted) ∧
      parse mixed.text = .ok mixed := by
  have read : parse
      "(f |a| :k (- 5) (_ bv-3 8) \"\"\"\" (root-obj (- (^ y 2) 2) 1) (/ 1.0 3.0) (- x))" =
      .ok mixed := by
    decide +kernel
  have repeats : ∀ a ∈ mixed.atoms, a.Repeats := by decide +kernel
  have rooted : ∀ a ∈ mixed.atoms, a.Rooted := by decide +kernel
  exact ⟨repeats, rooted, parse_text read repeats rooted⟩

/-- A sum of nothing is a root without coefficients, which is printed as that of zero. -/
theorem parse_text_unrooted :
    ∃ e, parse "(root-obj (+) 1)" = .ok e ∧ (∀ a ∈ e.atoms, a.Repeats) ∧ parse e.text ≠ .ok e :=
  ⟨.atom (.real (.root ⟨[], by decide⟩ 1)), by decide +kernel, by decide +kernel, by decide +kernel⟩

end SExpr

end SmtDialogue
