import SmtDialogue.Proofs.Closed
import SmtDialogue.Proofs.Normalizing

/-!
# Casts in a text

Any expression of a text but the first item of an application can be put into a cast. The
reader then finds an application where an atom was, and does not fold what is around it.
Normalizing removes the cast and folds what was left, so both texts are normalized to the
same tree, however many casts there are and wherever they stand.
-/

namespace SmtDialogue

open Lexeme (cut passed tokens finish)

namespace SExpr

/-- Open applications with items that cover others. -/
def AlikeFrames : Frames → Frames → Prop :=
  List.Forall₂ fun items others => Alike items.reverse others.reverse

/-- Expressions that cover others, in their places. -/
inductive AlikePlaced : Placed → Placed → Prop where
  | inside {frames others : Frames} (alike : AlikeFrames frames others) :
      AlikePlaced (.inside frames) (.inside others)
  | outside {e f : SExpr} (covers : Covers e f) : AlikePlaced (.outside e) (.outside f)

variable {frames others inner : Frames}

theorem AlikeFrames.refl (frames : Frames) : AlikeFrames frames frames :=
  List.forall₂_same.mpr fun items _ => Alike.refl items.reverse

theorem AlikeFrames.place (alike : AlikeFrames frames others) {e f : SExpr} (covers : Covers e f)
    (symbol : frames.head? ≠ some [] ∨ e.symbol? = f.symbol?) :
    AlikePlaced (place e frames) (place f others) := by
  cases alike with
  | nil => exact .outside covers
  | cons items outer =>
    refine .inside (.cons ?_ outer)
    rw [List.reverse_cons, List.reverse_cons]
    exact items.concat covers (by simpa using symbol)

/-- A token moves both readings alike. -/
theorem AlikeFrames.take (alike : AlikeFrames frames others) {t : Token} {p : Placed}
    (taken : take frames ⟨0, t⟩ = .ok p) :
    ∃ q, SExpr.take others ⟨0, t⟩ = .ok q ∧ AlikePlaced p q := by
  cases t with
  | opening =>
    cases taken
    exact ⟨_, rfl, .inside (.cons (.refl []) alike)⟩
  | closing =>
    cases alike with
    | nil => cases taken
    | cons items outer =>
      obtain ⟨fits, rfl⟩ := take_closing_eq_ok.mp taken
      have covered := mt (foldOverflows_of_covers items.each) (Bool.eq_false_iff.mp fits)
      refine ⟨_, take_closing_eq_ok.mpr ⟨Bool.eq_false_iff.mpr covered, rfl⟩,
        AlikeFrames.place outer items.fold (.inr ?_)⟩
      rw [symbol?_fold, symbol?_fold]
  | atom a =>
    cases taken
    exact ⟨_, rfl, alike.place (.refl _) (.inr rfl)⟩
  | fault f => cases taken

/-- Tokens behind alike applications are read alike. -/
theorem AlikeFrames.reach (alike : AlikeFrames frames others) {ts : List (Option Token)}
    {es : List SExpr} (read : reach frames ts = some (es, inner)) :
    ∃ fs last, SExpr.reach others ts = some (fs, last) ∧ es.map normalize = fs.map normalize ∧
      AlikeFrames inner last := by
  induction ts generalizing frames others es with
  | nil =>
    cases read
    exact ⟨[], others, rfl, rfl, alike⟩
  | cons t ts ih =>
    cases t with
    | none => cases read
    | some t =>
      rw [SExpr.reach] at read
      cases taken : SExpr.take frames ⟨0, t⟩ with
      | error f => simp [taken] at read
      | ok p =>
        obtain ⟨q, taken', placed⟩ := alike.take taken
        rw [taken] at read
        rw [SExpr.reach, taken']
        cases placed with
        | inside next => exact ih next read
        | @outside e f covers =>
          obtain ⟨⟨gs, last⟩, rest, same⟩ := Option.map_eq_some_iff.mp read
          cases same
          obtain ⟨fs, last', rest', later, closed⟩ := ih (.refl []) rest
          exact ⟨f :: fs, last', by simp [rest'], by simp [covers.normal, later], closed⟩

/-- What has been read once an expression is in its place. -/
def Placed.result : Placed → List SExpr × Frames
  | .inside frames => ([], frames)
  | .outside e => ([e], [])

theorem AlikePlaced.result {p q : Placed} (alike : AlikePlaced p q) :
    p.result.1.map normalize = q.result.1.map normalize ∧
      AlikeFrames p.result.2 q.result.2 := by
  cases alike with
  | inside alike => exact ⟨rfl, alike⟩
  | outside covers => exact ⟨by simp [Placed.result, covers.normal], .nil⟩

/-- Inside an application, expressions become items of it. -/
theorem reach_inside {ts : List (Option Token)} {es : List SExpr} {last : Frames}
    (read : reach inner ts = some (es, last)) (items : List SExpr) (outer : Frames) :
    reach (inner ++ items :: outer) ts = some ([], last ++ (es.reverse ++ items) :: outer) := by
  induction ts generalizing inner es items with
  | nil =>
    cases read
    rfl
  | cons t ts ih =>
    cases t with
    | none => cases read
    | some t =>
      rw [reach] at read ⊢
      cases t with
      | opening => exact ih read items
      | fault f => cases read
      | atom a =>
        cases inner with
        | nil =>
          obtain ⟨⟨fs, frames⟩, rest, same⟩ := Option.map_eq_some_iff.mp read
          cases same
          rw [List.reverse_cons, List.append_assoc]
          exact ih rest (.atom a :: items)
        | cons begun inner => exact ih read items
      | closing =>
        cases inner with
        | nil => cases read
        | cons begun inner =>
          cases fits : foldOverflows begun.reverse with
          | true => simp [SExpr.take, fits] at read
          | false =>
            simp only [List.cons_append, SExpr.take, fits, Bool.false_eq_true, if_false] at read ⊢
            cases inner with
            | nil =>
              obtain ⟨⟨fs, frames⟩, rest, same⟩ := Option.map_eq_some_iff.mp read
              cases same
              rw [List.reverse_cons, List.append_assoc]
              exact ih rest (fold begun.reverse :: items)
            | cons next inner => exact ih read items

/-- The tokens of one expression make it wherever they stand. -/
theorem reach_place {ts : List (Option Token)} {e : SExpr}
    (one : reach [] ts = some ([e], [])) (frames : Frames) :
    reach frames ts = some (place e frames).result := by
  cases frames with
  | nil => exact one
  | cons items outer => exact reach_inside one items outer

/-- An application that has just been opened has its parenthesis before it. -/
theorem getLast?_of_reach {ts : List (Option Token)} {es : List SExpr}
    (read : reach [] ts = some (es, inner)) (fresh : inner.head? = some []) :
    ts.getLast? = some (some .opening) := by
  rcases List.eq_nil_or_concat' ts with rfl | ⟨front, t, rfl⟩
  · cases read
    cases fresh
  · rw [reach_append] at read
    obtain ⟨⟨fs, frames⟩, _, read⟩ := Option.bind_eq_some_iff.mp read
    obtain ⟨⟨gs, last⟩, one, same⟩ := Option.map_eq_some_iff.mp read
    cases same
    rw [List.getLast?_concat]
    cases t with
    | none => cases one
    | some t =>
      rw [reach] at one
      cases t with
      | opening => rfl
      | fault f => cases one
      | atom a =>
        cases frames with
        | nil =>
          cases one
          cases fresh
        | cons items outer =>
          cases one
          cases fresh
      | closing =>
        cases frames with
        | nil => cases one
        | cons items outer =>
          cases fits : foldOverflows items.reverse with
          | true => simp [SExpr.take, fits] at one
          | false =>
            simp only [SExpr.take, fits, Bool.false_eq_true, if_false] at one
            cases outer <;> cases one <;> cases fresh

/-- The tokens of an expression in a cast. -/
def castTokens (ts : List (Option Token)) : List (Option Token) :=
  [some .opening, some (.atom (.symbol "to_real"))] ++ ts ++ [some .closing]

/-- A cast of an expression. -/
def cast (e : SExpr) : SExpr :=
  .app [.atom (.symbol "to_real"), e]

theorem normalize_cast (e : SExpr) : normalize e.cast = normalize e := by
  simp [cast, normalize, normalizeList, wrappedPlace?, symbol?]

/-- A cast covers what is in it. -/
theorem covers_cast (e : SExpr) : Covers e e.cast where
  normal := (normalize_cast e).symm
  atom same := by cases same
  polynomial reads := by
    obtain ⟨ps, -, combines⟩ := Option.bind_eq_some_iff.mp
      (by simpa [cast, polynomial?] using reads)
    simp [combine?] at combines
  overflows overflow := by simp [cast, polynomialOverflows] at overflow

theorem reach_castTokens {ts : List (Option Token)} {e : SExpr}
    (one : reach [] ts = some ([e], [])) : reach [] (castTokens ts) = some ([e.cast], []) := by
  have opened : reach [] [some .opening, some (.atom (.symbol "to_real"))] =
      some ([], [[.atom (.symbol "to_real")]]) := rfl
  have stays : fold [.atom (.symbol "to_real"), e] = e.cast := rfl
  have fits : foldOverflows [.atom (.symbol "to_real"), e] = false := rfl
  rw [castTokens, List.append_assoc, reach_append, opened, Option.bind_some, reach_append,
    reach_place one]
  simp [place, Placed.result, reach, SExpr.take, stays, fits]

/-- An expression among tokens can be put into a cast, if no parenthesis opens before it. -/
theorem exists_reach_castTokens {before ts after : List (Option Token)} {e : SExpr}
    {es : List SExpr} {last : Frames} (one : reach [] ts = some ([e], []))
    (read : reach [] (before ++ ts ++ after) = some (es, last))
    (later : before.getLast? ≠ some (some .opening)) :
    ∃ fs last', reach [] (before ++ castTokens ts ++ after) = some (fs, last') ∧
      es.map normalize = fs.map normalize ∧ AlikeFrames last last' := by
  rw [List.append_assoc, reach_append] at read
  obtain ⟨⟨gs, frames⟩, front, read⟩ := Option.bind_eq_some_iff.mp read
  obtain ⟨⟨hs, final⟩, back, same⟩ := Option.map_eq_some_iff.mp read
  cases same
  rw [reach_append, reach_place one, Option.bind_some] at back
  obtain ⟨⟨ks, final⟩, behind, same⟩ := Option.map_eq_some_iff.mp back
  cases same
  have begun : frames.head? ≠ some [] := fun fresh => later (getLast?_of_reach front fresh)
  have placed := (AlikeFrames.refl frames).place (covers_cast e) (.inl begun)
  obtain ⟨here, alike⟩ := placed.result
  obtain ⟨ls, last', behind', there, closed⟩ := alike.reach behind
  refine ⟨gs ++ ((place e.cast frames).result.1 ++ ls), last', ?_, by simp [here, there], closed⟩
  rw [List.append_assoc, reach_append, front, Option.bind_some, reach_append,
    reach_place (reach_castTokens one), Option.bind_some, behind']
  rfl

end SExpr

/-- Whether a text ends inside a comment. -/
def EndsInComment (text : String) : Prop :=
  LexMode.blank.after text.toList = .comment

instance (text : String) : Decidable (EndsInComment text) :=
  inferInstanceAs (Decidable (_ = _))

/-- The text in the middle is an expression of the whole text: it is read as one, no lexeme
reaches over its ends, and these do not stand inside comments. -/
structure IsPart (before text after : String) : Prop where
  reads : ∃ e, SExpr.parse text = .ok e
  apart : Lexeme.ofText (before ++ text ++ after) =
    Lexeme.ofText before ++ Lexeme.scan before.utf8ByteSize .blank text.toList ++
      Lexeme.scan (before ++ text).utf8ByteSize .blank after.toList
  front : ¬EndsInComment before
  back : ¬EndsInComment text

/-- One more cast in a text, around an expression that is not the first item of an
application: no parenthesis opens before it. -/
inductive AddsCast : String → String → Prop where
  | wrap {before text after : String} (part : IsPart before text after)
      (later : (Lexeme.ofText before).getLast?.map Lexeme.token ≠ some .opening) :
      AddsCast (before ++ text ++ after) (before ++ "(to_real " ++ text ++ ")" ++ after)

namespace Lexeme

/-- A parenthesis ends what has begun, unless that is a comment, a string or a quoted symbol. -/
theorem cut_append_parenthesis {cs : List Char} (sound : none ∉ cut .blank cs)
    (comment : LexMode.blank.after cs ≠ .comment) {c : Char} (parenthesis : c = '(' ∨ c = ')')
    (rest : List Char) :
    cut .blank (cs ++ c :: rest) = cut .blank cs ++ cut .blank (c :: rest) := by
  rw [cut_eq, List.mem_append, not_or] at sound
  have outside := Group.ofMode_eq_nothing sound.2
  rw [cut_append, cut_eq .blank cs, List.append_assoc]
  congr 1
  rcases parenthesis with rfl | rfl <;>
    cases mode : LexMode.blank.after cs <;>
      simp_all [cut_cons, step, begin, endsWord, Text.isAsciiBlank, Group.Inside.ofMode, finish]

end Lexeme

namespace IsPart

variable {before text after : String}

/-- The tokens of the whole text are those of its parts. -/
theorem cut_eq (part : IsPart before text after) :
    cut .blank (before ++ text ++ after).toList =
      cut .blank before.toList ++ cut .blank text.toList ++ cut .blank after.toList := by
  have same := congrArg tokens part.apart
  rwa [Lexeme.tokens_append, Lexeme.tokens_append, Lexeme.tokens_scan rfl,
    Lexeme.tokens_scan rfl] at same

/-- A cast adds its own tokens. -/
theorem cut_cast (part : IsPart before text after)
    (sound : none ∉ cut .blank (before ++ text ++ after).toList) :
    cut .blank (before ++ "(to_real " ++ text ++ ")" ++ after).toList =
      cut .blank before.toList ++ SExpr.castTokens (cut .blank text.toList) ++
        cut .blank after.toList := by
  rw [part.cut_eq, List.mem_append, List.mem_append, not_or, not_or] at sound
  have written : (before ++ "(to_real " ++ text ++ ")" ++ after).toList =
      before.toList ++ '(' :: ("to_real ".toList ++ (text.toList ++ ')' :: after.toList)) := by
    simp
  have opening : ∀ rest, cut .blank ('(' :: ("to_real ".toList ++ rest)) =
      [some .opening, some (.atom (.symbol "to_real"))] ++ cut .blank rest :=
    fun rest => Lexeme.cut_append .blank "(to_real ".toList rest
  have closing : cut .blank (')' :: after.toList) = [some .closing] ++ cut .blank after.toList :=
    Lexeme.cut_cons .blank ')' after.toList
  rw [written, Lexeme.cut_append_parenthesis sound.1.1 part.front (.inl rfl), opening,
    Lexeme.cut_append_parenthesis sound.1.2 part.back (.inr rfl), closing]
  simp [SExpr.castTokens]

end IsPart

/-- A text with one more cast is read too, and normalized to the same tree. -/
theorem AddsCast.parse {text other : String} (adds : AddsCast text other) {e : SExpr}
    (read : SExpr.parse text = .ok e) :
    ∃ f, SExpr.parse other = .ok f ∧ f.normalize = e.normalize := by
  cases adds with
  | @wrap before text after part later =>
    obtain ⟨x, one⟩ := part.reads
    rw [SExpr.parse_eq_ok_iff_reach] at one read
    have sound := SExpr.none_notMem_of_reach read
    rw [part.cut_eq] at read
    have opened : (cut .blank before.toList).getLast? ≠ some (some .opening) := by
      intro last
      obtain ⟨l, final, token⟩ : ∃ l, (Lexeme.ofText before).getLast? = some l ∧
          l.token.sound? = some .opening := by
        simpa [cut, tokens, Lexeme.ofText, List.getLast?_map] using last
      have opening : l.token = .opening := by
        cases shape : l.token <;> rw [shape] at token <;> cases token
      exact later (by rw [final, Option.map_some, opening])
    obtain ⟨fs, last, reached, normal, closed⟩ := SExpr.exists_reach_castTokens one read opened
    obtain rfl : last = [] := List.forall₂_nil_left_iff.mp closed
    obtain ⟨f, rfl, same⟩ : ∃ f, fs = [f] ∧ f.normalize = e.normalize := by
      obtain ⟨f, rfl, same⟩ := List.map_eq_singleton_iff.mp normal.symm
      exact ⟨f, rfl, same⟩
    refine ⟨f, SExpr.parse_eq_ok_iff_reach.mpr ?_, same⟩
    rw [part.cut_cast sound, reached]

/-- However many casts are put into a text, it is normalized to the same tree. -/
theorem SExpr.normalize_of_casts {text other : String}
    (casts : Relation.ReflTransGen AddsCast text other) {e : SExpr}
    (read : SExpr.parse text = .ok e) :
    ∃ f, SExpr.parse other = .ok f ∧ f.normalize = e.normalize := by
  induction casts with
  | refl => exact ⟨e, read, rfl⟩
  | tail _ adds ih =>
    obtain ⟨f, read, same⟩ := ih
    obtain ⟨g, read', same'⟩ := adds.parse read
    exact ⟨g, read', same'.trans same⟩

/-- Three casts in a polynomial, two of them inside the third, and all in an abstraction. -/
theorem SExpr.normalize_of_casts_root :
    Relation.ReflTransGen AddsCast "(lambda ((x Real)) (root-obj (+ (^ x 2) (- 2)) 1))"
        "(lambda ((x Real)) (root-obj (to_real (+ (^ x (to_real 2)) (- (to_real 2)))) 1))" ∧
      ∃ f, SExpr.parse
          "(lambda ((x Real)) (root-obj (to_real (+ (^ x (to_real 2)) (- (to_real 2)))) 1))" =
            .ok f ∧ f.normalize = .atom (.real (.root ⟨[-2, 0, 1], by decide⟩ 1)) := by
  have number : IsPart "(lambda ((x Real)) (root-obj (+ (^ x 2) (- " "2" ")) 1))" :=
    ⟨⟨.atom (.int 2 none), by decide +kernel⟩, by decide +kernel, by decide +kernel,
      by decide +kernel⟩
  have exponent : IsPart "(lambda ((x Real)) (root-obj (+ (^ x " "2" ") (- (to_real 2))) 1))" :=
    ⟨⟨.atom (.int 2 none), by decide +kernel⟩, by decide +kernel, by decide +kernel,
      by decide +kernel⟩
  have sum : IsPart "(lambda ((x Real)) (root-obj " "(+ (^ x (to_real 2)) (- (to_real 2)))"
      " 1))" :=
    ⟨⟨_, by rfl⟩, by decide +kernel, by decide +kernel, by decide +kernel⟩
  have casts : Relation.ReflTransGen AddsCast
      "(lambda ((x Real)) (root-obj (+ (^ x 2) (- 2)) 1))"
      "(lambda ((x Real)) (root-obj (to_real (+ (^ x (to_real 2)) (- (to_real 2)))) 1))" :=
    ((Relation.ReflTransGen.single (.wrap number (by decide +kernel))).tail
      (.wrap exponent (by decide +kernel))).tail (.wrap sum (by decide +kernel))
  obtain ⟨f, read, normal⟩ := normalize_of_casts casts
    (e := .app [.atom (.symbol "lambda"), .app [.app [.atom (.symbol "x"), .atom (.symbol "Real")]],
      .atom (.real (.root ⟨[-2, 0, 1], by decide⟩ 1))]) (by decide +kernel)
  exact ⟨casts, f, read, normal.trans (by decide +kernel)⟩

end SmtDialogue
