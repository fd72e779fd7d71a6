import SmtDialogue.Proofs.Cursor
import SmtDialogue.Proofs.Escapes
import SmtDialogue.Proofs.Results
import SmtDialogue.Proofs.Words

/-!
# Positions between characters

At a position between two characters a slice, a byte and a move are what the characters
from there on say they are. Decoding by slices is decoding of characters, since only
characters of one byte can name another one.
-/

namespace SmtDialogue.Cursor

open String (utf8EncodeChar utf8Len)
open Text (bytes byte cut? isOneOf)

theorem ok_bind {ε α β : Type} (a : α) (f : α → Except ε β) : (Except.ok a >>= f) = f a := rfl

theorem sliceTo_eq {cs front back : List Char} (split : cs = front ++ back) {n : Nat}
    (place : n = utf8Len front) : sliceTo n cs = .ok front := by
  rw [sliceTo, Text.cut?_eq_some.mpr ⟨split, place⟩]

theorem sliceFrom_eq {cs front back : List Char} (split : cs = front ++ back) {n : Nat}
    (place : n = utf8Len front) : sliceFrom n cs = .ok back := by
  rw [sliceFrom, Text.cut?_eq_some.mpr ⟨split, place⟩]

theorem find?_eq_none {c : Char} {cs : List Char} (absent : c ∉ cs) : find? c cs = none :=
  if_neg absent

theorem takeWhile_until {c : Char} {front : List Char} (absent : c ∉ front) (back : List Char) :
    (front ++ c :: back).takeWhile (· != c) = front := by
  rw [List.takeWhile_append_of_pos, List.takeWhile_cons_of_neg (by simp), List.append_nil]
  intro d member
  simpa using ne_of_mem_of_not_mem member absent

theorem find?_append {c : Char} {front : List Char} (absent : c ∉ front) (back : List Char) :
    find? c (front ++ c :: back) = some (utf8Len front) := by
  rw [find?, if_pos (by simp), takeWhile_until absent]

section

variable {text : String} {front back : List Char}

theorem isValid_of_split (split : text.toList = front ++ back) :
    (⟨utf8Len front⟩ : String.Pos.Raw).IsValid text :=
  Text.isValid_iff.mpr ⟨front, back, split, rfl⟩

theorem size_of_split (split : text.toList = front ++ back) :
    text.utf8ByteSize = utf8Len front + utf8Len back := by
  rw [← Text.utf8Len_toList, split, String.utf8Len_append]

theorem advance_eq {part : List Char} (split : text.toList = front ++ (part ++ back)) {n : Nat}
    (length : n = utf8Len part) :
    advance text (utf8Len front) n = .ok (utf8Len (front ++ part)) := by
  have size := size_of_split split
  rw [String.utf8Len_append] at size
  rw [advance, if_pos (by omega), length, String.utf8Len_append]

theorem advance_one {c : Char} (split : text.toList = front ++ c :: back)
    (one : c.utf8Size = 1) : advance text (utf8Len front) 1 = .ok (utf8Len (front ++ [c])) := by
  have part : text.toList = front ++ ([c] ++ back) := split
  exact advance_eq part (by rw [String.utf8Len_cons, one]; rfl)

theorem report_eq {α : Type} (split : text.toList = front ++ back) (cause : ReadCause) :
    report (α := α) text (utf8Len front) cause =
      .error (.malformed ⟨⟨utf8Len front, cause⟩, text⟩) := by
  rw [report, if_pos (Text.isValid_iff_cut?.mp (isValid_of_split split))]

theorem bytesFrom_eq (split : text.toList = front ++ back) :
    bytesFrom text (utf8Len front) = bytes back := by
  rw [bytesFrom, Text.toList_data, split, Text.drop_bytes]

theorem peek?_nil (split : text.toList = front ++ []) : peek? text (utf8Len front) = none := by
  rw [peek?, bytesFrom_eq split]
  rfl

/-- What stands at a position is a byte of the character there. -/
theorem peek?_cons {c : Char} (split : text.toList = front ++ c :: back) :
    ∃ b ∈ utf8EncodeChar c, peek? text (utf8Len front) = some b := by
  obtain ⟨b, bs, encoded⟩ := List.exists_cons_of_ne_nil (Text.encode_ne_nil c)
  refine ⟨b, by simp [encoded], ?_⟩
  rw [peek?, bytesFrom_eq split, Text.bytes_cons, encoded]
  rfl

theorem peek?_eq_byte (split : text.toList = front ++ back) {d : Char} (ascii : d.toNat < 128) :
    peek? text (utf8Len front) = some (byte d) ↔ back.head? = some d := by
  cases back with
  | nil => simp [peek?_nil split]
  | cons c back =>
    obtain ⟨b, member, peeked⟩ := peek?_cons split
    rw [peeked, Option.some.injEq, Text.eq_byte_iff ascii member]
    simp

end

/-- The first `\u` of a string, and what decoding does in front of it. -/
theorem findEscape?_cases (cs : List Char) :
    (findEscape? cs = none ∧ Escape.decode cs = cs) ∨
      ∃ plain tail, cs = plain ++ '\\' :: 'u' :: tail ∧
        findEscape? cs = some (utf8Len plain) ∧
        Escape.decode cs = plain ++ Escape.decode ('\\' :: 'u' :: tail) := by
  fun_induction findEscape? cs with
  | case1 tail => exact .inr ⟨[], tail, rfl, rfl, rfl⟩
  | case2 c rest other ih =>
    have goes : Escape.decode (c :: rest) = c :: Escape.decode rest := by
      rw [Escape.decode]
      exact other
    rcases ih with ⟨none, same⟩ | ⟨plain, tail, rfl, some, decoded⟩
    · exact .inl ⟨by rw [none]; rfl, by rw [goes, same]⟩
    · refine .inr ⟨c :: plain, tail, rfl, ?_, ?_⟩
      · rw [some]
        rfl
      · rw [goes, decoded]
        rfl
  | case3 => exact .inl ⟨rfl, by rw [Escape.decode]⟩

/-- Only characters of one byte name a character. -/
theorem utf8Len_of_character? {cs : List Char} {c : Char} (read : Escape.character? cs = some c) :
    utf8Len cs = cs.length := by
  have digits : ∀ ds : List Char, ∀ d : Char,
      (if ds.isEmpty then none else (ds.mapM (Numeral.digit? 16)).bind fun ns =>
        Escape.scalar? (Numeral.value 16 ns)) = some d → utf8Len ds = ds.length := by
    intro ds d read
    split at read
    · cases read
    · obtain ⟨ns, digits, _⟩ := Option.bind_eq_some_iff.mp read
      rw [← String.utf8ByteSize_ofList, Numeral.utf8ByteSize_ofList_digits digits]
  unfold Escape.character? at read
  split at read
  · next rest =>
    have rest := digits rest c read
    rw [String.utf8Len_cons, rest, List.length_cons]
    rfl
  · exact digits cs c read

theorem takeWhile_of_absent {c : Char} {cs : List Char} (absent : c ∉ cs) :
    cs.takeWhile (· != c) = cs := by
  rw [List.takeWhile_eq_self_iff]
  intro d member
  simpa using ne_of_mem_of_not_mem member absent

theorem named_braced (braced : List Char) :
    named ('\x7b' :: braced) = .ok (Escape.named? ('\x7b' :: braced)) := by
  rw [named, Escape.named?]
  by_cases closed : '\x7d' ∈ braced
  · obtain ⟨digits, rest, rfl, absent⟩ := List.eq_append_cons_of_mem closed
    simp only [find?_append absent, sliceTo_eq rfl rfl, takeWhile_until absent]
    rw [if_pos (by simp), Except.map]
    cases read : Escape.character? digits with
    | none => rfl
    | some c => rw [utf8Len_of_character? read]
  · simp [find?_eq_none closed, takeWhile_of_absent closed]

/-- Four bytes name a character when four characters do. -/
theorem character?_cut (tail : List Char) :
    ((cut? 4 tail).bind fun parts => (Escape.character? parts.1).map fun c => (c, 4)) =
      if (tail.take 4).length = 4 then
        (Escape.character? (tail.take 4)).map fun c => (c, 4)
      else none := by
  ext ⟨c, used⟩
  simp only [Option.bind_eq_some_iff, Option.map_eq_some_iff, Prod.exists, Text.cut?_eq_some]
  constructor
  · rintro ⟨front, back, ⟨rfl, four⟩, d, read, same⟩
    have short : front.length = 4 := by rw [← utf8Len_of_character? read, ← four]
    rw [List.take_left' short, if_pos short, read]
    simpa using same
  · intro read
    split at read
    · next short =>
      obtain ⟨d, read, same⟩ := Option.map_eq_some_iff.mp read
      refine ⟨tail.take 4, tail.drop 4, ⟨(List.take_append_drop 4 tail).symm, ?_⟩, d, read, same⟩
      rw [utf8Len_of_character? read, short]
    · cases read

theorem named_eq (tail : List Char) : named tail = .ok (Escape.named? tail) := by
  by_cases braces : ∃ braced, tail = '\x7b' :: braced
  · obtain ⟨braced, rfl⟩ := braces
    exact named_braced braced
  · have plain : ∀ braced, tail = '\x7b' :: braced → False :=
      fun braced same => braces ⟨braced, same⟩
    rw [named, Escape.named?, character?_cut]
    · exact plain
    · exact plain

/-- What names a character is as long in bytes as in characters. -/
theorem utf8Len_take_named {tail : List Char} {c : Char} {used : Nat}
    (read : Escape.named? tail = some (c, used)) : utf8Len (tail.take used) = used := by
  unfold Escape.named? at read
  split at read
  · next braced =>
    simp only at read
    split at read
    · next shorter =>
      have closed : '\x7d' ∈ braced := by
        by_contra absent
        rw [takeWhile_of_absent absent] at shorter
        exact Nat.lt_irrefl _ shorter
      obtain ⟨digits, rest, rfl, absent⟩ := List.eq_append_cons_of_mem closed
      rw [takeWhile_until absent] at read
      obtain ⟨d, named, same⟩ := Option.map_eq_some_iff.mp read
      cases same
      have taken : ('\x7b' :: (digits ++ '\x7d' :: rest)).take (digits.length + 2) =
          '\x7b' :: (digits ++ ['\x7d']) := by
        rw [List.take_succ_cons, List.take_length_add_append]
        rfl
      rw [taken, String.utf8Len_cons, String.utf8Len_append, utf8Len_of_character? named]
      rfl
    · cases read
  · simp only at read
    split at read
    · next four =>
      obtain ⟨d, named, same⟩ := Option.map_eq_some_iff.mp read
      cases same
      rw [utf8Len_of_character? named, four]
    · cases read

theorem unescape_eq {turns : Nat} {cs : List Char} (enough : cs.length < turns) :
    unescape turns cs = .ok (Escape.decode cs) := by
  induction turns generalizing cs with
  | zero => exact absurd enough (Nat.not_lt_zero _)
  | succ turns ih =>
    rw [unescape]
    rcases findEscape?_cases cs with ⟨none, same⟩ | ⟨plain, tail, rfl, some, decoded⟩
    · rw [none, same]
    · have before : sliceTo (utf8Len plain) (plain ++ '\\' :: 'u' :: tail) = .ok plain :=
        sliceTo_eq rfl rfl
      have parts : plain ++ '\\' :: 'u' :: tail = plain ++ ['\\', 'u'] ++ tail := by simp
      have behind : sliceFrom (utf8Len plain + 2) (plain ++ '\\' :: 'u' :: tail) = .ok tail :=
        sliceFrom_eq parts (by rw [String.utf8Len_append]; rfl)
      simp only [List.length_append, List.length_cons] at enough
      rw [some, decoded, Escape.decode]
      simp only [before, behind, named_eq, ok_bind]
      cases named : Escape.named? tail with
      | none =>
        rw [ih (by omega)]
        rfl
      | some p =>
        have cut : sliceFrom p.2 tail = .ok (tail.drop p.2) :=
          sliceFrom_eq (List.take_append_drop p.2 tail).symm (utf8Len_take_named named).symm
        have shorter : (tail.drop p.2).length < turns := by
          rw [List.length_drop]
          omega
        simp only [cut, ih shorter, ok_bind]
        rfl

end SmtDialogue.Cursor
