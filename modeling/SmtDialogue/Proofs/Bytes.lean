import Mathlib

/-!
# Bytes of a text

Solver text is searched byte by byte and cut at offsets in bytes. A character of ASCII is
one byte, and no byte of any other character is the byte of one of ASCII. So a search for
characters of ASCII never stops inside a character, and a text can be cut where it stops.
-/

namespace SmtDialogue.Text

open String (utf8EncodeChar utf8Len)

/-- The bytes of characters. -/
def bytes (cs : List Char) : List UInt8 :=
  cs.flatMap utf8EncodeChar

@[simp] theorem bytes_nil : bytes [] = [] := rfl

@[simp] theorem bytes_cons (c : Char) (cs : List Char) :
    bytes (c :: cs) = utf8EncodeChar c ++ bytes cs :=
  List.flatMap_cons

@[simp] theorem bytes_append (cs ds : List Char) : bytes (cs ++ ds) = bytes cs ++ bytes ds :=
  List.flatMap_append

@[simp] theorem length_bytes (cs : List Char) : (bytes cs).length = utf8Len cs := by
  induction cs with
  | nil => rfl
  | cons c cs ih =>
    rw [bytes_cons, List.length_append, String.length_utf8EncodeChar, ih, String.utf8Len_cons,
      Nat.add_comm]

theorem length_le_utf8Len (cs : List Char) : cs.length ≤ utf8Len cs := by
  induction cs with
  | nil => exact Nat.le_refl 0
  | cons c cs ih => exact Nat.add_le_add ih c.utf8Size_pos

theorem utf8Len_snoc {c : Char} (one : c.utf8Size = 1) (cs : List Char) :
    utf8Len (cs ++ [c]) = utf8Len cs + 1 := by
  rw [String.utf8Len_append, String.utf8Len_cons, one]
  rfl

theorem toList_data (text : String) : text.toByteArray.data.toList = bytes text.toList := by
  rw [← String.utf8Encode_toList, List.utf8Encode, List.toList_data_toByteArray, bytes]

theorem utf8Len_toList (text : String) : utf8Len text.toList = text.utf8ByteSize := by
  rw [← String.utf8ByteSize_ofList, String.ofList_toList]

theorem drop_bytes (front back : List Char) :
    (bytes (front ++ back)).drop (utf8Len front) = bytes back := by
  rw [bytes_append, ← length_bytes, List.drop_left]

/-- The byte of a character of ASCII. -/
def byte (c : Char) : UInt8 :=
  UInt8.ofNat c.toNat

theorem toNat_byte {c : Char} (ascii : c.toNat < 128) : (byte c).toNat = c.toNat :=
  UInt8.toNat_ofNat_of_lt' (Nat.lt_trans ascii (by decide))

theorem encode_of_ascii {c : Char} (ascii : c.toNat < 128) : utf8EncodeChar c = [byte c] :=
  if_pos (Nat.le_of_lt_succ ascii)

/-- Outside ASCII every byte has its highest bit set. -/
theorem le_of_mem_encode {c : Char} (other : 128 ≤ c.toNat) {b : UInt8}
    (member : b ∈ utf8EncodeChar c) : 128 ≤ b.toNat := by
  have large : ¬c.val.toNat ≤ 127 := Nat.not_le.mpr other
  have marked : ∀ n m, 128 ≤ m → n + m < 256 → 128 ≤ (UInt8.ofNat (n + m)).toNat := by
    intro n m low high
    rw [UInt8.toNat_ofNat_of_lt' high]
    omega
  simp only [utf8EncodeChar, if_neg large] at member
  split_ifs at member <;>
    simp only [List.mem_cons, List.not_mem_nil, or_false] at member <;>
    rcases member with rfl | rfl | rfl | rfl <;>
    exact marked _ _ (by decide) (by omega)

theorem encode_ne_nil (c : Char) : utf8EncodeChar c ≠ [] := by
  rw [← List.length_pos_iff, String.length_utf8EncodeChar]
  exact c.utf8Size_pos

/-- A byte of a character of ASCII occurs in that character only. -/
theorem eq_byte_iff {c d : Char} (ascii : d.toNat < 128) {b : UInt8}
    (member : b ∈ utf8EncodeChar c) : b = byte d ↔ c = d := by
  by_cases small : c.toNat < 128
  · rw [encode_of_ascii small, List.mem_singleton] at member
    subst member
    constructor
    · intro same
      have number := congrArg UInt8.toNat same
      rw [toNat_byte small, toNat_byte ascii] at number
      exact Char.toNat_inj.mp number
    · rintro rfl
      rfl
  · have large := le_of_mem_encode (Nat.le_of_not_lt small) member
    constructor
    · rintro rfl
      rw [toNat_byte ascii] at large
      omega
    · rintro rfl
      exact absurd ascii small

/-- Whether a byte is one of some characters of ASCII. -/
def isOneOf (set : List Char) (b : UInt8) : Bool :=
  set.any (b = byte ·)

/-- The bytes of a character are among those of some characters of ASCII when the character
is one of them. -/
theorem isOneOf_iff {set : List Char} (ascii : ∀ d ∈ set, d.toNat < 128) {c : Char} {b : UInt8}
    (member : b ∈ utf8EncodeChar c) : isOneOf set b = true ↔ c ∈ set := by
  simp only [isOneOf, List.any_eq_true, decide_eq_true_eq]
  constructor
  · rintro ⟨d, inside, same⟩
    rwa [(eq_byte_iff (ascii d inside) member).mp same]
  · intro inside
    exact ⟨c, inside, (eq_byte_iff (ascii c inside) member).mpr rfl⟩

/-- A search over bytes that tells characters apart stops between two of them. -/
theorem takeWhile_bytes {p : Char → Bool} {q : UInt8 → Bool}
    (agree : ∀ c, ∀ b ∈ utf8EncodeChar c, q b = p c) (cs : List Char) :
    (bytes cs).takeWhile q = bytes (cs.takeWhile p) := by
  induction cs with
  | nil => rfl
  | cons c cs ih =>
    rw [bytes_cons, List.takeWhile_cons]
    split
    · next goes =>
      rw [List.takeWhile_append_of_pos fun b member => (agree c b member).trans goes, ih,
        bytes_cons]
    · next stops =>
      obtain ⟨b, bs, encoded⟩ := List.exists_cons_of_ne_nil (encode_ne_nil c)
      have first := agree c b (by rw [encoded]; exact List.mem_cons_self)
      rw [encoded, List.cons_append, List.takeWhile_cons_of_neg (by simp [first, stops]), bytes_nil]

/-- Cuts characters at an offset in bytes, which has to lie between two of them. -/
def cut? : Nat → List Char → Option (List Char × List Char)
  | 0, cs => some ([], cs)
  | _ + 1, [] => none
  | n + 1, c :: cs =>
    if n + 1 < c.utf8Size then none
    else (cut? (n + 1 - c.utf8Size) cs).map fun parts => (c :: parts.1, parts.2)

theorem cut?_eq_some {n : Nat} {cs front back : List Char} :
    cut? n cs = some (front, back) ↔ cs = front ++ back ∧ n = utf8Len front := by
  induction cs generalizing n front with
  | nil =>
    cases n with
    | zero => cases front <;> simp [cut?, eq_comm]
    | succ n => cases front <;> simp [cut?]
  | cons c cs ih =>
    have wide := c.utf8Size_pos
    cases n with
    | zero =>
      cases front with
      | nil => simp [cut?, eq_comm]
      | cons d front =>
        have wide := d.utf8Size_pos
        simp [cut?]
        omega
    | succ n =>
      rw [cut?]
      split
      · next inside =>
        refine iff_of_false (by simp) ?_
        rintro ⟨split, length⟩
        cases front with
        | nil => simp at length
        | cons d front =>
          cases split
          rw [String.utf8Len_cons] at length
          omega
      · next outside =>
        simp only [Option.map_eq_some_iff, Prod.mk.injEq, Prod.exists]
        constructor
        · rintro ⟨front, back, cut, rfl, rfl⟩
          obtain ⟨rfl, length⟩ := ih.mp cut
          refine ⟨rfl, ?_⟩
          rw [String.utf8Len_cons]
          omega
        · rintro ⟨split, length⟩
          cases front with
          | nil => simp at length
          | cons d front =>
            cases split
            rw [String.utf8Len_cons] at length
            exact ⟨front, back, ih.mpr ⟨rfl, by omega⟩, rfl, rfl⟩

/-- The offsets between characters are the valid positions of the text. -/
theorem isValid_iff {text : String} {n : Nat} :
    (⟨n⟩ : String.Pos.Raw).IsValid text ↔
      ∃ front back, text.toList = front ++ back ∧ n = utf8Len front := by
  rw [String.Pos.Raw.isValid_iff_exists_append]
  constructor
  · rintro ⟨front, back, rfl, place⟩
    refine ⟨front.toList, back.toList, String.toList_append, ?_⟩
    rw [utf8Len_toList]
    exact congrArg String.Pos.Raw.byteIdx place
  · rintro ⟨front, back, split, rfl⟩
    refine ⟨String.ofList front, String.ofList back, ?_, ?_⟩
    · rw [← String.ofList_append, ← split, String.ofList_toList]
    · rw [String.rawEndPos, String.utf8ByteSize_ofList]

theorem isValid_iff_cut? {text : String} {n : Nat} :
    (⟨n⟩ : String.Pos.Raw).IsValid text ↔ (cut? n text.toList).isSome = true := by
  rw [isValid_iff, Option.isSome_iff_exists, Prod.exists]
  simp only [cut?_eq_some]

end SmtDialogue.Text
