import SmtDialogue.Proofs.Bytes
import SmtDialogue.Proofs.Closed
import SmtDialogue.Proofs.Grammar
import SmtDialogue.Proofs.Patterns

/-!
# Numbers with a width

A number with a width is written by digits in base two or sixteen, or by decimal digits
and the width. Nothing compares the number with the width: it is a bit pattern of that
width when its spelling has no minus sign before a number other than zero and, where the
width is written apart, when the number is small enough. A floating-point word is joined
from such numbers, and has them as its fields when each is a pattern of its width.
-/

namespace SmtDialogue

open String (utf8Len)

namespace Numeral

theorem value_lt {base : Nat} {ds : List Nat} (below : ∀ d ∈ ds, d < base) :
    value base ds < Nat.pow base ds.length := by
  induction ds using List.reverseRecOn with
  | nil => exact Nat.one_pos
  | append_singleton ds d ih =>
    have last : d < base := below d (by simp)
    have earlier := ih fun e member => below e (List.mem_append_left _ member)
    have step : (value base ds + 1) * base ≤ Nat.pow base ds.length * base :=
      Nat.mul_le_mul_right base earlier
    have power : Nat.pow base (ds ++ [d]).length = Nat.pow base ds.length * base := by
      rw [List.length_append, List.length_singleton]
      rfl
    rw [value_append_singleton, power]
    rw [Nat.add_mul, Nat.one_mul] at step
    omega

theorem length_of_mapM_digit? {base : Nat} {cs : List Char} {ds : List Nat}
    (read : cs.mapM (digit? base) = some ds) : ds.length = cs.length ∧ ∀ d ∈ ds, d < base := by
  induction cs generalizing ds with
  | nil =>
    cases read
    exact ⟨rfl, by simp⟩
  | cons c cs ih =>
    simp only [List.mapM_cons, Option.bind_eq_bind, Option.bind_eq_some_iff] at read
    obtain ⟨d, first, others, later, same⟩ := read
    cases same
    obtain ⟨length, below⟩ := ih later
    have digit : d < base := by simpa using (Option.filter_eq_some_iff.mp first).2
    exact ⟨congrArg Nat.succ length, List.forall_mem_cons.mpr ⟨digit, below⟩⟩

theorem length_dropPlus_le (cs : List Char) : (dropPlus cs).length ≤ cs.length := by
  unfold dropPlus
  split <;> simp

/-- A numeral is no longer than its digits allow. -/
theorem readNat?_lt {base n : Nat} {cs : List Char} (positive : 0 < base)
    (read : readNat? base cs = some n) : n < Nat.pow base cs.length := by
  have short := length_dropPlus_le cs
  unfold readNat? at read
  generalize dropPlus cs = rest at read short
  split at read
  · cases read
  · cases read
  · next digits _ _ =>
    obtain ⟨ds, each, rfl⟩ := Option.map_eq_some_iff.mp read
    obtain ⟨length, below⟩ := length_of_mapM_digit? each
    have kept : ds.length ≤ cs.length := by
      rw [length]
      exact Nat.le_trans (List.length_filter_le _ _) short
    exact Nat.lt_of_lt_of_le (value_lt below) (Nat.pow_le_pow_right positive kept)

/-- A numeral is negative when a minus sign stands before a number other than zero. -/
theorem readInt?_cases {base : Nat} {cs : List Char} (positive : 0 < base) {i : Int}
    (read : readInt? base cs = some i) :
    i.natAbs < Nat.pow base cs.length ∧ (0 ≤ i ↔ (cs.head? = some '-' → i = 0)) := by
  unfold readInt? at read
  split at read
  · cases read
  · next rest _ =>
    obtain ⟨_, magnitude, rfl⟩ := Option.map_eq_some_iff.mp read
    obtain ⟨n, natural, same⟩ := Option.bind_eq_some_iff.mp magnitude
    cases same
    have small := readNat?_lt positive natural
    have longer : Nat.pow base rest.length ≤ Nat.pow base ('-' :: rest).length :=
      Nat.pow_le_pow_right positive (Nat.le_succ _)
    refine ⟨by omega, ?_⟩
    simp
  · next plain =>
    obtain ⟨n, magnitude, rfl⟩ := Option.map_eq_some_iff.mp read
    have unsigned : cs.head? ≠ some '-' := by
      intro minus
      obtain ⟨rest, rfl⟩ := List.head?_eq_some_iff.mp minus
      exact plain rest rfl
    exact ⟨readNat?_lt positive magnitude, by simp [unsigned]⟩

end Numeral

/-- A number is a bit pattern of a width. -/
def IsPattern (i : Int) (width : Nat) : Prop :=
  0 ≤ i ∧ i < (Nat.pow 2 width : Nat)

theorem IsPattern.toNat {i : Int} {width : Nat} (pattern : IsPattern i width) :
    (i.toNat : Int) = i ∧ i.toNat < Nat.pow 2 width := by
  obtain ⟨low, high⟩ := pattern
  exact ⟨Int.toNat_of_nonneg low, by omega⟩

/-- How a number with a width is written: behind `#b`, behind `#x`, or behind `bv` and
together with the width. -/
inductive SizedLiteral where
  | binary (digits : List Char)
  | hexadecimal (digits : List Char)
  | indexed (digits : List Char) (size : Nat)

namespace SizedLiteral

def digits : SizedLiteral → List Char
  | .binary digits | .hexadecimal digits | .indexed digits _ => digits

def base : SizedLiteral → Nat
  | .binary _ => 2
  | .hexadecimal _ => 16
  | .indexed _ _ => 10

/-- How many bits the literal is given. -/
def bits : SizedLiteral → Nat
  | .binary digits => utf8Len digits
  | .hexadecimal digits => utf8Len digits * 4
  | .indexed _ size => size

def number? (l : SizedLiteral) : Option Int :=
  Numeral.readInt? l.base l.digits

/-- The width keeps the lowest 32 bits of the number of bits. -/
def width (l : SizedLiteral) : UInt32 :=
  UInt32.ofNat l.bits

/-- The width follows from the digits, as long as it fits in its 32 bits. -/
def Measured : SizedLiteral → Prop
  | .binary digits => utf8Len digits < UInt32.size
  | .hexadecimal digits => utf8Len digits * 4 < UInt32.size
  | .indexed _ _ => False

/-- No minus sign stands before a number other than zero, and the number is small enough,
which does not have to be asked where the width follows from the digits. -/
structure Fits (l : SizedLiteral) : Prop where
  sign : l.digits.head? = some '-' → l.number? = some 0
  small : l.Measured ∨ ∀ i, l.number? = some i → i < (Nat.pow 2 l.width.toNat : Nat)

theorem base_pos (l : SizedLiteral) : 0 < l.base := by
  cases l <;> simp [base]

theorem toNat_width (l : SizedLiteral) : l.width.toNat = l.bits % UInt32.size :=
  UInt32.toNat_ofNat'

theorem pow_le_of_measured {l : SizedLiteral} (measured : l.Measured) :
    Nat.pow l.base l.digits.length ≤ Nat.pow 2 l.width.toNat := by
  rw [toNat_width]
  cases l with
  | binary digits =>
    rw [bits, Nat.mod_eq_of_lt measured]
    exact Nat.pow_le_pow_right Nat.two_pos (Text.length_le_utf8Len digits)
  | hexadecimal digits =>
    have long := Text.length_le_utf8Len digits
    have power : Nat.pow 16 digits.length = Nat.pow 2 (4 * digits.length) :=
      (Nat.pow_mul 2 4 digits.length).symm
    rw [bits, Nat.mod_eq_of_lt measured]
    exact Nat.le_trans (Nat.le_of_eq power) (Nat.pow_le_pow_right (by decide) (by omega))
  | indexed digits size => exact absurd measured id

/-- The number of a literal is a pattern of its width when the literal fits. -/
theorem isPattern_iff {l : SizedLiteral} {i : Int} (number : l.number? = some i) :
    IsPattern i l.width.toNat ↔ l.Fits := by
  obtain ⟨magnitude, sign⟩ := Numeral.readInt?_cases l.base_pos number
  constructor
  · rintro ⟨low, high⟩
    refine ⟨fun minus => ?_, .inr fun j same => ?_⟩
    · rw [number, sign.mp low minus]
    · rw [number] at same
      cases same
      exact high
  · rintro ⟨unsigned, small⟩
    have low : 0 ≤ i := sign.mpr fun minus => by
      have zero := unsigned minus
      rw [number] at zero
      cases zero
      rfl
    refine ⟨low, ?_⟩
    rcases small with measured | small
    · have fits := pow_le_of_measured measured
      omega
    · exact small i number

/-- The literal is written in the text: as a word at its place, or as an application. -/
inductive StandsIn (text : String) : SizedLiteral → Prop where
  | binary {before digits after : List Char}
      (split : text.toList = before ++ ('#' :: 'b' :: digits) ++ after)
      (lexeme : ⟨utf8Len before, Token.ofWord (utf8Len before) ('#' :: 'b' :: digits)⟩ ∈
        Lexeme.ofText text) : StandsIn text (.binary digits)
  | hexadecimal {before digits after : List Char}
      (split : text.toList = before ++ ('#' :: 'x' :: digits) ++ after)
      (lexeme : ⟨utf8Len before, Token.ofWord (utf8Len before) ('#' :: 'x' :: digits)⟩ ∈
        Lexeme.ofText text) : StandsIn text (.hexadecimal digits)
  | indexed {name : String} {digits : List Char} {e : SExpr} {size : Nat}
      (named : name.toList = 'b' :: 'v' :: digits)
      (sized : SExpr.natBelow? UInt32.size e = some size)
      (written : SExpr.Written [.atom (.symbol "_"), .atom (.symbol name), e]
        (Lexeme.ofText text)) : StandsIn text (.indexed digits size)

end SizedLiteral

/-- A word that has begun is what was read last. -/
def LexMode.Stands (front : List Char) : LexMode → Prop
  | .word start contents => ∃ before, front = before ++ contents.reverse ∧ start = utf8Len before
  | _ => True

/-- The lexeme is a word of the text that stands where it starts. -/
def Lexeme.IsWordOf (text : List Char) (l : Lexeme) : Prop :=
  ∃ before word after, text = before ++ word ++ after ∧
    l = ⟨utf8Len before, Token.ofWord (utf8Len before) word⟩

/-- A number with a width, or one whose width overflows. -/
def Token.IsSized (t : Token) : Prop :=
  (∃ i w, t = .atom (.int i (some w))) ∨ ∃ start, t = .fault ⟨start, .overflow⟩

namespace Lexeme

theorem stands_begin (front : List Char) (c : Char) :
    (∀ l ∈ (begin (utf8Len front) c).1, ¬l.token.IsSized) ∧
      (begin (utf8Len front) c).2.Stands (front ++ [c]) := by
  unfold begin
  split_ifs
  case neg => exact ⟨by simp, front, rfl, rfl⟩
  all_goals simp [Token.IsSized, LexMode.Stands]

theorem stands_step {front : List Char} {mode : LexMode} (stands : mode.Stands front) (c : Char)
    (cs : List Char) :
    (∀ l ∈ (step (utf8Len front) mode c).1, l.token.IsSized → l.IsWordOf (front ++ c :: cs)) ∧
      (step (utf8Len front) mode c).2.Stands (front ++ [c]) := by
  obtain ⟨none, next⟩ := stands_begin front c
  have begun : ∀ l ∈ (begin (utf8Len front) c).1, l.token.IsSized → l.IsWordOf (front ++ c :: cs) :=
    fun l member sized => absurd sized (none l member)
  cases mode with
  | blank => exact ⟨begun, next⟩
  | comment =>
    simp only [step]
    split <;> simp [LexMode.Stands]
  | string start mark contents =>
    simp only [step]
    split <;> simp [LexMode.Stands]
  | closingQuote start contents =>
    simp only [step]
    split
    · simp [LexMode.Stands]
    · exact ⟨List.forall_mem_cons.mpr ⟨by simp [ofString, Token.IsSized], begun⟩, next⟩
  | quotedSymbol start contents =>
    simp only [step]
    split <;> simp [LexMode.Stands, ofQuotedSymbol, Token.IsSized]
  | word start contents =>
    obtain ⟨before, rfl, rfl⟩ := stands
    simp only [step]
    split
    · refine ⟨List.forall_mem_cons.mpr ⟨fun _ => ?_, begun⟩, next⟩
      exact ⟨before, contents.reverse, c :: cs, rfl, rfl⟩
    · exact ⟨by simp, before, by simp, rfl⟩

theorem isWordOf_of_scan {front : List Char} {mode : LexMode} (stands : mode.Stands front)
    (cs : List Char) :
    ∀ l ∈ scan (utf8Len front) mode cs, l.token.IsSized → l.IsWordOf (front ++ cs) := by
  induction cs generalizing front mode with
  | nil =>
    cases mode with
    | word start contents =>
      obtain ⟨before, rfl, rfl⟩ := stands
      simp only [scan, finish, List.mem_singleton, forall_eq]
      exact fun _ => ⟨before, contents.reverse, [], rfl, rfl⟩
    | _ => simp [scan, finish, Token.IsSized, ofString]
  | cons c cs ih =>
    obtain ⟨here, next⟩ := stands_step stands c cs
    intro l member sized
    rcases List.mem_append.mp member with before | later
    · exact here l before sized
    · have place : utf8Len front + c.utf8Size = utf8Len (front ++ [c]) := by
        rw [String.utf8Len_append, String.utf8Len_cons, String.utf8Len_nil, Nat.zero_add]
      rw [place] at later
      simpa using ih next l later sized

end Lexeme

namespace SizedLiteral

theorem radixToken_eq_atom {base bitsPerDigit start : Nat} {word digits : List Char} {i : Int}
    {w : UInt32}
    (token : radixToken base bitsPerDigit start word digits = .atom (.int i (some w))) :
    Numeral.readInt? base digits = some i ∧ UInt32.ofNat (utf8Len digits * bitsPerDigit) = w := by
  rw [radixToken, String.utf8ByteSize_ofList] at token
  split at token
  · next value read =>
    split at token <;> cases token
    exact ⟨read, rfl⟩
  · cases token

/-- A word is a number with a width when it is a literal in base two or sixteen. -/
theorem exists_of_word {text : String} {l : Lexeme} (among : l ∈ Lexeme.ofText text) {i : Int}
    {w : UInt32} (token : l.token = .atom (.int i (some w))) :
    ∃ literal : SizedLiteral, literal.StandsIn text ∧ literal.number? = some i ∧
      literal.width = w := by
  obtain ⟨before, word, after, split, rfl⟩ :=
    @Lexeme.isWordOf_of_scan [] .blank trivial text.toList l among (.inl ⟨i, w, token⟩)
  simp only at token
  unfold Token.ofWord at token
  split at token
  · next digits =>
    obtain ⟨read, width⟩ := radixToken_eq_atom token
    rw [Nat.mul_one] at width
    exact ⟨.binary digits, .binary split among, read, width⟩
  · next digits =>
    obtain ⟨read, width⟩ := radixToken_eq_atom token
    exact ⟨.hexadecimal digits, .hexadecimal split among, read, width⟩
  · cases token
  · exact absurd (Token.atom.inj token) (Atom.ofWord_ne_sized _ i w)

/-- An application is folded into a number with a width when it is a literal with `bv`. -/
theorem exists_of_fold {items : List SExpr} {i : Int} {w : UInt32}
    (folds : SExpr.fold items = .atom (.int i (some w))) :
    ∃ name digits e size, items = [.atom (.symbol "_"), .atom (.symbol name), e] ∧
      name.toList = 'b' :: 'v' :: digits ∧ SExpr.natBelow? UInt32.size e = some size ∧
      Numeral.readInt? 10 digits = some i ∧ UInt32.ofNat size = w := by
  unfold SExpr.fold at folds
  split at folds
  · next operator args =>
    split at folds
    · next a literal =>
      cases folds
      rcases SExpr.literal?_cases literal with ⟨_, other⟩ | ⟨_, other⟩ | ⟨_, other⟩ | ⟨_, other⟩ |
        ⟨name, e, rfl, rfl, bits⟩
      case inr.inr.inr.inr =>
        obtain ⟨digits, j, size, named, number, sized, same⟩ := SExpr.exists_of_bitVector? bits
        cases same
        exact ⟨name, digits, e, size, rfl, named, sized, number, rfl⟩
      all_goals cases other
    · cases folds
  · cases folds

/-- A number with a width that comes from the lexemes of a text is a literal of the text. -/
theorem exists_of_origin {text : String} {i : Int} {w : UInt32}
    (origin : SExpr.Origin (.int i (some w)) (Lexeme.ofText text)) :
    ∃ literal : SizedLiteral, literal.StandsIn text ∧ literal.number? = some i ∧
      literal.width = w := by
  cases origin with
  | lexeme among token => exact exists_of_word among token
  | folded written folds =>
    obtain ⟨name, digits, e, size, rfl, named, sized, number, width⟩ := exists_of_fold folds
    exact ⟨.indexed digits size, .indexed named sized written, number, width⟩

/-- Every number with a width in what was read is a literal of the text. -/
theorem exists_of_read {text : String} {es : List SExpr} (read : SExpr.parseAll text = .ok es)
    {i : Int} {w : UInt32} (member : Atom.int i (some w) ∈ SExpr.atomsList es) :
    ∃ literal : SizedLiteral, literal.StandsIn text ∧ literal.number? = some i ∧
      literal.width = w :=
  exists_of_origin ((SExpr.reads_of_parseAll read).origin member)

end SizedLiteral

/-- The sign, exponent and fraction bits of a floating-point word. -/
structure HasFields (f : Ieee.Format) (p : Nat) (sign exponent fraction : Int) : Prop where
  sign : (if f.isNegative p then 1 else 0) = sign
  exponent : (f.exponent p : Int) = exponent
  fraction : (f.fraction p : Int) = fraction

namespace HasFields

open Spelling (one_shiftLeft)

variable {f : Ieee.Format} {p : Nat} {sign exponent fraction : Int}

theorem signWeight_eq (f : Ieee.Format) :
    f.signWeight = Nat.pow 2 f.fractionBits * Nat.pow 2 f.exponentBits := by
  rw [Ieee.Format.signWeight, one_shiftLeft, Nat.add_comm]
  exact Nat.pow_add 2 f.fractionBits f.exponentBits

/-- Fields are patterns of their widths. -/
theorem patterns (fields : HasFields f p sign exponent fraction) :
    IsPattern sign 1 ∧ IsPattern exponent f.exponentBits ∧
      IsPattern fraction f.fractionBits := by
  have unit : f.exponentWeight = Nat.pow 2 f.fractionBits := one_shiftLeft _
  have positive : 0 < Nat.pow 2 f.fractionBits := Nat.pow_pos (by decide)
  have weight : 0 < f.signWeight := by
    rw [signWeight_eq]
    exact Nat.mul_pos positive (Nat.pow_pos (by decide))
  have exponent : f.exponent p < Nat.pow 2 f.exponentBits := by
    apply Nat.div_lt_of_lt_mul
    rw [unit, ← signWeight_eq]
    exact Nat.mod_lt p weight
  have fraction : f.fraction p < Nat.pow 2 f.fractionBits := by
    rw [Ieee.Format.fraction, unit]
    exact Nat.mod_lt p positive
  obtain ⟨rfl, rfl, rfl⟩ := fields
  refine ⟨?_, ⟨Int.natCast_nonneg _, by exact_mod_cast exponent⟩,
    ⟨Int.natCast_nonneg _, by exact_mod_cast fraction⟩⟩
  cases f.isNegative p <;> exact ⟨by decide, by decide⟩

theorem power_eq (f : Ieee.Format) :
    Nat.pow 2 (f.fractionBits + f.exponentBits) = f.signWeight := by
  rw [signWeight_eq]
  exact Nat.pow_add 2 f.fractionBits f.exponentBits

theorem unsigned_lt {e m : Nat} (he : e < Nat.pow 2 f.exponentBits)
    (hm : m < Nat.pow 2 f.fractionBits) : e * Nat.pow 2 f.fractionBits + m < f.signWeight := by
  have step := Nat.mul_le_mul_right (Nat.pow 2 f.fractionBits) he
  rw [Nat.succ_mul] at step
  rw [signWeight_eq, Nat.mul_comm (Nat.pow 2 f.fractionBits)]
  omega

/-- Fields side by side are the fields of their word. -/
theorem of_sum {s e m : Nat} (hs : s < 2) (he : e < Nat.pow 2 f.exponentBits)
    (hm : m < Nat.pow 2 f.fractionBits) :
    HasFields f (s * Nat.pow 2 (f.fractionBits + f.exponentBits) +
      (e * Nat.pow 2 f.fractionBits + m)) s e m := by
  have unit : Nat.pow 2 f.fractionBits = f.exponentWeight := (one_shiftLeft _).symm
  have below := unsigned_lt he hm
  have weight : 0 < f.signWeight := Nat.lt_of_le_of_lt (Nat.zero_le _) below
  have positive : 0 < f.exponentWeight := unit ▸ Nat.pow_pos (by decide)
  rw [unit] at hm below
  rw [power_eq, unit, Nat.mul_comm s]
  refine ⟨?_, congrArg Nat.cast ?_, congrArg Nat.cast ?_⟩
  · rw [Ieee.Format.isNegative, Nat.mul_add_div weight, Nat.div_eq_of_lt below, Nat.add_zero,
      Nat.mod_eq_of_lt hs]
    obtain rfl | rfl : s = 0 ∨ s = 1 := by omega
    · rfl
    · rfl
  · rw [Ieee.Format.exponent, Ieee.Format.unsigned, Nat.mul_add_mod, Nat.mod_eq_of_lt below,
      Nat.mul_comm e, Nat.mul_add_div positive, Nat.div_eq_of_lt hm, Nat.add_zero]
  · have grouped : f.signWeight * s + (e * f.exponentWeight + m) =
        f.exponentWeight * (Nat.pow 2 f.exponentBits * s + e) + m := by
      rw [signWeight_eq, unit]
      ring
    rw [Ieee.Format.fraction, grouped, Nat.mul_add_mod, Nat.mod_eq_of_lt hm]

/-- Joined fields are the fields of the word when each is a pattern of its width, and the word
has no more bits than they have. -/
theorem of_joinFields (fits : f.fractionBits + f.exponentBits < 64) (hs : IsPattern sign 1)
    (he : IsPattern exponent f.exponentBits) (hm : IsPattern fraction f.fractionBits) :
    let word := SExpr.joinFields f.fractionBits (f.fractionBits + f.exponentBits) sign.toNat
      exponent.toNat fraction.toNat
    HasFields f word.toNat sign exponent fraction ∧ word.toNat < 2 * f.signWeight := by
  obtain ⟨sameSign, hs⟩ := hs.toNat
  obtain ⟨sameExponent, he⟩ := he.toNat
  obtain ⟨sameFraction, hm⟩ := hm.toNat
  have fields := of_sum hs he hm
  rw [sameSign, sameExponent, sameFraction] at fields
  have below := unsigned_lt he hm
  have one := Nat.mul_le_mul_right f.signWeight (Nat.le_of_lt_succ hs)
  intro word
  rw [Spelling.toNat_joinFields hs he hm fits]
  refine ⟨fields, ?_⟩
  rw [power_eq]
  omega

end HasFields

namespace SExpr

theorem fields?_of_fold {args : List SExpr} {a : Atom}
    (folds : fold (.atom (.symbol "fp") :: args) = .atom a) : fields? args = some a := by
  have operator : literal? "fp" args = fields? args := rfl
  simp only [fold, operator] at folds
  split at folds
  · next b literal =>
    cases folds
    exact literal
  · cases folds

/-- A word of single precision is joined from three numbers, and has them as its fields when
they are patterns. -/
theorem fold_single {args : List SExpr} {x : BitVec 32}
    (folds : fold (.atom (.symbol "fp") :: args) = .atom (.float x)) :
    ∃ s e m, args = [.atom (.int s (some 1)), .atom (.int e (some 8)), .atom (.int m (some 23))] ∧
      (HasFields Ieee.single x.toNat s e m ↔ IsPattern s 1 ∧ IsPattern e 8 ∧ IsPattern m 23) := by
  have joined := fields?_of_fold folds
  simp only [fields?] at joined
  split at joined
  · next s e eb m mb =>
    split_ifs at joined with range single double
    · obtain ⟨rfl, rfl⟩ := single
      cases joined
      refine ⟨s, e, m, rfl, HasFields.patterns, ?_⟩
      rintro ⟨hs, he, hm⟩
      obtain ⟨fields, short⟩ := HasFields.of_joinFields (f := Ieee.single) (by decide) hs he hm
      have short : (joinFields 23 31 s.toNat e.toNat m.toNat).toNat < 2 ^ 32 := short
      rw [BitVec.toNat_setWidth, Nat.mod_eq_of_lt short]
      exact fields
    · cases joined
  · cases joined

theorem fold_double {args : List SExpr} {x : BitVec 64}
    (folds : fold (.atom (.symbol "fp") :: args) = .atom (.double x)) :
    ∃ s e m, args = [.atom (.int s (some 1)), .atom (.int e (some 11)), .atom (.int m (some 52))] ∧
      (HasFields Ieee.double x.toNat s e m ↔ IsPattern s 1 ∧ IsPattern e 11 ∧ IsPattern m 52) := by
  have joined := fields?_of_fold folds
  simp only [fields?] at joined
  split at joined
  · next s e eb m mb =>
    split_ifs at joined with range single double
    · cases joined
    · obtain ⟨rfl, rfl⟩ := double
      cases joined
      refine ⟨s, e, m, rfl, HasFields.patterns, ?_⟩
      rintro ⟨hs, he, hm⟩
      exact (HasFields.of_joinFields (f := Ieee.double) (by decide) hs he hm).1
  · cases joined

/-- A number with a width is a literal of the text, and it is a bit pattern of its width when
that literal fits. A floating-point word has the three numbers it was joined from as its
fields when they are bit patterns. -/
theorem sized_iff {text : String} {es : List SExpr}
    (read : parseAll text = .ok es ∨ ∃ e, parse text = .ok e ∧ es = [e]) (args : List SExpr) :
    (∀ i w, Atom.int i (some w) ∈ atomsList es →
      ∃ l : SizedLiteral, l.StandsIn text ∧ l.number? = some i ∧ l.width = w ∧
        (IsPattern i w.toNat ↔ l.Fits)) ∧
    (∀ x : BitVec 32, fold (.atom (.symbol "fp") :: args) = .atom (.float x) →
      ∃ s e m, args = [.atom (.int s (some 1)), .atom (.int e (some 8)),
          .atom (.int m (some 23))] ∧
        (HasFields Ieee.single x.toNat s e m ↔
          IsPattern s 1 ∧ IsPattern e 8 ∧ IsPattern m 23)) ∧
    ∀ x : BitVec 64, fold (.atom (.symbol "fp") :: args) = .atom (.double x) →
      ∃ s e m, args = [.atom (.int s (some 1)), .atom (.int e (some 11)),
          .atom (.int m (some 52))] ∧
        (HasFields Ieee.double x.toNat s e m ↔
          IsPattern s 1 ∧ IsPattern e 11 ∧ IsPattern m 52) := by
  refine ⟨fun i w member => ?_, fun x => fold_single, fun x => fold_double⟩
  have all : parseAll text = .ok es := by
    rcases read with every | ⟨e, one, rfl⟩
    · exact every
    · exact parseAll_of_parse one
  obtain ⟨l, stands, number, rfl⟩ := SizedLiteral.exists_of_read all member
  exact ⟨l, stands, number, rfl, SizedLiteral.isPattern_iff number⟩

theorem sized_iff_nibbles :
    (∃ l : SizedLiteral, l.StandsIn "#x0f" ∧ l.number? = some 15 ∧ l.width = 8 ∧
      (IsPattern 15 8 ↔ l.Fits)) ∧
    ∃ s e m, [SExpr.atom (.int 1 (some 1)), .atom (.int 128 (some 8)), .atom (.int 5 (some 23))] =
        [.atom (.int s (some 1)), .atom (.int e (some 8)), .atom (.int m (some 23))] ∧
      (HasFields Ieee.single (0xc0000005#32).toNat s e m ↔
        IsPattern s 1 ∧ IsPattern e 8 ∧ IsPattern m 23) := by
  have read : parse "#x0f" = .ok (.atom (.int 15 (some 8))) := by rfl
  obtain ⟨literals, words, _⟩ := sized_iff (.inr ⟨_, read, rfl⟩)
    [.atom (.int 1 (some 1)), .atom (.int 128 (some 8)), .atom (.int 5 (some 23))]
  exact ⟨literals 15 8 (by simp [atomsList, atoms]), words 0xc0000005#32 (by decide)⟩

/-- A sign makes a pattern negative, and a field that is too long runs into the next one. -/
theorem sized_overflowing :
    parse "#b-1" = .ok (.atom (.int (-1) (some 2))) ∧ ¬IsPattern (-1) 2 ∧
      parse "(fp (_ bv0 1) (_ bv0 8) (_ bv8388608 23))" = .ok (.atom (.float 0x00800000#32)) ∧
      ¬HasFields Ieee.single (0x00800000#32).toNat 0 0 8388608 := by
  refine ⟨by rfl, ?_, by decide +kernel, ?_⟩
  · rintro ⟨low, _⟩
    exact absurd low (by decide)
  · rintro ⟨_, exponent, _⟩
    exact absurd exponent (by decide)

end SExpr

end SmtDialogue
