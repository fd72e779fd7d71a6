import SmtDialogue.Answer.Decode
import SmtDialogue.Proofs.Patterns
import SmtDialogue.Proofs.Polynomials

/-!
# Literals read back

The literal of a value is a spelling, so the reader makes one tree of it, and at
the kind of the value that tree decodes to the value again. Two kinds of reals
lose something on the way: an approximation comes back as the rational it names,
and the coefficients of a root without the zeros at their end.
-/

namespace SmtDialogue

/-- The payloads of every kind. -/
inductive Payload.Inhabits : Kind → Payload → Prop where
  | bool (b : Bool) : Inhabits .bool (.bool b)
  | bits {signed : Bool} {width : UInt32} {i : Int}
      (sized : (Kind.bits signed width).lacksSign = false)
      (inRange : Kind.wrap signed width.toNat i = i) : Inhabits (.bits signed width) (.integer i)
  | integer (i : Int) : Inhabits .integer (.integer i)
  | real (r : AlgReal) : Inhabits .real (.real r)
  | float (bits : BitVec 32) : Inhabits .float (.float bits)
  | double (bits : BitVec 64) : Inhabits .double (.double bits)
  | string (s : String) : Inhabits .string (.string s)
  | char (c : Char) : Inhabits .char (.char c)
  | constructor {name label : String} {constructors : List String} {index : Nat}
      (listed : constructors[index]? = some label) :
      Inhabits (.sort name (some constructors)) (.element (some index) label)
  | element (name label : String) : Inhabits (.sort name none) (.element none label)

theorem Payload.fits_iff {kind : Kind} {payload : Payload} :
    payload.fits kind = true ↔ Inhabits kind payload := by
  constructor
  · intro h
    simp only [fits] at h
    split at h
    · exact .bool _
    · obtain ⟨sized, inRange⟩ := Kind.wrap?_eq_some.mp (of_decide_eq_true h)
      exact .bits sized inRange
    · exact .integer _
    · exact .real _
    · exact .float _
    · exact .double _
    · exact .string _
    · exact .char _
    · exact .constructor (by simpa using h)
    · exact .element _ _
    · cases h
  · intro h
    cases h with
    | bits sized inRange => simpa [fits] using Kind.wrap?_eq_some.mpr ⟨sized, inRange⟩
    | constructor listed => simpa [fits] using listed
    | _ => rfl

namespace Spelling

def text (s : String) : Spelling :=
  .string (s.toList.flatMap Literal.bareChar)

def symbol (name : String) : Spelling :=
  if Literal.isSimpleSymbol name then bare name else .quoted name.toList

def ofReal : AlgReal → Spelling
  | .exact q | .approximate q => rational q
  | .root p index => root p index

end Spelling

/-- The spelling of the literal of a value. -/
def Value.spelling (v : Value) : Spelling :=
  match v.payload with
  | .bool b => .bare (if b then "true" else "false")
  | .integer i =>
    match v.kind.width? with
    | some width => .bits i width.toNat
    | none => .integer i
  | .real r => .ofReal r
  | .float bits => .floating Ieee.single bits.toNat
  | .double bits => .floating Ieee.double bits.toNat
  | .string s => .text s
  | .char c => .text (String.singleton c)
  | .element _ label => .symbol label

namespace Spelling

theorem chars_text (s : String) : (text s).chars = (Literal.string s).toList := by
  rw [Literal.toList_string]
  rfl

theorem chars_symbol (name : String) : (symbol name).chars = (Literal.symbol name).toList := by
  by_cases simple : Literal.isSimpleSymbol name = true <;>
    simp [symbol, simple, bare, chars, Literal.symbol]

theorem chars_ofReal (r : AlgReal) : (ofReal r).chars = r.term.toList := by
  cases r with
  | exact q => exact chars_rational q
  | approximate q => exact chars_rational q
  | root p index => exact chars_root p index

end Spelling

theorem Value.chars_spelling (v : Value) : v.spelling.chars = v.literal.toList := by
  obtain ⟨kind, payload, fits⟩ := v
  cases payload with
  | bool b => cases b <;> rfl
  | integer i =>
    cases width : kind.width? with
    | none => simpa [spelling, literal, width] using Spelling.chars_integer i
    | some w => simpa [spelling, literal, width] using Spelling.chars_bits i w.toNat
  | real r => exact Spelling.chars_ofReal r
  | float bits => exact Spelling.chars_floating Ieee.single bits.toNat
  | double bits => exact Spelling.chars_floating Ieee.double bits.toNat
  | string s => exact Spelling.chars_text s
  | char c => exact Spelling.chars_text (String.singleton c)
  | element _ label => exact Spelling.chars_symbol label

namespace Literal

theorem inWord_of_isSymbolChar {c : Char} (h : isSymbolChar c = true) :
    (Lexeme.endsWord c = false ∧ c ≠ '|') ∧ c ≠ '#' ∧ c ≠ ':' := by
  refine ⟨⟨?_, ?_⟩, ?_, ?_⟩
  · cases ended : Lexeme.endsWord c with
    | false => rfl
    | true =>
      rcases Lexeme.endsWord_cases ended with
        rfl | rfl | rfl | rfl | rfl | rfl | rfl | rfl | rfl <;> exact absurd h (by decide)
  all_goals
    rintro rfl
    exact absurd h (by decide)

/-- A simple symbol is a bare word. -/
theorem isBare_of_isSimpleSymbol {name : String} (h : isSimpleSymbol name = true) :
    Spelling.IsBare name.toList := by
  simp only [isSimpleSymbol, Bool.and_eq_true, Bool.not_eq_true', List.isEmpty_eq_false_iff,
    List.all_eq_true, Option.any_eq_false] at h
  obtain ⟨⟨nonempty, plain⟩, lead⟩ := h
  refine ⟨⟨nonempty, fun c hc => (inWord_of_isSymbolChar (plain c hc)).1⟩, ?_, ?_, ?_⟩
  · intro hash
    exact (inWord_of_isSymbolChar (plain _ (List.mem_of_mem_head? hash))).2.1 rfl
  · intro colon
    exact (inWord_of_isSymbolChar (plain _ (List.mem_of_mem_head? colon))).2.2 rfl
  · intro c hc
    cases digit : Numeral.isDigit c with
    | false => rfl
    | true =>
      have sign : c ≠ '-' := Numeral.ne_of_isDigit digit (by decide)
      -- the same character stands behind all the minus signs
      have behind : (name.toList.dropWhile (· == '-')).head? = some c := by
        generalize name.toList = cs at hc
        simp only [leading?] at hc
        split at hc
        · next rest =>
          cases rest with
          | nil => simp at hc
          | cons d rest =>
            obtain rfl : d = c := by simpa using hc
            simp [sign]
        · cases cs with
          | nil => simp at hc
          | cons d rest =>
            obtain rfl : d = c := by simpa using hc
            simp [sign]
      exact absurd digit (by simpa using lead c behind)

end Literal

namespace Spelling

theorem proper_symbol {name : String} (bar : '|' ∉ name.toList) : (symbol name).Proper := by
  rw [symbol]
  split
  · next simple => exact proper_bare (Literal.isBare_of_isSimpleSymbol simple)
  · exact bar

theorem tree_symbol (name : String) : (symbol name).tree = .atom (.symbol name) := by
  rw [symbol]
  split
  · rfl
  · simp [tree]

theorem tree_text (s : String) : (text s).tree = .atom (.string s) := by
  simp [text, tree, Literal.decode_bareChars]

theorem proper_ofReal (r : AlgReal) : (ofReal r).Proper := by
  cases r with
  | exact q => exact proper_rational q
  | approximate q => exact proper_rational q
  | root p index => exact proper_root p index

end Spelling

/-- The real that the literal of a real names. -/
def AlgReal.settled : AlgReal → AlgReal
  | .exact q | .approximate q => .exact q
  | .root p index => .root p.reduced index

theorem Spelling.tree_ofReal (r : AlgReal) : (ofReal r).tree = .atom (.real r.settled) := by
  cases r with
  | exact q => exact tree_rational q
  | approximate q => exact tree_rational q
  | root p index => exact tree_root p index

def Payload.settled : Payload → Payload
  | .real r => .real r.settled
  | payload => payload

theorem Payload.fits_settled {kind : Kind} {payload : Payload} (h : payload.fits kind = true) :
    payload.settled.fits kind = true := by
  rw [fits_iff] at h ⊢
  cases h with
  | real r => exact .real r.settled
  | bits sized inRange => exact .bits sized inRange
  | constructor listed => exact .constructor listed
  | bool b => exact .bool b
  | integer i => exact .integer i
  | float bits => exact .float bits
  | double bits => exact .double bits
  | string s => exact .string s
  | char c => exact .char c
  | element name label => exact .element name label

namespace Value

/-- The value that the literal of a value names. -/
def settled (v : Value) : Value := ⟨v.kind, v.payload.settled, Payload.fits_settled v.fits⟩

/-- Values whose literals are read back: widths are positive, labels have no bar and
constructors stand at their first position. -/
structure Readable (v : Value) : Prop where
  width : v.kind.width? ≠ some 0
  label : ∀ index label, v.payload = .element index label →
    '|' ∉ label.toList ∧ index = v.kind.constructorIndex? label

theorem proper_spelling {v : Value} (positive : v.kind.width? ≠ some 0)
    (bar : ∀ index label, v.payload = .element index label → '|' ∉ label.toList) :
    v.spelling.Proper := by
  obtain ⟨kind, payload, fits⟩ := v
  cases payload with
  | bool b => cases b <;> exact Spelling.proper_bare (by decide)
  | integer i =>
    cases width : kind.width? with
    | none => simpa [spelling, width] using Spelling.proper_integer i
    | some w =>
      have nonzero : w ≠ 0 := fun zero => positive (by rw [width, zero])
      have some : 0 < w.toNat := UInt32.pos_iff_ne_zero.mpr nonzero
      simpa [spelling, width] using Spelling.proper_bits i some w.toNat_lt_size
  | real r => exact Spelling.proper_ofReal r
  | float bits => exact Spelling.proper_floating (by decide) (by decide) (by decide) bits.toNat
  | double bits => exact Spelling.proper_floating (by decide) (by decide) (by decide) bits.toNat
  | string s => trivial
  | char c => trivial
  | element index label => exact Spelling.proper_symbol (bar index label rfl)

theorem Readable.proper {v : Value} (readable : v.Readable) : v.spelling.Proper :=
  proper_spelling readable.width fun index label same => (readable.label index label same).1

/-- An atom decodes to the value whose payload it stands for. -/
theorem decode_atom {kind : Kind} {a : Atom} {read payload : Payload}
    (fits : payload.fits kind = true) (reads : payloadOfAtom kind a = .ok read)
    (normal : read.normalize? kind = some payload) :
    decode kind (.atom a) = .ok ⟨kind, payload, fits⟩ := by
  have made : ofPayload kind read = .ok ⟨kind, payload, fits⟩ := ofPayload_eq_ok.mpr ⟨rfl, normal⟩
  simp [decode, reads, made]

/-- The atom that the literal of a value reads as stands for what the literal names. -/
theorem decode_spelling {v : Value} (readable : v.Readable) :
    decode v.kind v.spelling.tree = .ok v.settled := by
  obtain ⟨kind, payload, fits⟩ := v
  have settled := Payload.fits_settled fits
  cases Payload.fits_iff.mp fits with
  | bool b => cases b <;> rfl
  | @bits signed width i sized inRange =>
    have wrapped := Kind.wrap_emod signed width.toNat i
    rw [inRange] at wrapped
    have normal := Kind.wrap?_eq_some.mpr ⟨sized, wrapped⟩
    have read : payloadOfAtom (.bits signed width)
        (.int (i % (1 <<< width.toNat : Nat)).toNat (some width)) =
        .ok (.integer (i % (1 <<< width.toNat : Nat)).toNat) := by
      simp [payloadOfAtom]
    have tree := Spelling.tree_pattern width (i % (1 <<< width.toNat : Nat)).toNat
    exact tree ▸ decode_atom settled read (congrArg (Option.map Payload.integer) normal)
  | integer i => exact Spelling.tree_integer i ▸ decode_atom settled rfl rfl
  | real r => exact Spelling.tree_ofReal r ▸ decode_atom settled rfl rfl
  | float bits => exact Spelling.tree_single bits ▸ decode_atom settled rfl rfl
  | double bits => exact Spelling.tree_double bits ▸ decode_atom settled rfl rfl
  | string s => exact Spelling.tree_text s ▸ decode_atom settled rfl rfl
  | char c =>
    have read : payloadOfAtom .char (.string (String.singleton c)) = .ok (.char c) := by
      simp [payloadOfAtom]
    exact Spelling.tree_text (String.singleton c) ▸ decode_atom settled read rfl
  | @constructor name label constructors index listed =>
    have first := (readable.label (some index) label rfl).2
    have read : payloadOfAtom (.sort name (some constructors)) (.symbol label) =
        .ok (.element (some index) label) := by
      simp only [payloadOfAtom]
      rw [← first]
    exact Spelling.tree_symbol label ▸ decode_atom settled read rfl
  | element name label => exact Spelling.tree_symbol label ▸ decode_atom settled rfl rfl

/-- The literal of every value is read, and what it says at the kind of the value is
that value: only approximations become exact, and the coefficients of a root lose the
zeros at their end. -/
theorem decode_literal {v : Value} (readable : v.Readable) :
    ∃ e, SExpr.parse v.literal = .ok e ∧ decode v.kind e = .ok v.settled :=
  ⟨v.spelling.tree,
    Spelling.parse_of_chars v.spelling readable.proper (chars_spelling v).symm,
    decode_spelling readable⟩

/-- A root whose first and last coefficients are zero loses only the last one. -/
theorem decode_literal_root :
    (ofReal (.root ⟨[0, -1, 1, 0], by decide⟩ 2)).Readable ∧
      ∃ e, SExpr.parse (ofReal (.root ⟨[0, -1, 1, 0], by decide⟩ 2)).literal = .ok e ∧
        decode .real e = .ok (ofReal (.root ⟨[0, -1, 1], by decide⟩ 2)) := by
  have readable : (ofReal (.root ⟨[0, -1, 1, 0], by decide⟩ 2)).Readable := by
    refine ⟨by decide, ?_⟩
    intro index label same
    cases same
  exact ⟨readable, decode_literal readable⟩

end Value

end SmtDialogue
