import SmtDialogue.Proofs.Literals

/-!
# Values that are read back exactly

Of most values the literal says the value again. Where it does, the literal is a
spelling: widths without bits and labels with a bar in them never come back.
-/

namespace SmtDialogue

namespace Value

/-- The literal of the value says the value again. -/
def Exact (v : Value) : Prop :=
  ∃ e, SExpr.parse v.literal = .ok e ∧ decode v.kind e = .ok v

theorem exact_of_readable {v : Value} (readable : v.Readable) (settled : v.settled = v) :
    v.Exact := by
  have parsed := Spelling.parse_of_chars v.spelling readable.proper v.chars_spelling.symm
  exact ⟨v.spelling.tree, parsed, by rw [decode_spelling readable, settled]⟩

theorem exists_atom_of_decode {kind : Kind} {e : SExpr} {v : Value} (h : decode kind e = .ok v) :
    ∃ a, e = .atom a := by
  cases e with
  | atom a => exact ⟨a, rfl⟩
  | app items => cases h

theorem payload_of_decode {kind : Kind} {a : Atom} {v : Value}
    (h : decode kind (.atom a) = .ok v) :
    ∃ read, payloadOfAtom kind a = .ok read ∧ read.normalize? kind = some v.payload := by
  unfold decode at h
  cases reads : payloadOfAtom kind a with
  | error reason => simp [reads] at h
  | ok payload =>
    simp only [reads] at h
    split at h <;> cases h
    next made => exact ⟨payload, rfl, (ofPayload_eq_ok.mp made).2⟩

/-- A symbol says no label but its own. -/
theorem label_of_decode {kind : Kind} {name label : String} {v : Value} {index : Option Nat}
    (h : decode kind (.atom (.symbol name)) = .ok v) (payload : v.payload = .element index label) :
    label = name := by
  obtain ⟨read, reads, same⟩ := payload_of_decode h
  rw [payload] at same
  cases kind with
  | bool =>
    simp only [payloadOfAtom] at reads
    split at reads
    · cases reads
      cases same
    · split at reads
      · cases reads
        cases same
      · cases reads
  | sort sort constructors =>
    cases constructors with
    | none =>
      cases reads
      cases same
      rfl
    | some constructors =>
      simp only [payloadOfAtom] at reads
      split at reads
      · cases reads
        cases same
        rfl
      · cases reads
  | _ => cases reads

end Value

namespace Spelling

/-- Between bars, a name with a bar in it does not read as itself. -/
theorem parse_barred {name : String} (bar : '|' ∈ name.toList) {e : SExpr}
    (parsed : SExpr.parse ("|" ++ name ++ "|") = .ok e) :
    ∃ front, e = .atom (.symbol front) ∧ front ≠ name := by
  obtain ⟨front, rest, split, none⟩ := List.eq_append_cons_of_mem bar
  obtain ⟨ls, stop, tokens, scanned⟩ := scans_quoted none (rest ++ ['|']) 0
  have lexemes : Lexeme.ofText ("|" ++ name ++ "|") =
      ls ++ Lexeme.scan stop .blank (rest ++ ['|']) := by
    rw [← scanned, Lexeme.ofText]
    simp [split]
  have read := SExpr.readOneFrom_of_outside (feeds (.quoted front) none [] tokens)
    ("|" ++ name ++ "|").utf8ByteSize (Lexeme.scan stop .blank (rest ++ ['|']))
  refine ⟨String.ofList front, ?_, ?_⟩
  · rw [SExpr.parse] at parsed
    rw [lexemes, read] at parsed
    cases others : Lexeme.scan stop .blank (rest ++ ['|']) with
    | nil =>
      rw [others] at parsed
      cases parsed
      rfl
    | cons next more =>
      rw [others] at parsed
      cases parsed
  · intro same
    have length := congrArg String.length same
    rw [← String.length_toList, ← String.length_toList, String.toList_ofList, split] at length
    simp at length

end Spelling

namespace Value

theorem Exact.proper {v : Value} (exact : v.Exact) : v.spelling.Proper := by
  obtain ⟨e, parsed, decoded⟩ := exact
  obtain ⟨kind, payload, fits⟩ := v
  cases payload with
  | bool b => cases b <;> exact Spelling.proper_bare (by decide)
  | integer i =>
    cases width : kind.width? with
    | none => simpa [spelling, width] using Spelling.proper_integer i
    | some w =>
      have positive : 0 < w.toNat := by
        refine UInt32.pos_iff_ne_zero.mpr ?_
        rintro rfl
        cases kind with
        | bits signed width' =>
          cases width
          have text : literal ⟨.bits signed 0, .integer i, fits⟩ = "#x0" := by
            simp [literal, Kind.width?, Literal.bits]
            rfl
          rw [text] at parsed
          cases parsed
          cases decoded
        | _ => cases width
      simpa [spelling, width] using Spelling.proper_bits i positive w.toNat_lt_size
  | real r => exact Spelling.proper_ofReal r
  | float bits => exact Spelling.proper_floating (by decide) (by decide) (by decide) bits.toNat
  | double bits => exact Spelling.proper_floating (by decide) (by decide) (by decide) bits.toNat
  | string s => trivial
  | char c => trivial
  | element index label =>
    refine Spelling.proper_symbol fun bar => ?_
    have quoted : literal ⟨kind, .element index label, fits⟩ = "|" ++ label ++ "|" := by
      have complex : Literal.isSimpleSymbol label = false := by
        cases simple : Literal.isSimpleSymbol label with
        | false => rfl
        | true =>
          have bare := Literal.isBare_of_isSimpleSymbol simple
          exact absurd rfl (bare.1.2 '|' bar).2
      simp [literal, Literal.symbol, complex]
    rw [quoted] at parsed
    obtain ⟨front, rfl, differ⟩ := Spelling.parse_barred bar parsed
    exact differ (label_of_decode decoded rfl).symm

theorem Exact.decode_spelling {v : Value} (exact : v.Exact) :
    decode v.kind v.spelling.tree = .ok v := by
  obtain ⟨e, parsed, decoded⟩ := exact
  have proper := Exact.proper ⟨e, parsed, decoded⟩
  have read := Spelling.parse_of_chars v.spelling proper v.chars_spelling.symm
  rw [parsed] at read
  cases read
  exact decoded

end Value

end SmtDialogue
