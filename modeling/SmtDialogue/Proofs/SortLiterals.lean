import SmtDialogue.Proofs.Decoding
import SmtDialogue.Proofs.Shapes
import SmtDialogue.Proofs.Symbols
import SmtDialogue.Proofs.Tables
import SmtDialogue.Script.Declaration

/-!
# Literals of declared sorts

An input is declared with the sort of its kind, and a solver may choose any value of that
sort for it. Kinds that share a sort read its literals in different ways: a bit pattern is
a number with or without a sign, and a string may have to be a single character. Nothing
in a declaration asks for strings of one character, so this is the only choice that cannot
be read back. All other literals of the sort are decoded as what they stand for, except at the
signed kind of width zero, which has no values and is declared with a sort that solvers do not
know.
-/

namespace SmtDialogue

/-- The sorts that inputs are declared with. -/
inductive SolverSort where
  | bool
  | bitVec (width : UInt32)
  | int
  | real
  | single
  | double
  | string
  /-- A declared sort, enumerated when its constructors are listed. -/
  | declared (name : String) (constructors : Option (List String))

def SolverSort.text : SolverSort → String
  | .bool => "Bool"
  | .bitVec width => "(_ BitVec " ++ toString width.toNat ++ ")"
  | .int => "Int"
  | .real => "Real"
  | .single => "(_ FloatingPoint 8 24)"
  | .double => "(_ FloatingPoint 11 53)"
  | .string => "String"
  | .declared name _ => name

def Kind.solverSort : Kind → SolverSort
  | .bool => .bool
  | .bits _ width => .bitVec width
  | .integer => .int
  | .real => .real
  | .float => .single
  | .double => .double
  | .string | .char => .string
  | .sort name constructors => .declared name constructors

theorem Kind.text_solverSort (kind : Kind) : kind.solverSort.text = kind.sortText := by
  cases kind <;> rfl

/-- An input is declared with the sort of its kind, and with nothing else. -/
theorem Variable.lines_command (v : Variable) :
    v.command.lines = ["(declare-fun " ++ v.id.text ++ " () " ++ v.kind.solverSort.text ++ ")" ++
      (Remark.tracks v.name).text] := by
  rw [Kind.text_solverSort]
  simp [Variable.command, Command.lines, Name.text, NameSort.text, spaced, ← String.toList_inj]

/-- The literals of a sort, as the reader has them. -/
inductive IsLiteral : SolverSort → Atom → Prop where
  | truth (b : Bool) : IsLiteral .bool (.symbol (toString b))
  | pattern {width : UInt32} (p : BitVec width.toNat) :
      IsLiteral (.bitVec width) (.int p.toNat (some width))
  | integer (n : Int) : IsLiteral .int (.int n none)
  | whole (n : Int) : IsLiteral .real (.int n none)
  | real (r : AlgReal) : IsLiteral .real (.real r)
  | single (bits : BitVec 32) : IsLiteral .single (.float bits)
  | double (bits : BitVec 64) : IsLiteral .double (.double bits)
  | string (s : String) : IsLiteral .string (.string s)
  | constructor {name label : String} {constructors : List String}
      (listed : label ∈ constructors) :
      IsLiteral (.declared name (some constructors)) (.symbol label)
  | element (name label : String) : IsLiteral (.declared name none) (.symbol label)

/-- What a literal of its sort stands for at a kind. -/
inductive Means : Kind → Atom → Payload → Prop where
  | truth (b : Bool) : Means .bool (.symbol (toString b)) (.bool b)
  | pattern (signed : Bool) {width : UInt32} (p : BitVec width.toNat) :
      Means (.bits signed width) (.int p.toNat (some width)) (.integer (Kind.reading signed p))
  | integer (n : Int) : Means .integer (.int n none) (.integer n)
  | whole (n : Int) : Means .real (.int n none) (.real (.exact n))
  | real (r : AlgReal) : Means .real (.real r) (.real r)
  | float (bits : BitVec 32) : Means .float (.float bits) (.float bits)
  | double (bits : BitVec 64) : Means .double (.double bits) (.double bits)
  | string (s : String) : Means .string (.string s) (.string s)
  | char (c : Char) : Means .char (.string (String.singleton c)) (.char c)
  | constructor {name label : String} {constructors : List String} {index : Nat}
      (first : (Kind.sort name (some constructors)).constructorIndex? label = some index) :
      Means (.sort name (some constructors)) (.symbol label) (.element (some index) label)
  | element (name label : String) : Means (.sort name none) (.symbol label) (.element none label)

/-- A kind with values asks of a literal of its sort that it is a string of one character, if
anything. -/
def Fits (kind : Kind) (a : Atom) : Prop :=
  kind.lacksSign = false ∧ (kind = .char → ∃ c, a = .string (String.singleton c))

variable {kind : Kind} {a : Atom} {payload : Payload}

/-- A literal of the sort of a kind stands for something there if it fits. -/
theorem IsLiteral.exists_means (literal : IsLiteral kind.solverSort a) (fits : Fits kind a) :
    ∃ payload, Means kind a payload := by
  cases kind with
  | bool => cases literal with | truth b => exact ⟨_, .truth b⟩
  | bits signed width => cases literal with | pattern p => exact ⟨_, .pattern signed p⟩
  | integer => cases literal with | integer n => exact ⟨_, .integer n⟩
  | real =>
    cases literal with
    | whole n => exact ⟨_, .whole n⟩
    | real r => exact ⟨_, .real r⟩
  | float => cases literal with | single bits => exact ⟨_, .float bits⟩
  | double => cases literal with | double bits => exact ⟨_, .double bits⟩
  | string => cases literal with | string s => exact ⟨_, .string s⟩
  | char =>
    obtain ⟨c, rfl⟩ := fits.2 rfl
    exact ⟨_, .char c⟩
  | sort name constructors =>
    cases literal with
    | @constructor _ label constructors listed =>
      have found : (constructors.findIdx? (· == label)).isSome := by
        simpa [List.findIdx?_isSome] using listed
      obtain ⟨index, first⟩ := Option.isSome_iff_exists.mp found
      exact ⟨_, .constructor first⟩
    | element => exact ⟨_, .element name _⟩

namespace Value

/-- A literal is decoded as what it stands for. -/
theorem decode_of_means (means : Means kind a payload) (sized : kind.lacksSign = false) :
    ∃ v, decode kind (.atom a) = .ok v ∧ v.kind = kind ∧ v.payload = payload := by
  cases means with
  | truth b => cases b <;> exact ⟨_, rfl, rfl, rfl⟩
  | @pattern signed width p =>
    refine ⟨_, (decode_bits_eq_ok sized).mpr ⟨p.toNat, .sized _, rfl⟩, rfl, ?_⟩
    exact congrArg Payload.integer (Kind.wrap_toNat signed p)
  | integer n => exact ⟨_, rfl, rfl, rfl⟩
  | whole n => exact ⟨_, rfl, rfl, rfl⟩
  | real r => exact ⟨_, rfl, rfl, rfl⟩
  | float bits => exact ⟨_, rfl, rfl, rfl⟩
  | double bits => exact ⟨_, rfl, rfl, rfl⟩
  | string s => exact ⟨_, rfl, rfl, rfl⟩
  | char c =>
    have read : payloadOfAtom .char (.string (String.singleton c)) = .ok (.char c) := by
      simp [payloadOfAtom]
    have fits : (Payload.char c).fits .char = true := rfl
    exact ⟨_, decode_atom fits read rfl, rfl, rfl⟩
  | @constructor name label constructors index first =>
    have listed : constructors[index]? = some label := by
      obtain ⟨inside, same, _⟩ := List.findIdx?_eq_some_iff_getElem.mp first
      rw [List.getElem?_eq_getElem inside, eq_of_beq same]
    have read : payloadOfAtom (.sort name (some constructors)) (.symbol label) =
        .ok (.element (some index) label) := by
      simp only [payloadOfAtom, first]
    exact ⟨_, decode_atom (Payload.fits_iff.mpr (.constructor listed)) read rfl, rfl, rfl⟩
  | element name label => exact ⟨_, rfl, rfl, rfl⟩

/-- A kind that has a value has one, and a string that is decoded as a character is one. -/
theorem fits_of_decode {v : Value} (decoded : decode kind (.atom a) = .ok v) : Fits kind a := by
  refine ⟨kind_of_decode decoded ▸ v.sized, ?_⟩
  rintro rfl
  obtain ⟨read, reads, _⟩ := payload_of_decode decoded
  cases a with
  | string s =>
    simp only [payloadOfAtom] at reads
    split at reads
    · next c one =>
      have same : s = String.singleton c := String.toList_inj.mp (by rw [one]; simp)
      exact ⟨c, congrArg Atom.string same⟩
    · cases reads
  | _ => cases reads

end Value

/-- A literal that a model chooses for a variable of the table, and the sort it is printed
with. -/
structure Choice (table : SymbolTable) where
  input : Variable
  sort : SExpr
  literal : Atom
  listed : input ∈ table.entries
  legal : IsLiteral input.kind.solverSort literal

namespace Choice

variable {table : SymbolTable}

def assigned (x : Choice table) : Binding.Assigned :=
  ⟨x.input.id.text, x.sort, .atom x.literal⟩

/-- The binding has the value that was chosen for its variable. -/
structure Makes (x : Choice table) (b : Binding) : Prop where
  id : b.id = x.input.id
  name : b.name = x.input.name
  kind : b.value.kind = x.input.kind
  value : Means x.input.kind x.literal b.value.payload

/-- The symbol of a word is no keyword. -/
theorem symbol_ne_define (x : Choice table) : x.assigned.symbol ≠ "define-fun" := by
  intro same
  have word := WordId.ofSymbol?_text x.input.id
  have other : WordId.ofSymbol? "define-fun" = none := by decide
  rw [show x.input.id.text = "define-fun" from same, other] at word
  cases word

theorem resolve (distinct : table.Distinct) (x : Choice table) :
    table.resolve x.assigned.symbol = .ok (some x.input) :=
  distinct.resolve_eq_some_iff.mpr ⟨x.listed, WordId.ofSymbol?_text x.input.id⟩

theorem exists_makes (x : Choice table) (fits : Fits x.input.kind x.literal) :
    ∃ v, Value.decode x.input.kind (.atom x.literal) = .ok v ∧
      x.Makes ⟨x.input.id, x.input.name, v⟩ := by
  obtain ⟨payload, means⟩ := x.legal.exists_means fits
  obtain ⟨v, decoded, kind, rfl⟩ := Value.decode_of_means means fits.1
  exact ⟨v, decoded, rfl, rfl, kind, means⟩

/-- A model of choices is read strictly exactly when each of them fits. -/
theorem assign_eq_ok (distinct : table.Distinct) {xs : List (Choice table)} {bs : List Binding}
    (read : Binding.assign table .strict (xs.map assigned) = .ok bs) :
    (∀ x ∈ xs, Fits x.input.kind x.literal) ∧ List.Forall₂ Makes xs bs := by
  induction xs generalizing bs with
  | nil =>
    cases read
    exact ⟨by simp, .nil⟩
  | cons x rest ih =>
    rw [List.map_cons, Binding.assign, x.resolve distinct] at read
    cases decoded : Value.decode x.input.kind (.atom x.literal) with
    | error reason => simp [assigned, decoded] at read
    | ok v =>
      simp only [assigned, decoded] at read
      obtain ⟨others, later, rfl⟩ := Except.map_eq_ok.mp read
      have fits := Value.fits_of_decode decoded
      obtain ⟨w, again, makes⟩ := x.exists_makes fits
      cases decoded.symm.trans again
      obtain ⟨restFits, made⟩ := ih later
      exact ⟨List.forall_mem_cons.mpr ⟨fits, restFits⟩, .cons makes made⟩

theorem exists_assign (distinct : table.Distinct) {xs : List (Choice table)}
    (fits : ∀ x ∈ xs, Fits x.input.kind x.literal) :
    ∃ bs, Binding.assign table .strict (xs.map assigned) = .ok bs := by
  induction xs with
  | nil => exact ⟨[], rfl⟩
  | cons x rest ih =>
    obtain ⟨first, others⟩ := List.forall_mem_cons.mp fits
    obtain ⟨bs, later⟩ := ih others
    obtain ⟨v, decoded, _⟩ := x.exists_makes first
    refine ⟨⟨x.input.id, x.input.name, v⟩ :: bs, ?_⟩
    rw [List.map_cons, Binding.assign, x.resolve distinct]
    simp only [assigned, decoded] at later ⊢
    rw [later]
    rfl

/-- A strict reading of a model, in any format, is that of its assignments. -/
theorem extract_eq_ok (format : Binding.Format) (line : String) (xs : List (Choice table))
    (bs : List Binding) :
    Binding.extract table .strict line (format.tree (xs.map assigned)) = .ok bs ↔
      Binding.assign table .strict (xs.map assigned) = .ok bs := by
  have others : ∀ y ∈ xs.map assigned, y.symbol ≠ "define-fun" := by
    intro y member
    obtain ⟨x, _, rfl⟩ := List.mem_map.mp member
    exact x.symbol_ne_define
  simp only [Binding.extract, format.items?_tree]
  rw [Binding.readItems_items format .strict line _ others, Except.mapError_eq_ok]

end Choice

/-- An input is declared with the sort of its kind. A literal of that sort is decoded at the
kind, as what it stands for, unless the kind is that of characters and the literal is a string of
another length. So a strict reading of a model, in whatever format, succeeds exactly when no
variable of that kind is given such a string, and binds every variable to its value. -/
theorem literals_readBack :
    (∀ v : Variable, v.command.lines =
      ["(declare-fun " ++ v.id.text ++ " () " ++ v.kind.solverSort.text ++ ")" ++
        (Remark.tracks v.name).text]) ∧
    (∀ (kind : Kind) (a : Atom), IsLiteral kind.solverSort a →
      ((∃ v, Value.decode kind (.atom a) = .ok v) ↔ Fits kind a) ∧
        ∀ v, Value.decode kind (.atom a) = .ok v → v.kind = kind ∧ Means kind a v.payload) ∧
    ∀ (table : SymbolTable), table.Distinct → ∀ (format : Binding.Format) (line : String)
      (xs : List (Choice table)),
      ((∃ bs,
          Binding.extract table .strict line (format.tree (xs.map Choice.assigned)) = .ok bs) ↔
        ∀ x ∈ xs, Fits x.input.kind x.literal) ∧
      ∀ bs, Binding.extract table .strict line (format.tree (xs.map Choice.assigned)) = .ok bs →
        List.Forall₂ Choice.Makes xs bs := by
  refine ⟨Variable.lines_command,
    fun kind a literal => ⟨⟨?_, fun fits => ?_⟩, fun v decoded => ?_⟩,
    fun table distinct format line xs => ⟨⟨?_, fun fits => ?_⟩, fun bs read => ?_⟩⟩
  · rintro ⟨v, decoded⟩
    exact Value.fits_of_decode decoded
  · obtain ⟨payload, means⟩ := literal.exists_means fits
    obtain ⟨v, decoded, _⟩ := Value.decode_of_means means fits.1
    exact ⟨v, decoded⟩
  · have fits := Value.fits_of_decode decoded
    obtain ⟨payload, means⟩ := literal.exists_means fits
    obtain ⟨w, again, kind, rfl⟩ := Value.decode_of_means means fits.1
    cases decoded.symm.trans again
    exact ⟨kind, means⟩
  · rintro ⟨bs, read⟩
    exact (Choice.assign_eq_ok distinct ((Choice.extract_eq_ok format line xs bs).mp read)).1
  · obtain ⟨bs, read⟩ := Choice.exists_assign distinct fits
    exact ⟨bs, (Choice.extract_eq_ok format line xs bs).mpr read⟩
  · exact (Choice.assign_eq_ok distinct ((Choice.extract_eq_ok format line xs bs).mp read)).2

/-- A literal for every variable of the sample table. -/
def Choice.mixed : List (Choice Sample.mixedTable) := [
  ⟨⟨⟨0⟩, "b", .bool⟩, .atom (.symbol "Bool"), .symbol "false", by decide, .truth false⟩,
  ⟨⟨⟨1⟩, "n", .integer⟩, .atom (.symbol "Int"), .int (-42) none, by decide, .integer (-42)⟩,
  ⟨⟨⟨2⟩, "r", .real⟩, .atom (.symbol "Real"), .real (.exact (1 / 3)), by decide,
    .real (.exact (1 / 3))⟩,
  ⟨⟨⟨3⟩, "i", .int 8⟩, .app [.atom (.symbol "_"), .atom (.symbol "BitVec"), .atom (.int 8 none)],
    .int 255 (some 8), by decide, @IsLiteral.pattern 8 (255#8)⟩,
  ⟨⟨⟨4⟩, "f", .float⟩, .atom (.symbol "Float32"), .float 0x7fc00000#32, by decide, .single _⟩,
  ⟨⟨⟨5⟩, "d", .double⟩, .atom (.symbol "Float64"), .double 0#64, by decide, .double _⟩,
  ⟨⟨⟨6⟩, "text", .string⟩, .atom (.symbol "String"), .string "ab", by decide, .string "ab"⟩,
  ⟨⟨⟨7⟩, "c", .char⟩, .atom (.symbol "String"), .string "z", by decide, .string "z"⟩,
  ⟨⟨⟨8⟩, "color", Sample.color⟩, .atom (.symbol "Color"), .symbol "Blue", by decide,
    .constructor (by decide)⟩,
  ⟨⟨⟨9⟩, "t", .sort "T" none⟩, .atom (.symbol "T"), .symbol "T!val!0", by decide,
    .element "T" "T!val!0"⟩]

/-- They are read back in every format, and so is a pattern with the sign bit. -/
theorem literals_readBack_mixed :
    (∀ format : Binding.Format, ∃ bs,
      Binding.extract Sample.mixedTable .strict ""
          (format.tree (Choice.mixed.map Choice.assigned)) = .ok bs ∧
        List.Forall₂ Choice.Makes Choice.mixed bs) ∧
      ∃ v, Value.decode (.int 8) (.atom (.int 255 (some 8))) = .ok v ∧
        Means (.int 8) (.int 255 (some 8)) v.payload := by
  obtain ⟨-, decoded, extracted⟩ := literals_readBack
  have distinct : Sample.mixedTable.Distinct := by decide
  have fits : ∀ x ∈ Choice.mixed, Fits x.input.kind x.literal := by
    intro x member
    simp only [Choice.mixed, List.mem_cons, List.not_mem_nil, or_false] at member
    rcases member with rfl | rfl | rfl | rfl | rfl | rfl | rfl | rfl | rfl | rfl
    case inr.inr.inr.inr.inr.inr.inr.inl => exact ⟨rfl, fun _ => ⟨'z', rfl⟩⟩
    all_goals exact ⟨rfl, fun char => nomatch char⟩
  refine ⟨fun format => ?_, ?_⟩
  · obtain ⟨readable, made⟩ := extracted Sample.mixedTable distinct format "" Choice.mixed
    obtain ⟨bs, read⟩ := readable.mpr fits
    exact ⟨bs, read, made bs read⟩
  · obtain ⟨readable, means⟩ := decoded (.int 8) _ (@IsLiteral.pattern 8 (255#8))
    obtain ⟨v, read⟩ := readable.mpr ⟨rfl, fun char => nomatch char⟩
    exact ⟨v, read, (means v read).2⟩

/-- A character is declared as a string, and the string that is chosen for it may have two. -/
theorem decode_twoCharacters :
    IsLiteral Kind.char.solverSort (.string "ab") ∧
      Value.decode .char (.atom (.string "ab")) =
        .error (.kindMismatch .char (.atom (.string "ab"))) ∧
      ¬∀ (kind : Kind) (a : Atom), IsLiteral kind.solverSort a →
        ∃ v, Value.decode kind (.atom a) = .ok v := by
  have literal : IsLiteral Kind.char.solverSort (.string "ab") := .string "ab"
  have fails : Value.decode .char (.atom (.string "ab")) =
      .error (.kindMismatch .char (.atom (.string "ab"))) := by decide
  refine ⟨literal, fails, fun all => ?_⟩
  obtain ⟨v, read⟩ := all .char _ literal
  rw [fails] at read
  cases read

end SmtDialogue
