import SmtDialogue.Symbol

/-!
# Sample tables

Symbol tables that the sample answers are written against.
-/

namespace SmtDialogue.Sample

/-- A sort with three constructors. -/
def color : Kind := .sort "Color" (some ["Red", "Green", "Blue"])

/-- Two words of eight bits. -/
def bitVectorTable : SymbolTable := ⟨[
  ⟨⟨0⟩, "x", .word 8⟩,
  ⟨⟨1⟩, "y", .word 8⟩]⟩

/-- One variable of every kind. -/
def mixedTable : SymbolTable := ⟨[
  ⟨⟨0⟩, "b", .bool⟩,
  ⟨⟨1⟩, "n", .integer⟩,
  ⟨⟨2⟩, "r", .real⟩,
  ⟨⟨3⟩, "i", .int 8⟩,
  ⟨⟨4⟩, "f", .float⟩,
  ⟨⟨5⟩, "d", .double⟩,
  ⟨⟨6⟩, "text", .string⟩,
  ⟨⟨7⟩, "c", .char⟩,
  ⟨⟨8⟩, "color", color⟩,
  ⟨⟨9⟩, "t", .sort "T" none⟩]⟩

/-- Two integers and the objective over them. -/
def objectiveTable : SymbolTable := ⟨[
  ⟨⟨0⟩, "x", .integer⟩,
  ⟨⟨1⟩, "y", .integer⟩,
  ⟨⟨2⟩, "goal", .integer⟩]⟩

/-- Two variables that claim one word. -/
def ambiguousTable : SymbolTable := ⟨[
  ⟨⟨0⟩, "x", .integer⟩,
  ⟨⟨0⟩, "x'", .integer⟩]⟩

end SmtDialogue.Sample
