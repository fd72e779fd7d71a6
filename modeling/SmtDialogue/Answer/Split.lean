import SmtDialogue.Answer.Outcome

/-!
# Answers with several models

Queries that read several models back echo a sentinel between them. The lines are
cut where a line equals the sentinel. A chunk without a status of its own has that
of the first. An answer that does not start with `sat` or `unknown` is one outcome,
repeated for every model.
-/

namespace SmtDialogue

/-- The lines between the lines that equal the sentinel. -/
def chunks (sentinel : String) : List String → List (List String)
  | [] => [[]]
  | line :: rest =>
    if line = sentinel then [] :: chunks sentinel rest
    else
      match chunks sentinel rest with
      | [] => [[line]]
      | chunk :: others => (line :: chunk) :: others

namespace Outcome

def hasStatus (chunk : List String) : Bool :=
  (status? chunk).any statusLines.contains

/-- A chunk with a status line in front. -/
def withStatus (status : String) (chunk : List String) : List String :=
  if hasStatus chunk then chunk else status :: chunk

/-- Cuts an answer into the outcomes of `expected` models. -/
def split (normalizer : Normalizer) (table : SymbolTable) (expected : Nat) (sentinel : String)
    (lines : List String) : Except AnswerError (List Outcome) :=
  match status? lines with
  | some "sat" | some "unknown" =>
    let parts := chunks sentinel lines
    let mismatch (actual : Nat) : AnswerError :=
      .modelCount expected actual (String.intercalate "\n" lines)
    if parts.length ≠ expected then .error (mismatch parts.length)
    else
      match parts.head?.bind List.head? with
      | none => .error (mismatch 0)
      | some status => parts.mapM fun chunk => classify normalizer table (withStatus status chunk)
  | _ => (classify normalizer table lines).map (List.replicate expected)

end Outcome

end SmtDialogue
