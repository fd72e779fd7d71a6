import SmtDialogue.Config.Yaml.Scalar

/-!
# Block scalars

A block scalar consists of the lines below its header that are indented to one
column. The header gives that column relative to the block around the scalar, or
else it is the rightmost that the indentation before the first text reaches. A
folded scalar folds the breaks between two lines of which neither begins with a
blank. The header also says what becomes of the breaks behind the last line.
-/

namespace SmtDialogue.Yaml

/-- What becomes of the breaks behind the last line: none of them stays, the first
stays, or all do. -/
inductive Chomping where
  | strip
  | clip
  | keep
deriving DecidableEq

structure BlockHeader where
  chomping : Chomping
  /-- How much further right than the block around it the lines start. -/
  increment : Option Nat

def chomping? : Reads Mark (Option Chomping) := do
  if ← takeIf '-' then return some .strip
  else if ← takeIf '+' then return some .keep
  else return none

def increment? : Reads Mark (Option Nat) := do
  match (← peekChar).bind (Numeral.digit? 10) with
  | some 0 => failure
  | some n =>
    Reads.skip
    return some n
  | none => return none

/-- The two parts of a header may stand in either order. -/
def blockHeader : Reads Mark BlockHeader := do
  let before ← chomping?
  let increment ← increment?
  let after ← if before.isSome then pure before else chomping?
  lineEnd
  return ⟨after.getD .clip, increment⟩

structure BlockLine where
  text : List Char
  /-- Its own break and those of the empty lines below it. -/
  breaks : List Char

def BlockLine.isSpaced (l : BlockLine) : Bool :=
  l.text.head?.any isBlank

/-- Skips empty lines and the indentation of a line, up to the column `limit` if there
is one: the breaks skipped, the rightmost column reached, and what follows. -/
def emptyLines (limit : Option Nat) : List Mark → Option (List Char × Nat × List Mark)
  | [] => some ([], 0, [])
  | m :: rest =>
    if limit.all (m.column < ·) && m.char = ' ' then emptyLines limit rest
    else if limit.all (m.column < ·) && m.char = '\t' then none
    else if isBreak m.char then
      (emptyLines limit rest).map fun (breaks, widest, after) =>
        (m.char :: breaks, max m.column widest, after)
    else some ([], m.column, m :: rest)

/-- The lines that start in a column, at most `bound` of them. -/
def blockLines (column : Nat) : Nat → List Mark → Option (List BlockLine × List Mark)
  | 0, _ => none
  | bound + 1, ms =>
    if ms.head?.any fun m => m.column = column then do
      let text := ms.takeWhile fun m => !isBreak m.char
      let after := ms.dropWhile fun m => !isBreak m.char
      let (more, _, next) ← emptyLines (some column) (after.drop 1)
      let (lines, rest) ← blockLines column bound next
      return (⟨text.map Mark.char, (after.take 1).map Mark.char ++ more⟩ :: lines, rest)
    else some ([], ms)

/-- The text of lines, without the breaks behind the last. -/
def joinLines (folded : Bool) : List BlockLine → List Char
  | [] => []
  | [l] => l.text
  | l :: next :: rest =>
    l.text ++ (if folded && !l.isSpaced && !next.isSpaced then foldGap l.breaks else l.breaks) ++
      joinLines folded (next :: rest)

def chomp : Chomping → List Char → List Char
  | .strip, _ => []
  | .clip, breaks => breaks.take 1
  | .keep, breaks => breaks

/-- The text of a block scalar; `outer` is the column of the block around it. -/
def blockScalar (folded : Bool) (outer : Option Nat) : Reads Mark String := do
  let header ← blockHeader
  let given := header.increment.map (outer.getD 0 + ·)
  let ms ← get
  let (leading, widest, next) ← Reads.require (emptyLines given ms)
  let column := given.getD (max widest (outer.elim 1 (· + 1)))
  let (lines, rest) ← Reads.require (blockLines column (ms.length + 1) next)
  set rest
  match lines.getLast? with
  | none => return String.ofList (if header.chomping = .keep then leading else [])
  | some last =>
    return String.ofList (leading ++ joinLines folded lines ++ chomp header.chomping last.breaks)

end SmtDialogue.Yaml
