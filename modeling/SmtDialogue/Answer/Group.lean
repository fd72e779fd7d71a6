import SmtDialogue.Text.Blank

/-!
# Groups of lines

An expression may span many lines. A group is the shortest run of lines after which
no parenthesis, string or quoted symbol is open; what stands inside strings, quoted
symbols and comments does not count. Groups of blanks only are left out.
-/

namespace SmtDialogue.Group

/-- What the characters so far have left open. -/
inductive Inside where
  | nothing
  | string
  | quotedSymbol
deriving DecidableEq

structure Reach where
  inside : Inside
  /-- Open parentheses less closed ones. -/
  depth : Int
deriving DecidableEq

def Reach.start : Reach := ⟨.nothing, 0⟩

/-- Follows the characters of one line; a comment ends it. -/
def Reach.follow (r : Reach) : List Char → Reach
  | [] => r
  | c :: rest =>
    match r.inside with
    | .string => follow (if c = '"' then { r with inside := .nothing } else r) rest
    | .quotedSymbol => follow (if c = '|' then { r with inside := .nothing } else r) rest
    | .nothing =>
      if c = '"' then follow { r with inside := .string } rest
      else if c = '|' then follow { r with inside := .quotedSymbol } rest
      else if c = ';' then r
      else if c = '(' then follow { r with depth := r.depth + 1 } rest
      else if c = ')' then follow { r with depth := r.depth - 1 } rest
      else follow r rest

/-- Whether a group can end here. -/
def Reach.isClosed (r : Reach) : Bool :=
  r.depth ≤ 0 && r.inside = .nothing

/-- A group, unless it is blank. -/
def ofText (text : String) : List String :=
  if Text.isBlankText text then [] else [text]

def joinLine (current line : String) : String :=
  if current.isEmpty then line else current ++ "\n" ++ line

/-- The groups of the lines that follow an unfinished group. -/
def fromLines (r : Reach) (current : String) : List String → List String
  | [] => ofText current
  | line :: rest =>
    let r := r.follow line.toList
    let current := joinLine current line
    if r.isClosed then ofText current ++ fromLines .start "" rest
    else fromLines r current rest

/-- The texts of the groups of an answer, in order. -/
def ofLines (lines : List String) : List String :=
  fromLines .start "" lines

end SmtDialogue.Group
