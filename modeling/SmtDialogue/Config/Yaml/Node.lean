import SmtDialogue.Config.Yaml.Token

/-!
# Nodes

The node of a document: a scalar, a list, a table, or an alias of a node elsewhere.
All but aliases may have an anchor and a tag, in either order. A node may lack its
characters where a token shows that another one follows, or when it has an anchor
or a tag; it is an empty plain scalar then.

Nesting is read with a bound on its depth, for which the number of tokens always
suffices.
-/

namespace SmtDialogue.Yaml

structure Properties where
  anchor : Option Nat
  tag : Option String

namespace Properties

def none : Properties := ⟨.none, .none⟩

/-- The tag that consists of its mark only says nothing about a scalar. -/
def ofScalar (p : Properties) : Properties :=
  { p with tag := p.tag.filter (· ≠ "!") }

end Properties

inductive Node where
  | aliasOf (number : Nat)
  | scalar (p : Properties) (style : Style) (text : String)
  | list (p : Properties) (items : List Node)
  | table (p : Properties) (pairs : List (Node × Node))

namespace Node

def empty : Node := .scalar .none .plain ""

/-- Where a node stands: inside brackets, where blocks may begin, or in a pair of a
block, where moreover the dashes of a list need no block of their own. -/
inductive Place where
  | bracket
  | block
  | pair
deriving DecidableEq

def tag? : Reads Token (Option String) := do
  match ← Reads.peek with
  | some (.tag text) =>
    Reads.skip
    return some text
  | _ => return none

def properties : Reads Token Properties := do
  let before ← tag?
  match ← Reads.peek with
  | some (.anchor number) =>
    Reads.skip
    return ⟨some number, ← if before.isSome then pure before else tag?⟩
  | _ => return ⟨none, before⟩

/-- A node without characters of its own. -/
def withoutText (p : Properties) : Reads Token Node := do
  guard (p.anchor.isSome || p.tag.isSome)
  return .scalar p .plain ""

mutual

def read (place : Place) : Nat → Reads Token Node
  | 0 => failure
  | bound + 1 => do
    if let some (.aliasOf number) ← Reads.peek then
      Reads.skip
      return .aliasOf number
    let p ← properties
    match ← Reads.peek with
    | some (.scalar style text) =>
      Reads.skip
      return .scalar p.ofScalar style text
    | some .openList =>
      Reads.skip
      return .list p (← listItems true bound)
    | some .openTable =>
      Reads.skip
      return .table p (← tablePairs true bound)
    | some .items =>
      if place = .bracket then withoutText p
      else
        Reads.skip
        return .list p (← blockItems bound)
    | some .pairs =>
      if place = .bracket then withoutText p
      else
        Reads.skip
        return .table p (← blockPairs bound)
    | some .dash => if place = .pair then return .list p (← dashes bound) else withoutText p
    | _ => withoutText p

/-- A node, unless one of the tokens `ends` shows that there is none. -/
def readUnless (ends : List Token) (place : Place) : Nat → Reads Token Node
  | 0 => failure
  | bound + 1 => do
    if (← Reads.peek).any ends.contains then return empty else read place bound

/-- The items of a block. -/
def blockItems : Nat → Reads Token (List Node)
  | 0 => failure
  | bound + 1 => do
    if ← Reads.takeIf .close then return []
    else
      Reads.expect .dash
      let item ← readUnless [.dash, .close] .block bound
      return item :: (← blockItems bound)

/-- The items of a list that has no block of its own. -/
def dashes : Nat → Reads Token (List Node)
  | 0 => failure
  | bound + 1 => do
    if ← Reads.takeIf .dash then
      let item ← readUnless [.dash, .key, .colon, .close] .block bound
      return item :: (← dashes bound)
    else return []

/-- The pairs of a block. -/
def blockPairs : Nat → Reads Token (List (Node × Node))
  | 0 => failure
  | bound + 1 => do
    if ← Reads.takeIf .close then return []
    else
      Reads.expect .key
      let key ← readUnless [.key, .colon, .close] .pair bound
      let value ←
        if ← Reads.takeIf .colon then readUnless [.key, .colon, .close] .pair bound
        else pure empty
      return (key, value) :: (← blockPairs bound)

/-- The items in brackets. A pair among them is a table of its own. -/
def listItems (first : Bool) : Nat → Reads Token (List Node)
  | 0 => failure
  | bound + 1 => do
    if ← Reads.takeIf .closeList then return []
    if !first then
      Reads.expect .comma
      if ← Reads.takeIf .closeList then return []
    let item ←
      if ← Reads.takeIf .key then pure (.table .none [← bracketPair bound])
      else read .bracket bound
    return item :: (← listItems false bound)

/-- A pair in the brackets of a list. The token that shows that its key is missing
is taken in place of the key. -/
def bracketPair : Nat → Reads Token (Node × Node)
  | 0 => failure
  | bound + 1 => do
    let ends : List Token := [.comma, .closeList]
    let key ←
      if (← Reads.peek).any (.colon :: ends).contains then
        Reads.skip
        pure empty
      else read .bracket bound
    let value ←
      if ← Reads.takeIf .colon then readUnless ends .bracket bound else pure empty
    return (key, value)

/-- The pairs in braces. -/
def tablePairs (first : Bool) : Nat → Reads Token (List (Node × Node))
  | 0 => failure
  | bound + 1 => do
    if ← Reads.takeIf .closeTable then return []
    if !first then
      Reads.expect .comma
      if ← Reads.takeIf .closeTable then return []
    let ends : List Token := [.comma, .closeTable]
    let pair ←
      if ← Reads.takeIf .key then
        let key ← readUnless (.colon :: ends) .bracket bound
        let value ←
          if ← Reads.takeIf .colon then readUnless ends .bracket bound else pure empty
        pure (key, value)
      else pure (← read .bracket bound, empty)
    return pair :: (← tablePairs false bound)

end

/-- The node of the only document. Directives ask for a mark where it begins, and
marks may say that it has ended. A text without tokens has an empty node. -/
def document (bound : Nat) : Reads Token Node := do
  let directives ← Reads.takeWhile (· = .directive)
  let marked ← Reads.takeIf .start
  guard (marked || directives.isEmpty)
  let next ← Reads.peek
  let node ←
    if next.isNone || (marked && next.any [.directive, .start, .stop].contains) then pure empty
    else read .block bound
  Reads.skipWhile (· = .stop)
  return node

def ofTokens? (tokens : List Token) : Option Node :=
  (document (3 * tokens.length + 3)).all tokens

end Node

end SmtDialogue.Yaml
