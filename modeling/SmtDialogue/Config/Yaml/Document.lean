import SmtDialogue.Config.Datum
import SmtDialogue.Config.Yaml.Node

/-!
# YAML documents

The data of a document, in which every alias is replaced by what it stands for. An
alias stands for the node with its number that began last, which may be a node
around the alias: how deep data may be nested and how often aliases are followed
is limited. Only the fields that are asked for are looked into.
-/

namespace SmtDialogue.Yaml

mutual

/-- The nodes with anchors in the order in which they begin. -/
def Node.anchored : Node → List (Nat × Node)
  | .aliasOf _ => []
  | .scalar p style text => (p.anchor.map (·, .scalar p style text)).toList
  | .list p items => (p.anchor.map (·, .list p items)).toList ++ anchoredItems items
  | .table p pairs => (p.anchor.map (·, .table p pairs)).toList ++ anchoredPairs pairs

def anchoredItems : List Node → List (Nat × Node)
  | [] => []
  | node :: rest => node.anchored ++ anchoredItems rest

def anchoredPairs : List (Node × Node) → List (Nat × Node)
  | [] => []
  | (key, value) :: rest => key.anchored ++ value.anchored ++ anchoredPairs rest

end

mutual

/-- How many steps it takes to walk through a node: one for a scalar or an alias, and
two around what is inside a list or a table. -/
def Node.steps : Node → Nat
  | .aliasOf _ | .scalar _ _ _ => 1
  | .list _ items => 2 + stepsOfItems items
  | .table _ pairs => 2 + stepsOfPairs pairs

def stepsOfItems : List Node → Nat
  | [] => 0
  | node :: rest => node.steps + stepsOfItems rest

def stepsOfPairs : List (Node × Node) → Nat
  | [] => 0
  | (key, value) :: rest => key.steps + value.steps + stepsOfPairs rest

end

/-- Computations that may follow a number of aliases. -/
abbrev Follows := StateT Nat Option

/-- What an alias stands for, if a node is one; `targets` has the latest first. -/
def Node.follow (targets : List (Nat × Node)) : Node → Follows Node
  | .aliasOf number => do
    let left ← get
    guard (0 < left)
    set (left - 1)
    match targets.lookup number with
    | some node => return node
    | none => failure
  | node => return node

def Properties.mark (p : Properties) (d : Datum) : Datum :=
  p.tag.elim d (.tagged · d)

def Style.datum (text : String) : Style → Datum
  | .plain => .bare text
  | .quoted => .text text
  | .literal => .literal text

/-- The datum of a node that has at most `depth` nodes around a scalar. -/
def Node.datum (targets : List (Nat × Node)) : Nat → Node → Follows Datum
  | 0, node => do
    match ← node.follow targets with
    | .scalar p style text => return p.mark (style.datum text)
    | _ => failure
  | depth + 1, node => do
    match ← node.follow targets with
    | .scalar p style text => return p.mark (style.datum text)
    | .list p items => return p.mark (.list (← items.mapM (datum targets depth)))
    | .table p pairs =>
      let entries ← pairs.mapM fun (key, value) =>
        return (← datum targets depth key, ← datum targets depth value)
      return p.mark (.table entries)
    | .aliasOf _ => failure

/-- How deep data may be nested below the node of a document. -/
def depthLimit : Nat := 127

/-- The datum of the node of a document. Its keys are text; the values of keys that
are no names are passed over. -/
def Node.fields (names : List String) (targets : List (Nat × Node)) : Node → Follows Datum
  | .table _ pairs => do
    let entries ← pairs.mapM fun (key, value) => do
      let key ← key.datum targets 0
      if key.text?.any names.contains then
        return some (key, ← value.datum targets depthLimit)
      else return none
    return .table (entries.filterMap id)
  | .list _ items => return .list (← items.mapM (datum targets depthLimit))
  | node => node.datum targets 0

/-- The named fields of a document. There are a hundred times as many aliases to
follow as there are steps through the document. -/
def read (names : List String) (text : String) : Option Datum := do
  let node ← Node.ofTokens? (← Token.ofText? text)
  let follows := node.fields names node.anchored.reverse
  let (d, _) ← follows.run (100 * node.steps)
  return d

end SmtDialogue.Yaml
