import SmtDialogue.Numeral

/-!
# Escapes in string literals

A string literal may name a character by its code point: `\u` and four
hexadecimal digits, or `\u` and any number of them in braces. What does not name
a character is ordinary text.
-/

namespace SmtDialogue.Escape

/-- The character with a code point, if there is one. -/
def scalar? (n : Nat) : Option Char :=
  if h : n.isValidChar then some (Char.ofNatAux n h) else none

/-- The character that hexadecimal digits name; a plus sign may precede them. -/
def character? (cs : List Char) : Option Char :=
  let digits := match cs with
    | '+' :: rest => rest
    | cs => cs
  if digits.isEmpty then none
  else (digits.mapM (Numeral.digit? 16)).bind fun ds => scalar? (Numeral.value 16 ds)

/-- The character named after `\u`, and how many characters name it. -/
def named? (tail : List Char) : Option (Char × Nat) :=
  match tail with
  | '\x7b' :: rest =>
    let digits := rest.takeWhile (· != '\x7d')
    if digits.length < rest.length then
      (character? digits).map fun c => (c, digits.length + 2)
    else none
  | tail =>
    let digits := tail.take 4
    if digits.length = 4 then (character? digits).map fun c => (c, 4) else none

/-- Replaces every escape by the character it names, from left to right. -/
def decode : List Char → List Char
  | '\\' :: 'u' :: tail =>
    match named? tail with
    | some (c, used) => c :: decode (tail.drop used)
    | none => '\\' :: 'u' :: decode tail
  | c :: rest => c :: decode rest
  | [] => []
termination_by cs => cs.length
decreasing_by all_goals (simp only [List.length_drop, List.length_cons]; omega)

end SmtDialogue.Escape
