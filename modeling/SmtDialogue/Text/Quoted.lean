import SmtDialogue.Text.Unprintable
import SmtDialogue.Text.Combining

/-!
# Quoted text

How strings and single characters are shown to a person: between quotes, with a
backslash before the quote and before a backslash, short escapes for the common
control characters, and the code point in braces for every other character that
cannot be printed or that would attach to its neighbour.
-/

namespace SmtDialogue.Text

/-- The code point of a character in lower-case hexadecimal. -/
def hexCode (c : Char) : List Char :=
  Nat.toDigits 16 c.toNat

/-- A character as it appears between quotes of the given sort. -/
def escapeIn (quote c : Char) : List Char :=
  if c = '\x00' then ['\\', '0']
  else if c = '\t' then ['\\', 't']
  else if c = '\r' then ['\\', 'r']
  else if c = '\n' then ['\\', 'n']
  else if c = '\\' then ['\\', '\\']
  else if c = quote then ['\\', c]
  else if isCombining c || isUnprintable c then
    ['\\', 'u', '\x7b'] ++ hexCode c ++ ['\x7d']
  else [c]

/-- A string between double quotes. -/
def quoted (s : String) : String :=
  String.ofList (['"'] ++ s.toList.flatMap (escapeIn '"') ++ ['"'])

/-- A character between single quotes. -/
def quotedChar (c : Char) : String :=
  String.ofList (['\''] ++ escapeIn '\'' c ++ ['\''])

end SmtDialogue.Text
