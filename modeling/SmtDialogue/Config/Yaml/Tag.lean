import SmtDialogue.Config.Yaml.Mark

/-!
# Tags and directives

A tag says what a node is. It is written in full between angle brackets, or as a
handle and a suffix. Directives at the head of a document give handles a meaning
and may name the version of the format, which is 1.1 or 1.2. Two handles have a
meaning of their own when no directive gives them another.
-/

namespace SmtDialogue.Yaml

def isUriChar (c : Char) : Bool :=
  isNameChar c || ";/?:@&=+$.%!~*'()".toList.contains c

/-- How many octets follow the first of a character in UTF-8. -/
def following? (octet : Nat) : Option Nat :=
  if octet < 0x80 then some 0
  else if octet / 0x20 = 0x6 then some 1
  else if octet / 0x10 = 0xE then some 2
  else if octet / 0x8 = 0x1E then some 3
  else none

/-- Replaces every escaped octet by the character with its code; `pending` of them
belong to a character that has begun. No tag with a meaning goes beyond ASCII, so
that octets need not be joined. -/
def unescape? (pending : Nat) : List Char → Option (List Char)
  | '%' :: a :: b :: rest => do
    let octet := Numeral.value 16 [← Numeral.digit? 16 a, ← Numeral.digit? 16 b]
    let pending ← if pending = 0 then following? octet
      else if octet / 0x40 = 0x2 then some (pending - 1)
      else none
    return Char.ofNat octet :: (← unescape? pending rest)
  | c :: rest =>
    if c = '%' || pending ≠ 0 then none else (unescape? 0 rest).map (c :: ·)
  | [] => if pending = 0 then some [] else none

/-- Text of a tag, which may be empty; in full, it may hold commas and brackets. -/
def uri (inFull : Bool) : Reads Mark (List Char) := do
  Reads.require (unescape? 0
    (← takeWhile fun c => isUriChar c || (inFull && [',', '[', ']'].contains c)))

structure Directives where
  versioned : Bool
  /-- Handles and what they stand for. -/
  handles : List (String × String)

namespace Directives

def none : Directives := ⟨false, []⟩

def standardHandles : List (String × String) :=
  [("!", "!"), ("!!", "tag:yaml.org,2002:")]

def meaning? (d : Directives) (handle : String) : Option String :=
  (d.handles ++ standardHandles).lookup handle

end Directives

def versionNumber : Reads Mark Nat := do
  let digits ← takeWhile Numeral.isDigit
  guard (!digits.isEmpty && digits.length ≤ 9)
  return Numeral.decimal digits

def versionDirective (d : Directives) : Reads Mark Directives := do
  blanks
  let major ← versionNumber
  guard (← takeIf '.')
  let minor ← versionNumber
  guard (!d.versioned && major = 1 && (minor = 1 || minor = 2))
  return { d with versioned := true }

/-- A handle is an exclamation mark, or a name, which may be empty, between two. -/
def handle : Reads Mark String := do
  guard (← takeIf '!')
  let name ← takeWhile isNameChar
  if ← takeIf '!' then return String.ofList ('!' :: name ++ ['!'])
  else
    guard name.isEmpty
    return "!"

def handleDirective (d : Directives) : Reads Mark Directives := do
  blanks
  let handle ← handle
  guard ((← peekChar).any isBlank)
  blanks
  let meaning ← uri true
  guard (!meaning.isEmpty && gapNext (← get) && (d.handles.lookup handle).isNone)
  return { d with handles := (handle, String.ofList meaning) :: d.handles }

/-- A directive behind its percent sign. -/
def directive (d : Directives) : Reads Mark Directives := do
  let name ← takeWhile isNameChar
  guard (gapNext (← get))
  let d ←
    if name = "YAML".toList then versionDirective d
    else if name = "TAG".toList then handleDirective d
    else failure
  lineEnd
  return d

/-- A tag behind its exclamation mark. One that consists of this mark only stands
for itself. -/
def tag (d : Directives) (inFlow : Bool) : Reads Mark String := do
  let text ←
    if ← takeIf '<' then
      let text ← uri true
      guard (!text.isEmpty && (← takeIf '>'))
      pure (String.ofList text)
    else
      let name ← takeWhile isNameChar
      if ← takeIf '!' then
        let meaning ← Reads.require (d.meaning? (String.ofList ('!' :: name ++ ['!'])))
        let suffix ← uri false
        guard (!suffix.isEmpty)
        pure (meaning ++ String.ofList suffix)
      else
        let suffix := name ++ (← uri false)
        if suffix.isEmpty then pure "!"
        else pure ((← Reads.require (d.meaning? "!")) ++ String.ofList suffix)
  guard (gapNext (← get) || (inFlow && (← peekChar) = some ','))
  return text

end SmtDialogue.Yaml
