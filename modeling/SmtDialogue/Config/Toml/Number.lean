import SmtDialogue.Config.Datum

/-!
# Numbers of TOML

A whole number has 64 bits, one of them for its sign; in base sixteen, eight or two
it has no sign. Single underscores may stand between digits. A number with a
fraction or an exponent is only recognised, and may not round to infinity.
-/

namespace SmtDialogue.Toml

/-- Digits of a base without the underscores between them. -/
def grouped? (base : Nat) : List Char → Option (List Char)
  | [] => none
  | [c] => if (Numeral.digit? base c).isSome then some [c] else none
  | c :: '_' :: rest =>
    if (Numeral.digit? base c).isSome then (grouped? base rest).map (c :: ·) else none
  | c :: rest =>
    if (Numeral.digit? base c).isSome then (grouped? base rest).map (c :: ·) else none

/-- Decimal digits that do not begin with a zero, unless they are one. -/
def whole? (cs : List Char) : Option (List Char) :=
  match grouped? 10 cs with
  | some ('0' :: _ :: _) => none
  | digits? => digits?

def exponent? : List Char → Option (List Char)
  | [] => some []
  | c :: cs =>
    if c = 'e' || c = 'E' then
      match cs with
      | '+' :: ds => grouped? 10 ds |>.map ('e' :: ·)
      | '-' :: ds => grouped? 10 ds |>.map ('e' :: '-' :: ·)
      | ds => grouped? 10 ds |>.map ('e' :: ·)
    else none

def isGroupChar (c : Char) : Bool :=
  Numeral.isDigit c || c = '_'

/-- What follows the whole part of a number with a fraction or an exponent, without
underscores. -/
def fraction? : List Char → Option (List Char)
  | '.' :: cs => do
    let digits ← grouped? 10 (cs.takeWhile isGroupChar)
    return '.' :: digits ++ (← exponent? (cs.dropWhile isGroupChar))
  | cs => exponent? cs

/-- Whether a number is within 64 bits with a sign. -/
def integer? (negative : Bool) (n : Nat) : Option Datum :=
  if negative then if n ≤ 1 <<< 63 then some (.integer (-(n : Int))) else none
  else if n < 1 <<< 63 then some (.integer n) else none

def based? (base : Nat) (cs : List Char) : Option Datum := do
  let digits ← grouped? base cs
  integer? false (Numeral.value base (← digits.mapM (Numeral.digit? base)))

/-- A number behind its sign. -/
def magnitude? (negative : Bool) (cs : List Char) : Option Datum :=
  if cs = "inf".toList || cs = "nan".toList then some .fractional
  else do
    let digits ← whole? (cs.takeWhile isGroupChar)
    let rest := cs.dropWhile isGroupChar
    if rest.isEmpty then integer? negative (Numeral.decimal digits)
    else
      let d ← Decimal.ofChars? (digits ++ (← fraction? rest))
      if negative || d.isFinite then some .fractional else none

def number? : List Char → Option Datum
  | '0' :: 'x' :: cs => based? 16 cs
  | '0' :: 'o' :: cs => based? 8 cs
  | '0' :: 'b' :: cs => based? 2 cs
  | '-' :: cs => magnitude? true cs
  | '+' :: cs => magnitude? false cs
  | cs => magnitude? false cs

end SmtDialogue.Toml
