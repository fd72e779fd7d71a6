import SmtDialogue.Config.Reads

/-!
# Dates and times of TOML

A moment is a date, a time, or both with or without a difference to universal time.
A configuration has no place for one, so that only its text is kept, in a normal
form: a `T` before the time, at most nine digits of a fraction and no zeros behind
them, and `Z` or a difference in hours and minutes, of which zero is positive.
-/

namespace SmtDialogue.Toml.Moment

/-- So many digits, of a number within limits. -/
def digits (count least most : Nat) : Reads Char (List Char) := do
  let ds := (← get).take count
  let n := Numeral.decimal ds
  guard (ds.length = count && ds.all Numeral.isDigit && least ≤ n && n ≤ most)
  modify (·.drop count)
  return ds

def isLeapYear (year : Nat) : Bool :=
  year % 4 = 0 && (year % 100 ≠ 0 || year % 400 = 0)

def daysOf (year month : Nat) : Nat :=
  if month = 2 then if isLeapYear year then 29 else 28
  else if [4, 6, 9, 11].contains month then 30
  else 31

def date : Reads Char (List Char) := do
  let year ← digits 4 0 9999
  Reads.expect '-'
  let month ← digits 2 1 12
  Reads.expect '-'
  let day ← digits 2 1 (daysOf (Numeral.decimal year) (Numeral.decimal month))
  return year ++ '-' :: month ++ '-' :: day

/-- The digits of a fraction that are kept. -/
def fraction : Reads Char (List Char) := do
  Reads.expect '.'
  let ds ← Reads.takeWhile Numeral.isDigit
  guard (!ds.isEmpty)
  let kept := ((ds.take 9).reverse.dropWhile (· = '0')).reverse
  return if kept.isEmpty then [] else '.' :: kept

/-- A minute may have a sixty-first second. -/
def time : Reads Char (List Char) := do
  let hour ← digits 2 0 23
  Reads.expect ':'
  let minute ← digits 2 0 59
  Reads.expect ':'
  let second ← digits 2 0 60
  let fraction ← Reads.attempt fraction
  return hour ++ ':' :: minute ++ ':' :: second ++ fraction.getD []

/-- The difference to universal time. -/
def difference : Reads Char (List Char) := do
  match ← Reads.peek with
  | none => failure
  | some sign =>
    Reads.skip
    if sign = 'Z' || sign = 'z' then return ['Z']
    else
      guard (sign = '+' || sign = '-')
      let hour ← digits 2 0 23
      Reads.expect ':'
      let minute ← digits 2 0 59
      let isZero := (hour ++ minute).all (· = '0')
      return (if isZero then '+' else sign) :: hour ++ ':' :: minute

/-- A time behind a date. -/
def timeOfDay : Reads Char (List Char) := do
  guard ((← Reads.peek).any fun c => c = 'T' || c = 't' || c = ' ')
  Reads.skip
  let time ← time
  return 'T' :: time ++ ((← Reads.attempt difference).getD [])

/-- The text of a moment. -/
def read : Reads Char String := do
  match ← Reads.attempt date with
  | some date => return String.ofList (date ++ ((← Reads.attempt timeOfDay).getD []))
  | none => return String.ofList (← time)

end SmtDialogue.Toml.Moment
