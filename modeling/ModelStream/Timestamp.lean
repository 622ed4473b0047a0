/-
Instants in the relaxed spelling of RFC 3339. Months, days, hours, minutes and seconds may have one
digit, blanks may stand around each part, and the year may have a sign and then any number of
digits. An instant is kept in universal time and written with as many fraction digits, of 0, 3, 6
or 9, as show it exactly. A leap second is the second before it with a fraction of one or more.
-/
import ModelStream.Date
import ModelStream.Text.Blank
import ModelStream.Text.Scan

namespace ModelStream

open Text Text.Scan

structure Timestamp where
  /-- The days since the first of January 1970. -/
  day : Int
  /-- The seconds since midnight. -/
  second : Nat
  nano : Nat
  deriving Repr, DecidableEq

namespace Timestamp

/-! ## Reading -/

/-- The years that instants may lie in. -/
def isYear (year : Int) : Bool := -262143 ≤ year && year ≤ 262142

def skipBlanks : Scan Unit := modify trimStart

/-- Blanks, a separator, and a number of one or two digits after more blanks. -/
def next (separator : Char) : Scan Nat := do
  skipBlanks
  literal (String.singleton separator)
  skipBlanks
  digits 2

def year : Scan Int := do
  skipBlanks
  let text ← get
  match text with
  | '-' :: rest => set rest; return -(← digits rest.length)
  | '+' :: rest => set rest; return ← digits rest.length
  | _ => return ← digits 4

def date : Scan Date := do
  let year ← year
  let month ← next '-'
  let day ← next '-'
  let date : Date := { year, month, day }
  guard (isYear year && date.isValid)
  return date

/-- The second of the day and its fraction; the second 60 extends the one before. -/
def time : Scan (Nat × Nat) := do
  skipBlanks
  let hour ← digits 2
  let minute ← next ':'
  let second ← next ':'
  guard (hour < 24 && minute < 60 && second ≤ 60)
  let nano ← billionths
  if second == 60 then return (hour * 3600 + minute * 60 + 59, nano + 1000000000)
  else return (hour * 3600 + minute * 60 + second, nano)

/-- Two digits, of which the first is below `bound`. -/
def pair (bound : Nat) : Scan Nat := do
  let n ← fixed 2
  guard (n < bound * 10)
  return n

/-- The offset from universal time in seconds. -/
def offset : Scan Int := do
  skipBlanks
  let text ← get
  if (text.take 3).map Char.toUpper == "UTC".toList then
    set (text.drop 3)
    return 0
  match text with
  | 'Z' :: rest | 'z' :: rest => set rest; return 0
  | '+' :: rest => set rest; ahead
  | '-' :: rest | '\u2212' :: rest => set rest; return -(← ahead)
  | _ => failure
where
  /-- Hours and minutes, with any colons and blanks between them. -/
  ahead : Scan Int := do
    let hours ← pair 10
    modify fun cs => cs.dropWhile fun c => c == ':' || isBlank c
    let minutes ← pair 6
    guard (hours < 24)
    return hours * 3600 + minutes * 60

def instant : Scan Timestamp := do
  let date ← date
  match ← get with
  | 'T' :: rest | 't' :: rest | ' ' :: rest => set rest
  | _ => failure
  let (second, nano) ← time
  let offset ← offset
  let total := date.toDay * 86400 + second - offset
  guard (isYear (Date.ofDay (total / 86400)).year)
  return { day := total / 86400, second := (total % 86400).toNat, nano }

/-- The instant that a text spells; blanks may follow it. -/
def ofText? (text : String) : Option Timestamp := do
  let (t, rest) ← instant text.toList
  guard (rest.all isBlank)
  return t

/-! ## Writing -/

/-- A year of four digits, with a sign and perhaps more digits outside 0 to 9999. -/
def writeYear (year : Int) : String :=
  if 0 ≤ year && year ≤ 9999 then padded 4 year.toNat
  else (if year < 0 then "-" else "+") ++ padded 4 year.natAbs

def writeFraction (nano : Nat) : String :=
  if nano == 0 then ""
  else if nano % 1000000 == 0 then "." ++ padded 3 (nano / 1000000)
  else if nano % 1000 == 0 then "." ++ padded 6 (nano / 1000)
  else "." ++ padded 9 nano

/-- The text of an instant. -/
def toText (t : Timestamp) : String :=
  let date := Date.ofDay t.day
  let leap := 1000000000 ≤ t.nano
  let second := t.second % 60 + if leap then 1 else 0
  let nano := if leap then t.nano - 1000000000 else t.nano
  writeYear date.year ++ "-" ++ padded 2 date.month ++ "-" ++ padded 2 date.day ++ "T" ++
    padded 2 (t.second / 3600) ++ ":" ++ padded 2 (t.second / 60 % 60) ++ ":" ++ padded 2 second ++
    writeFraction nano ++ "Z"

end Timestamp

end ModelStream
