/-
Dates and times of TOML: a date, a time of day, both together, or both with an offset from universal
time. Hours, minutes and seconds have two digits, and the seconds may be left out. A moment is
written in one form: a `T` before the time, all its seconds, no zeros at the end of a fraction.
-/
import ModelStream.Date
import ModelStream.Decimal
import ModelStream.Text.Scan

namespace ModelStream.Toml

open Text Text.Scan

/-- A time of day; the second 60 is a leap second. -/
structure Clock where
  hour : Nat
  minute : Nat
  second : Nat := 0
  nano : Nat := 0
  deriving Repr, DecidableEq

inductive Offset
  | universal
  /-- Minutes ahead of universal time. -/
  | ahead (minutes : Int)
  deriving Repr, DecidableEq

structure Moment where
  date : Option Date := none
  clock : Option Clock := none
  offset : Option Offset := none
  deriving Repr, DecidableEq

/-! ## Reading -/

/-- Two decimal digits whose value is below `bound`. -/
def pair (bound : Nat) : Scan Nat := do
  let n ← fixed 2
  guard (n < bound)
  return n

def scanDate : Scan Date := do
  let year ← fixed 4
  literal "-"
  let month ← fixed 2
  literal "-"
  let day ← fixed 2
  let date : Date := { year, month, day }
  guard date.isValid
  return date

def Clock.scan : Scan Clock := do
  let hour ← pair 24
  literal ":"
  let minute ← pair 60
  let rest ← attempt do
    literal ":"
    let second ← pair 61
    return (second, ← billionths)
  let (second, nano) := rest.getD (0, 0)
  return { hour, minute, second, nano }

def Offset.scan : Scan Offset :=
  (do literal "Z" <|> literal "z"; return .universal) <|> do
    let ahead ← (do literal "+"; return true) <|> (do literal "-"; return false)
    let hours ← pair 24
    literal ":"
    let minutes : Int := hours * 60 + (← pair 60)
    return .ahead (if ahead then minutes else -minutes)

namespace Moment

/-- A date and a time, and perhaps an offset. -/
def both : Scan Moment := do
  let date ← scanDate
  literal "T" <|> literal "t" <|> literal " "
  let clock ← Clock.scan
  let offset ← attempt Offset.scan
  return { date, clock, offset }

/-- The moment that a whole text spells. -/
def ofText? (cs : List Char) : Option Moment :=
  let whole (p : Scan Moment) : Option Moment := ((do let m ← p; eof; return m : Scan Moment) cs).map (·.1)
  whole both <|> whole (do return { date := ← scanDate }) <|> whole (do return { clock := ← Clock.scan })

/-- A text that is a date, which a space and a time may follow. -/
def isDate (cs : List Char) : Bool := ((do let _ ← scanDate; eof : Scan Unit) cs).isSome

end Moment

/-! ## Writing -/

def dateText (d : Date) : String :=
  padded 4 d.year.toNat ++ "-" ++ padded 2 d.month ++ "-" ++ padded 2 d.day

def Clock.toText (c : Clock) : String :=
  let fraction := if c.nano == 0 then "" else
    "." ++ String.ofList (Decimal.stripZeros (padded 9 c.nano).toList)
  padded 2 c.hour ++ ":" ++ padded 2 c.minute ++ ":" ++ padded 2 c.second ++ fraction

def Offset.toText : Offset → String
  | .universal => "Z"
  | .ahead minutes =>
    (if minutes < 0 then "-" else "+") ++ padded 2 (minutes.natAbs / 60) ++ ":" ++ padded 2 (minutes.natAbs % 60)

/-- The text of a moment. -/
def Moment.toText (m : Moment) : String :=
  let between := if m.date.isSome && m.clock.isSome then "T" else ""
  (m.date.map dateText).getD "" ++ between ++ (m.clock.map Clock.toText).getD "" ++
    (m.offset.map Offset.toText).getD ""

end ModelStream.Toml
