/-
Days of the Gregorian calendar, extended to all years, and their numbers counted from the first of
January 1970.
-/
namespace ModelStream

structure Date where
  year : Int
  month : Nat
  day : Nat
  deriving Repr, DecidableEq

def Date.isLeap (year : Int) : Bool := year % 4 == 0 && (year % 100 != 0 || year % 400 == 0)

def Date.daysInMonth (year : Int) (month : Nat) : Nat :=
  match month with
  | 2 => if Date.isLeap year then 29 else 28
  | 4 | 6 | 9 | 11 => 30
  | _ => 31

/-- The month exists, and it has the day. -/
def Date.isValid (d : Date) : Bool :=
  1 ≤ d.month && d.month ≤ 12 && 1 ≤ d.day && d.day ≤ Date.daysInMonth d.year d.month

/-- The days from the first of January 1970 to a date; years are counted from March on. -/
def Date.toDay (d : Date) : Int :=
  let year := if d.month ≤ 2 then d.year - 1 else d.year
  let month : Int := (d.month + 9) % 12
  365 * year + year / 4 - year / 100 + year / 400 + (153 * month + 2) / 5 + d.day - 719469

/-- The date so many days after the first of January 1970. -/
def Date.ofDay (n : Int) : Date :=
  let n := n + 719468
  let era := n / 146097
  let inEra := n % 146097
  let yearOfEra := (inEra - inEra / 1460 + inEra / 36524 - inEra / 146096) / 365
  let inYear := inEra - (365 * yearOfEra + yearOfEra / 4 - yearOfEra / 100)
  let fromMarch := (5 * inYear + 2) / 153
  let month := (fromMarch + 2) % 12 + 1
  let year := era * 400 + yearOfEra + if month ≤ 2 then 1 else 0
  { year, month := month.toNat, day := (inYear - (153 * fromMarch + 2) / 5 + 1).toNat }

end ModelStream
