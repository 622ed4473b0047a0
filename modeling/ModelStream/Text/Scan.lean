/-
Scanning text from the front. A scan takes characters off a text and gives a result, or fails;
nothing tells failures apart.
-/
import ModelStream.Text.Digit

namespace ModelStream.Text

abbrev Scan := StateT (List Char) Option

namespace Scan

def eof : Scan Unit := do guard (← get).isEmpty

def peek? : Scan (Option Char) := do return (← get).head?

/-- Takes the characters at the front that satisfy `p`. -/
def takeWhile (p : Char → Bool) : Scan (List Char) := do
  let found := (← get).takeWhile p
  modify (·.drop found.length)
  return found

def literal (s : String) : Scan Unit := do
  guard (s.toList.isPrefixOf (← get))
  modify (·.drop s.toList.length)

/-- Tries `p` and goes back if it fails. -/
def attempt {α : Type} (p : Scan α) : Scan (Option α) := fun text =>
  match p text with
  | some (x, rest) => some (some x, rest)
  | none => some (none, text)

/-- Repeats `p`, at most `n` times, as long as it succeeds. -/
def repeated {α : Type} (p : Scan α) : Nat → Scan (List α)
  | 0 => return []
  | n + 1 => do
    match ← attempt p with
    | some x => return x :: (← repeated p n)
    | none => return []

/-- Repeats `p`, which takes at least one character, as long as it succeeds. -/
def many {α : Type} (p : Scan α) : Scan (List α) := do repeated p (← get).length

/-- The value of one to `most` decimal digits. -/
def digits (most : Nat) : Scan Nat := do
  let found := ((← get).take most).takeWhile Char.isDigit
  guard (! found.isEmpty)
  modify (·.drop found.length)
  return valueOf 10 found

def fixed (n : Nat) : Scan Nat := do
  let found := (← get).take n
  guard (found.length == n && found.all Char.isDigit)
  modify (·.drop n)
  return valueOf 10 found

/-- A point and the decimal digits after it, in billionths, for which nine digits count. Without a
point it is zero. -/
def billionths : Scan Nat := do
  match ← get with
  | '.' :: rest => do
    let found := rest.takeWhile Char.isDigit
    guard (! found.isEmpty)
    set (rest.drop found.length)
    let shown := found.take 9
    return valueOf 10 shown * Nat.pow 10 (9 - shown.length)
  | _ => return 0

end Scan

end ModelStream.Text
