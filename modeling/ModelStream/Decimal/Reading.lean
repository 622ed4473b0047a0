/-
Decimal texts of floats: digits with an optional point among or around them and an optional exponent,
or one of the words for infinity and for no number, in any case. A sign may stand before either.
-/
import ModelStream.Decimal
import ModelStream.Text.Digit

namespace ModelStream.Decimal

open Text (valueOf)

def exponent? (cs : List Char) : Option Int :=
  let (negative, ds) := match cs with
    | '-' :: ds => (true, ds)
    | '+' :: ds => (false, ds)
    | ds => (false, ds)
  if ds.isEmpty || ! ds.all Char.isDigit then none
  else some (if negative then -(valueOf 10 ds : Int) else valueOf 10 ds)

def unsigned? (cs : List Char) : Option Float := do
  let whole := cs.takeWhile Char.isDigit
  let cs := cs.drop whole.length
  let (fraction, cs) := match cs with
    | '.' :: cs => (cs.takeWhile Char.isDigit, cs.dropWhile Char.isDigit)
    | cs => ([], cs)
  guard (! (whole.isEmpty && fraction.isEmpty))
  let exponent ← match cs with
    | [] => some 0
    | 'e' :: cs | 'E' :: cs => exponent? cs
    | _ => none
  return toFloat (valueOf 10 (whole ++ fraction)) (exponent - fraction.length)

/-- The words that stand for a float. -/
def word? (cs : List Char) : Option Float :=
  let word := String.ofList (cs.map Char.toLower)
  if word == "inf" || word == "infinity" then some (1.0 / 0.0)
  else if word == "nan" then some (0.0 / 0.0)
  else none

/-- The float that a whole text denotes. -/
def ofText? (cs : List Char) : Option Float :=
  match cs with
  | '-' :: cs => (unsigned? cs <|> word? cs).map (-·)
  | '+' :: cs => unsigned? cs <|> word? cs
  | cs => unsigned? cs <|> word? cs

end ModelStream.Decimal
