/-
JSON values as compact text: no blanks, fields in the order of the value, in strings only the quote,
the reverse solidus and the controls below U+0020 escaped. Floats have a point or an exponent, so
that no float is written like an integer.
-/
import ModelStream.Decimal
import ModelStream.Json.Basic

namespace ModelStream.Json

/-- Floats are positional from 10⁻⁵ up to below 10¹⁶, and otherwise have an exponent after `e`. -/
def floats : Decimal.Layout := { leastPlain := -5, greatestPlain := 15, mark := 'e' }

def Number.write : Number → List Char
  | .int n => if n < 0 then '-' :: Nat.toDigits 10 n.natAbs else Nat.toDigits 10 n.natAbs
  | .float x => Decimal.writeFloat floats x

def hexDigit (n : Nat) : Char := if n < 10 then Char.ofNat (48 + n) else Char.ofNat (87 + n)

def escape (c : Char) : List Char :=
  if c == '"' then ['\\', '"']
  else if c == '\\' then ['\\', '\\']
  else if c.toNat < 0x20 then
    if c == '\n' then ['\\', 'n']
    else if c == '\r' then ['\\', 'r']
    else if c == '\t' then ['\\', 't']
    else if c.toNat == 8 then ['\\', 'b']
    else if c.toNat == 12 then ['\\', 'f']
    else ['\\', 'u', '0', '0', hexDigit (c.toNat / 16), hexDigit (c.toNat % 16)]
  else [c]

/-- A string in quotes, before the text `rest`. -/
def quote (s : String) (rest : List Char) : List Char :=
  '"' :: (s.toList.flatMap escape ++ '"' :: rest)

mutual

/-- The text of a value, before the text `rest`. -/
def write : Json → List Char → List Char
  | .null, rest => 'n' :: 'u' :: 'l' :: 'l' :: rest
  | .bool true, rest => 't' :: 'r' :: 'u' :: 'e' :: rest
  | .bool false, rest => 'f' :: 'a' :: 'l' :: 's' :: 'e' :: rest
  | .number n, rest => n.write ++ rest
  | .str s, rest => quote s rest
  | .arr [], rest => '[' :: ']' :: rest
  | .arr (v :: vs), rest => '[' :: write v (writeItems vs (']' :: rest))
  | .obj [], rest => '\x7b' :: '\x7d' :: rest
  | .obj ((k, v) :: more), rest => '\x7b' :: quote k (':' :: write v (writeFields more ('\x7d' :: rest)))

/-- The items after the first one. -/
def writeItems : List Json → List Char → List Char
  | [], rest => rest
  | v :: vs, rest => ',' :: write v (writeItems vs rest)

def writeFields : List (String × Json) → List Char → List Char
  | [], rest => rest
  | (k, v) :: more, rest => ',' :: quote k (':' :: write v (writeFields more rest))

end

def render (v : Json) : String := String.ofList (write v [])

end ModelStream.Json
