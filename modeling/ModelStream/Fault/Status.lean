/-
The fault behind a status that means failure. A server that limits requests may say in seconds how
long to wait: in the error object of its answer, or else in a header field.
-/
import ModelStream.Decimal.Reading
import ModelStream.Fault
import ModelStream.Json.Tree
import ModelStream.Text.Blank
import ModelStream.Text.Utf8

namespace ModelStream

/-- The header fields of an answer in their order; case does not tell names apart. -/
abbrev Headers := List (String × Text.Bytes)

namespace Headers

def first? (headers : Headers) (name : String) : Option Text.Bytes :=
  (headers.find? (·.1.toLower == name)).map (·.2)

/-- A value as text, if it holds visible characters, spaces and tabs of ASCII only. -/
def text? (value : Text.Bytes) : Option (List Char) :=
  if value.all fun b => b == 9 || (32 ≤ b && b < 127) then some (value.map fun b => Char.ofNat b.toNat)
  else none

end Headers

namespace Fault

/-- Whole milliseconds, towards zero and within 64 bits; no number counts as zero. -/
def milliseconds (seconds : Float) : Nat := (seconds * 1000.0).toUInt64.toNat

def delayInBody? (body : String) : Option Nat := do
  let v ← (Json.parse body).toOption
  let seconds ← ((← v.get? "error").get? "retry_after").bind Json.float?
  return milliseconds seconds

/-- The delay in a header field, which is not negative. -/
def delayInHeaders? (headers : Headers) : Option Nat := do
  let value ← headers.first? "retry-after"
  let seconds ← Decimal.ofText? (Text.trim (← Headers.text? value))
  guard (seconds >= 0.0)
  return milliseconds seconds

def ofStatus (status : Nat) (headers : Headers) (body : String) : Fault :=
  match status with
  | 401 | 403 => .authentication body
  | 429 => .rateLimited (delayInBody? body <|> delayInHeaders? headers)
  | _ => .api status body

end Fault

end ModelStream
