/-
The tokens of a JSON text. The lexer is a machine that reads one character at a time, so a text and
its pieces give the same tokens. What cannot be a token ends the text with `Token.broken`. Two ways
of going over a text differ in what they complain about, so a break says both what reading the text
finds and what skipping over it finds: skipping leaves unpaired surrogates and number ranges alone,
and calls a numeral that ends too early malformed.
-/
import ModelStream.Decimal
import ModelStream.Json.Basic
import ModelStream.Text.Digit

namespace ModelStream.Json

open Text (digit? hexDigit?)

inductive Mark
  | openList | closeList | openObject | closeObject | comma | colon
  deriving Repr, DecidableEq

/-- A value that holds no others. -/
inductive Scalar
  | null
  | bool (b : Bool)
  /-- None for a number beyond the range of floats. -/
  | number (n : Option Number)
  /-- None for a string that holds an unpaired surrogate. -/
  | text (s : Option String)

/-- Where the text stops being JSON. -/
structure Break where
  /-- What reading finds. -/
  read : Problem
  /-- What skipping finds. -/
  skip : Problem
  deriving Repr, DecidableEq

def Break.malformed : Break := ⟨.malformed, .malformed⟩
def Break.truncated : Break := ⟨.truncated, .truncated⟩

inductive Token
  | mark (m : Mark)
  | scalar (s : Scalar)
  /-- The break, and whether it lies inside a string. -/
  | broken (inText : Bool) (b : Break)

/-! ## Numerals -/

/-- A numeral as far as it has been read, digits newest first. -/
structure Numeral where
  negative : Bool := false
  whole : List Nat := []
  fraction : List Nat := []
  exponentNegative : Bool := false
  exponent : List Nat := []
  /-- Written with neither point nor exponent. -/
  integral : Bool := true

/-- Where in a numeral the machine is. -/
inductive Numeral.Place
  | sign | zero | whole | point | fraction | mark | markSign | exponent
  deriving DecidableEq

def Numeral.Place.complete : Numeral.Place → Bool
  | .zero | .whole | .fraction | .exponent => true
  | _ => false

/-- The numeral with one more character; none when the character does not belong to it. -/
def Numeral.step (place : Place) (n : Numeral) (c : Char) : Option (Place × Numeral) :=
  match place, digit? c with
  | .sign, some d => some (if d == 0 then .zero else .whole, { n with whole := [d] })
  | .whole, some d => some (.whole, { n with whole := d :: n.whole })
  | .point, some d | .fraction, some d => some (.fraction, { n with fraction := d :: n.fraction })
  | .mark, some d | .markSign, some d | .exponent, some d =>
    some (.exponent, { n with exponent := d :: n.exponent })
  | .zero, some _ => none
  | place, none =>
    if c == '.' && (place == .zero || place == .whole) then some (.point, { n with integral := false })
    else if (c == 'e' || c == 'E') && place.complete && place != .exponent then
      some (.mark, { n with integral := false })
    else if (c == '+' || c == '-') && place == .mark then
      some (.markSign, { n with exponentNegative := c == '-' })
    else none

def ofDigits (digits : List Nat) : Nat := digits.foldl (fun n d => n * 10 + d) 0

/-- The digits that fit 64 bits, oldest first: the number so far and the digits that are left. -/
def takeDigits (n : Nat) : List Nat → Nat × List Nat
  | [] => (n, [])
  | d :: ds => if n * 10 + d < Nat.pow 2 64 then takeDigits (n * 10 + d) ds else (n, d :: ds)

/-- `x` divided by ten to the power `k`, by at most 10³⁰⁸ at a time. -/
def divideByPower (x : Float) (k : Nat) : Float :=
  if k ≤ 308 then x / Float.ofScientific 1 false k
  else if x == 0.0 then x
  else divideByPower (x / Float.ofScientific 1 false 308) (k - 308)
termination_by k

/-- `x` times ten to the power `k`, if that is finite. -/
def timesPower? (x : Float) (k : Nat) : Option Float :=
  if k ≤ 308 then
    let y := x * Float.ofScientific 1 false k
    if y.isInf then none else some y
  else if x == 0.0 then some x else none

/-- The float of a numeral: the digits that fit 64 bits become the nearest float, which is then
multiplied or divided once by a power of ten. Digits left over count as zeros before the point and
not at all after it. None when the result is infinite. -/
def Numeral.float? (n : Numeral) : Option Float :=
  let (significand, dropped) := takeDigits 0 n.whole.reverse
  let (significand, left) := takeDigits significand n.fraction.reverse
  let shift : Int := (dropped.length : Int) - ((n.fraction.length : Int) - left.length)
  let size := ofDigits n.exponent.reverse
  let signed (x : Float) : Float := if n.negative then -x else x
  if size < Nat.pow 2 31 then
    let k : Int := shift + if n.exponentNegative then -(size : Int) else size
    let x := significand.toUInt64.toFloat
    if 0 ≤ k then (timesPower? x k.toNat).map signed else some (signed (divideByPower x k.natAbs))
  else if significand != 0 && ! n.exponentNegative then none
  else some (signed 0.0)

/-- The number a complete numeral denotes: an integer if it is written as one and fits 64 bits. A
negative zero is a float. -/
def Numeral.number? (n : Numeral) : Option Number :=
  let size := ofDigits n.whole.reverse
  if n.integral && (if n.negative then 0 < size && size ≤ Nat.pow 2 63 else size < Nat.pow 2 64) then
    some (.int (if n.negative then -(size : Int) else size))
  else n.float?.map .float

/-! ## Strings -/

/-- A string as far as it has been read. -/
structure TextSoFar where
  /-- The characters, newest first. -/
  chars : List Char := []
  /-- A leading surrogate that waits for its partner. -/
  lead : Option Nat := none
  /-- A surrogate has no partner. -/
  unpaired : Bool := false

/-- Where in a string the machine is. -/
inductive TextPlace
  | plain
  | escape
  /-- After the `u` of an escape: the bytes seen and the value of the digits, none once one of them
  is no digit. -/
  | hex (bytes : Nat) (value : Option Nat)

namespace TextSoFar

/-- What a break inside the string is, given what it is without regard to surrogates. -/
def breakAs (t : TextSoFar) (p : Problem) : Break := ⟨if t.unpaired then .malformed else p, p⟩

def push (t : TextSoFar) (c : Char) : TextSoFar := { t with chars := c :: t.chars }

/-- The leading surrogate that waits, if any, gets no partner. -/
def settle (t : TextSoFar) : TextSoFar :=
  { t with lead := none, unpaired := t.unpaired || t.lead.isSome }

def pushUnit (t : TextSoFar) (unit : Nat) : TextSoFar :=
  let trailing := 0xDC00 ≤ unit && unit ≤ 0xDFFF
  match t.lead with
  | some lead =>
    if trailing then
      { t with chars := Char.ofNat ((lead - 0xD800) * 0x400 + (unit - 0xDC00) + 0x10000) :: t.chars, lead := none }
    else t.settle
  | none =>
    if trailing then { t with unpaired := true }
    else if 0xD800 ≤ unit && unit ≤ 0xDBFF then { t with lead := some unit }
    else t.push (Char.ofNat unit)

def toScalar (t : TextSoFar) : Scalar :=
  .text (if t.unpaired then none else some (String.ofList t.chars.reverse))

end TextSoFar

def escaped? (c : Char) : Option Char :=
  if c == '"' || c == '\\' || c == '/' then some c
  else if c == 'n' then some '\n'
  else if c == 'r' then some '\r'
  else if c == 't' then some '\t'
  else if c == 'b' then some '\x08'
  else if c == 'f' then some '\x0c'
  else none

/-! ## The machine -/

/-- What the lexer is inside of. -/
inductive Lexer.Mode
  | between
  /-- The letters still to come, and what the word means. -/
  | word (rest : List Char) (value : Scalar)
  | numeral (place : Numeral.Place) (n : Numeral)
  | text (place : TextPlace) (t : TextSoFar)
  | stopped

structure Lexer where
  /-- The tokens so far, newest first. -/
  tokens : List Token := []
  mode : Lexer.Mode := .between

namespace Lexer

def emit (x : Lexer) (t : Token) : Lexer := { tokens := t :: x.tokens, mode := .between }

def stop (x : Lexer) (inText : Bool) (b : Break) : Lexer :=
  { tokens := .broken inText b :: x.tokens, mode := .stopped }

def enter (x : Lexer) (mode : Mode) : Lexer := { x with mode }

def isSpace (c : Char) : Bool := c == ' ' || c == '\n' || c == '\t' || c == '\r'

def mark? (c : Char) : Option Mark :=
  if c == '[' then some .openList
  else if c == ']' then some .closeList
  else if c == '\x7b' then some .openObject
  else if c == '\x7d' then some .closeObject
  else if c == ',' then some .comma
  else if c == ':' then some .colon
  else none

/-- A character between tokens. -/
def start (x : Lexer) (c : Char) : Lexer :=
  if isSpace c then x.enter .between
  else match mark? c with
  | some m => x.emit (.mark m)
  | none =>
    if c == '"' then x.enter (.text .plain {})
    else if c == 'n' then x.enter (.word ['u', 'l', 'l'] .null)
    else if c == 't' then x.enter (.word ['r', 'u', 'e'] (.bool true))
    else if c == 'f' then x.enter (.word ['a', 'l', 's', 'e'] (.bool false))
    else if c == '-' then x.enter (.numeral .sign { negative := true })
    else match digit? c with
    | some d => x.enter (.numeral (if d == 0 then .zero else .whole) { whole := [d] })
    | none => x.stop false .malformed

def stepText (x : Lexer) (place : TextPlace) (t : TextSoFar) (c : Char) : Lexer :=
  match place with
  | .plain =>
    if c == '\\' then x.enter (.text .escape t)
    else
      let t := t.settle
      if c == '"' then x.emit (.scalar t.toScalar)
      else if c.toNat < 0x20 then x.stop true (t.breakAs .malformed)
      else x.enter (.text .plain (t.push c))
  | .escape =>
    if c == 'u' then x.enter (.text (.hex 0 (some 0)) t)
    else
      let t := t.settle
      match escaped? c with
      | some e => x.enter (.text .plain (t.push e))
      | none => x.stop true (t.breakAs .malformed)
  | .hex bytes value =>
    let bytes := bytes + c.utf8Size
    let value := value.bind fun v => (hexDigit? c).map (v * 16 + ·)
    if bytes < 4 then x.enter (.text (.hex bytes value) t)
    else match value with
      | some unit => x.enter (.text .plain (t.pushUnit unit))
      | none => x.stop true (t.breakAs .malformed)

/-- The token of a numeral that has ended before `c`, or the break it is. -/
def endNumeral (x : Lexer) (place : Numeral.Place) (n : Numeral) (c : Char) : Lexer :=
  if place.complete && ! (place == .zero && (digit? c).isSome) then
    (x.emit (.scalar (.number n.number?))).start c
  else x.stop false .malformed

def step (x : Lexer) (c : Char) : Lexer :=
  match x.mode with
  | .between => x.start c
  | .word (e :: rest) value =>
    if c == e then
      if rest.isEmpty then x.emit (.scalar value) else x.enter (.word rest value)
    else x.stop false .malformed
  | .word [] _ => x.stop false .malformed
  | .numeral place n =>
    match n.step place c with
    | some (place, n) => x.enter (.numeral place n)
    | none => x.endNumeral place n c
  | .text place t => x.stepText place t c
  | .stopped => x

def finish (x : Lexer) : Lexer :=
  match x.mode with
  | .between | .stopped => x
  | .word .. => x.stop false .truncated
  | .numeral place n =>
    if place.complete then x.emit (.scalar (.number n.number?))
    else x.stop false ⟨.truncated, .malformed⟩
  | .text _ t => x.stop true (t.breakAs .truncated)

end Lexer

def tokens (text : List Char) : List Token :=
  (text.foldl Lexer.step {}).finish.tokens.reverse

end ModelStream.Json
