/-
Shortest decimals: the fewest digits that read back as the same binary float. A float is m · 2^q;
the reals that round to it form an interval about it, ends included when m is even. On the grid of
decimals with 1, 2, … digits the value has a neighbour below and one above: the first grid that has
a neighbour inside the interval wins, of two such neighbours the nearer one, and of two equally near
the even one. A `Layout` then says where the digits are written positionally.
-/
namespace ModelStream

/-- `digits` read as d.ddd times ten to the power `exponent`. -/
structure Decimal where
  digits : List Char
  exponent : Int
  deriving Repr, DecidableEq

namespace Decimal

/-! ## Binary floats -/

structure Ratio where
  num : Nat
  den : Nat

def Ratio.scale (num : Nat) (power : Int) : Ratio :=
  if 0 ≤ power then ⟨num * Nat.pow 2 power.toNat, 1⟩ else ⟨num, Nat.pow 2 (-power).toNat⟩

def Ratio.lt (a b : Ratio) : Bool := a.num * b.den < b.num * a.den

/-- A positive float and the interval of reals that round to it. -/
structure Rounding where
  value : Ratio
  low : Ratio
  high : Ratio
  /-- Whether the ends of the interval round to the float too. -/
  closed : Bool

/-- The float m · 2^q; `narrow` says that the float below is half as far as the one above. -/
def Rounding.of (m : Nat) (q : Int) (narrow : Bool) : Rounding :=
  { value := .scale (4 * m) (q - 2)
    low := .scale (4 * m - if narrow then 1 else 2) (q - 2)
    high := .scale (4 * m + 2) (q - 2)
    closed := m % 2 == 0 }

/-- The rounding interval of a positive finite float, from its bits without the sign. -/
def Rounding.ofBits (bits : Nat) : Rounding :=
  let fraction : Nat := bits % Nat.pow 2 52
  let biased : Nat := bits / Nat.pow 2 52 % 2048
  if biased == 0 then .of fraction (-1074) false
  else .of (Nat.pow 2 52 + fraction) ((biased : Int) - 1075) (fraction == 0 && biased != 1)

def Rounding.contains (r : Rounding) (x : Ratio) : Bool :=
  if r.closed then ! x.lt r.low && ! r.high.lt x else r.low.lt x && x.lt r.high

/-! ## The search -/

def magnitude (x : Ratio) : Int :=
  if x.den ≤ x.num then ((Nat.toDigits 10 (x.num / x.den)).length : Int) - 1
  else
    let below := (x.den - 1) / x.num
    if below == 0 then 0 else -((Nat.toDigits 10 below).length : Int)

def onGrid (n : Nat) (k : Int) : Ratio :=
  if 0 ≤ k then ⟨n * Nat.pow 10 k.toNat, 1⟩ else ⟨n, Nat.pow 10 (-k).toNat⟩

/-- The better of the two neighbours of the value on the grid of multiples of 10^k, if one lies in
the rounding interval. -/
def neighbour? (r : Rounding) (k : Int) : Option Nat :=
  let unit := onGrid 1 k
  let num := r.value.num * unit.den
  let den := r.value.den * unit.num
  let below := num / den
  let rest := 2 * (num % den)
  let above := below + 1
  let nearer := if rest < den then below else if den < rest then above else below + below % 2
  match r.contains (onGrid below k), r.contains (onGrid above k) with
  | true, true => some nearer
  | true, false => some below
  | false, true => some above
  | false, false => none

def stripZeros (digits : List Char) : List Char := (digits.reverse.dropWhile (· == '0')).reverse

/-- The digits of n · 10^k without zeros at the end. -/
def ofGrid (n : Nat) (k : Int) : Decimal :=
  let digits := Nat.toDigits 10 n
  { digits := stripZeros digits, exponent := k + digits.length - 1 }

/-- The shortest decimal of a rounding interval; seventeen digits always suffice. -/
def shortest (r : Rounding) : Decimal :=
  let top := magnitude r.value
  let found := (List.range 17).findSome? fun (n : Nat) =>
    let k := top - n
    (neighbour? r k).map (ofGrid · k)
  found.getD ⟨['0'], 0⟩

/-! ## Layout -/

structure Layout where
  /-- The least exponent written positionally. -/
  leastPlain : Int
  /-- The greatest exponent written positionally. -/
  greatestPlain : Int
  /-- Stands before the exponent. -/
  mark : Char

/-- The decimal by a layout: positional with at least one digit on each side of the point, otherwise
with a signed exponent and a point only between digits. -/
def write (layout : Layout) (d : Decimal) : List Char :=
  let e := d.exponent
  if layout.leastPlain ≤ e && e ≤ layout.greatestPlain then
    if e < 0 then '0' :: '.' :: (List.replicate (-e - 1).toNat '0' ++ d.digits)
    else
      let whole := d.digits.take (e.toNat + 1)
      let fraction := d.digits.drop (e.toNat + 1)
      whole ++ List.replicate (e.toNat + 1 - whole.length) '0' ++
        '.' :: (if fraction.isEmpty then ['0'] else fraction)
  else
    let head := match d.digits with
      | [] => []
      | [c] => [c]
      | c :: rest => c :: '.' :: rest
    head ++ layout.mark :: (if e < 0 then '-' else '+') :: Nat.toDigits 10 e.natAbs

def writeFloat (layout : Layout) (x : Float) : List Char :=
  let bits := x.toBits.toNat
  let sign := if Nat.pow 2 63 ≤ bits then ['-'] else []
  let rest := bits % Nat.pow 2 63
  sign ++ if rest == 0 then write layout ⟨['0'], 0⟩ else write layout (shortest (.ofBits rest))

/-! ## Reading -/

/-- The float nearest to n · 10^k. A decimal beyond the range of floats is infinite or zero, which
is decided first so that no huge power is formed. -/
def toFloat (n : Nat) (k : Int) : Float :=
  let size := (Nat.toDigits 10 n).length
  if n == 0 || k + size < -330 then 0.0
  else if 310 < k + size then 1.0 / 0.0
  else if k < 0 then Float.ofScientific n true k.natAbs
  else Float.ofScientific n false k.toNat

end Decimal

end ModelStream
