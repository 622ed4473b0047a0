/-
JSON values. The fields of an object are kept in ascending order of their names, each name once;
of repeated names the last one counts. Numbers are exact integers or binary floats, never both:
which one a text denotes is decided when it is read.
-/
import ModelStream.Ordered

namespace ModelStream

inductive Json.Number
  | int (n : Int)
  | float (x : Float)

inductive Json
  | null
  | bool (b : Bool)
  | number (n : Json.Number)
  | str (s : String)
  | arr (items : List Json)
  | obj (fields : List (String × Json))

namespace Json

instance : Inhabited Json := ⟨.null⟩

/-- Why a text cannot be read. -/
inductive Problem
  /-- The text breaks the grammar, a number is out of range, or lists and objects lie too deep. -/
  | malformed
  /-- The text ends too early. -/
  | truncated
  /-- The value is not of the kind that is wanted here. -/
  | mismatched
  deriving Repr, DecidableEq

def Problem.message : Problem → String
  | .malformed => "<syntax>"
  | .truncated => "<eof>"
  | .mismatched => "<data>"

/-! ## Objects -/

abbrev Fields := List (String × Json)

namespace Fields

/-- The fields of both, those of `newer` before those of `older`. -/
def overlay (older newer : Fields) : Fields :=
  newer.foldl (fun fields p => Ordered.put p.1 p.2 fields) older

/-- The fields of both, those of `older` before those of `newer`. -/
def supply (older newer : Fields) : Fields :=
  newer.foldl (fun fields p => if Ordered.has fields p.1 then fields else Ordered.put p.1 p.2 fields) older

end Fields

/-- The object with these fields. -/
def object (pairs : List (String × Json)) : Json := .obj (Ordered.ofList pairs)

/-- A field of an object. -/
def get? (v : Json) (name : String) : Option Json :=
  match v with
  | .obj fields => Ordered.get? fields name
  | _ => none

/-! ## Views -/

def str? : Json → Option String
  | .str s => some s
  | _ => none

def fields? : Json → Option Fields
  | .obj fields => some fields
  | _ => none

/-- A whole number from zero up. -/
def nat? : Json → Option Nat
  | .number (.int n) => if 0 ≤ n then some n.toNat else none
  | _ => none

/-- The float nearest to a 64-bit integer. -/
def floatOfInt (n : Int) : Float :=
  if n < 0 then -(n.natAbs.toUInt64.toFloat) else n.natAbs.toUInt64.toFloat

/-- Any number, as a float. -/
def float? : Json → Option Float
  | .number (.int n) => some (floatOfInt n)
  | .number (.float x) => some x
  | _ => none

instance : Coe String Json := ⟨.str⟩

/-- The value of a count or an index. -/
def ofNat (n : Nat) : Json := .number (.int n)

end Json

end ModelStream
