/-
Reading values of expected kinds. A `Reader` goes over a tree in reading order and stops at the
first problem, be it that a part has the wrong kind or that the text breaks off. A record may be
written as an object or as the list of its fields in order; a tagged value names its kind in a field
of its own or in the first item.
-/
import ModelStream.Json.Tree

namespace ModelStream.Json

structure Limits where
  /-- How many lists and objects may lie inside each other. -/
  depth : Nat := maxDepth
  /-- What items after the last field of a record are. -/
  surplus : Problem := .mismatched

abbrev Reader (α : Type) := Limits → Tree → Except Problem α

namespace Reader

/-- A tree of the wrong kind: a scalar is read before it is refused, a list or an object is refused
where it opens. -/
def refuse {α : Type} : Tree → Except Problem α
  | .scalar s => do
    let _ ← s.value
    throw .mismatched
  | .broken b => throw b.read
  | .list .. | .object .. => throw .mismatched

/-- The limits inside a list or an object. -/
def inside (l : Limits) : Except Problem Limits :=
  match l.depth with
  | 0 => throw .malformed
  | depth + 1 => return { l with depth }

/-! ## Plain kinds -/

def any : Reader Json := fun l t => t.value l.depth

def text : Reader String
  | _, .scalar (.text (some s)) => return s
  | _, t => refuse t

def flag : Reader Bool
  | _, .scalar (.bool b) => return b
  | _, t => refuse t

def natural (bits : Nat) : Reader Nat
  | _, .scalar (.number (some (.int n))) =>
    if 0 ≤ n && n.toNat < Nat.pow 2 bits then return n.toNat else throw .mismatched
  | _, t => refuse t

def nullable {α : Type} (r : Reader α) : Reader (Option α)
  | _, .scalar .null => return none
  | l, t => some <$> r l t

def listOf {α : Type} (r : Reader α) : Reader (List α)
  | l, .list items cut => do
    let l ← inside l
    let xs ← items.mapM (r l)
    Break.check cut
    return xs
  | _, t => refuse t

/-- An object whose values are of one kind, in reading order. -/
def dictionary {α : Type} (r : Reader α) : Reader (List (String × α))
  | l, .object fields cut => do
    let l ← inside l
    let pairs ← fields.mapM fun (k, t) => do
      let k ← k.read
      return (k, ← r l t)
    Break.check cut
    return pairs
  | _, t => refuse t

def fields : Reader Fields := fun l t => Ordered.ofList <$> dictionary any l t

/-! ## Records -/

/-- Whether a field may be left out. -/
inductive Need
  | always
  /-- It may be left out of an object, but not of a list. -/
  | inLists
  | never
  deriving DecidableEq

/-- A field of a record of type `σ`: reading it updates the record. -/
structure Field (σ : Type) where
  name : String
  need : Need
  read : Limits → Tree → σ → Except Problem σ

/-- The field that `r` reads and `set` enters. -/
def field {σ α : Type} (name : String) (need : Need) (r : Reader α) (set : σ → α → σ) : Field σ :=
  { name, need, read := fun l t s => set s <$> r l t }

/-- The fields of a record written as an object; `seen` holds the names met so far. -/
def recordFields {σ : Type} (known : List (Field σ)) (l : Limits) :
    List (Key × Tree) → List String → σ → Except Problem (List String × σ)
  | [], seen, s => return (seen, s)
  | (k, t) :: more, seen, s => do
    let k ← k.read
    match known.find? (·.name == k) with
    | none => do
      t.skip
      recordFields known l more seen s
    | some f =>
      if seen.contains k then throw .mismatched
      else do
        let s ← f.read l t s
        recordFields known l more (k :: seen) s

/-- The fields of a record written as a list. -/
def recordItems {σ : Type} (l : Limits) (cut : Option Break) :
    List (Field σ) → List Tree → σ → Except Problem σ
  | [], [], s => do
    Break.check cut
    return s
  | [], _ :: _, _ => throw l.surplus
  | known, [], s => do
    Break.check cut
    if known.all (·.need == .never) then return s else throw .mismatched
  | f :: known, t :: ts, s => do
    let s ← f.read l t s
    recordItems l cut known ts s

/-- A record; fields that are left out keep what they have in `blank`. A field that comes twice is
refused, an unknown one is skipped. -/
def record {σ : Type} (known : List (Field σ)) (blank : σ) : Reader σ
  | l, .object fields cut => do
    let l ← inside l
    let (seen, s) ← recordFields known l fields [] blank
    Break.check cut
    if known.all fun f => f.need != .always || seen.contains f.name then return s
    else throw .mismatched
  | l, .list items cut => do
    let l ← inside l
    recordItems l cut known items blank
  | _, t => refuse t

/-! ## Tagged values -/

/-- The fields of a tagged value: the tag, if it has been met, and the other fields so far, newest
first. Those must be readable, but may be of any kind. -/
def splitFields {α : Type} (name : String) (tag : Reader α) (l : Limits) :
    List (Key × Tree) → Option α → List (Key × Tree) → Except Problem (Option α × List (Key × Tree))
  | [], found, rest => return (found, rest.reverse)
  | (k, t) :: more, found, rest => do
    let k ← k.read
    if k == name then
      if found.isSome then throw .mismatched
      else do
        let x ← tag l t
        splitFields name tag l more (some x) rest
    else do
      let _ ← t.value l.depth
      splitFields name tag l more found ((some k, t) :: rest)

/-- A tagged value, whose tag stands in the field `name` or in the first item: the tag, and the
value without it. -/
def tagged {α : Type} (name : String) (tag : Reader α) : Reader (α × Tree)
  | l, .object fields cut => do
    let inner ← inside l
    let (found, rest) ← splitFields name tag inner fields none []
    Break.check cut
    match found with
    | some x => return (x, .object rest none)
    | none => throw .mismatched
  | l, .list items cut => do
    let inner ← inside l
    match items with
    | [] => do
      Break.check cut
      throw .mismatched
    | t :: ts => do
      let x ← tag inner t
      let _ ← Tree.values inner.depth ts
      Break.check cut
      return (x, .list ts none)
  | _, t => refuse t

/-- What is left of a tagged value without content: an object of any fields or an empty list. -/
def empty : Reader Unit
  | _, .list (_ :: _) _ => throw .mismatched
  | _, _ => return ()

/-- One of several names: the name itself, or an object that gives `null` to it. -/
def oneOf {α : Type} (names : List (String × α)) : Reader α
  | _, .scalar (.text (some s)) => find s
  | _, .object [(some s, .scalar .null)] none => find s
  | _, t => refuse t
where
  find (s : String) : Except Problem α :=
    match names.lookup s with
    | some x => return x
    | none => throw .mismatched

/-! ## Running -/

def ofText {α : Type} (r : Reader α) (text : String) : Except Problem α := do
  let d := Document.ofText text
  let x ← r { surplus := .malformed } d.root
  if d.trailing then throw .malformed
  return x

def ofValue {α : Type} (r : Reader α) (v : Json) : Except Problem α := r {} (.ofValue v)

end Reader

end ModelStream.Json
