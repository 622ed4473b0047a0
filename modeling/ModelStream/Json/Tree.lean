/-
JSON texts as trees. A tree keeps what a value forgets: the order of fields, repeated names, and
where the text breaks off. So every reading of a text, strict, skipping or by expected kinds, is a
function on its tree that meets the parts in reading order and stops at the first problem.
-/
import ModelStream.Json.Token

namespace ModelStream.Json

/-- A field name; none if it holds an unpaired surrogate. -/
abbrev Key := Option String

inductive Tree
  | scalar (s : Scalar)
  /-- The items, and the break that stands where a comma or the end should. -/
  | list (items : List Tree) (cut : Option Break)
  /-- The fields, and the break that stands where a comma, a name or the end should. -/
  | object (fields : List (Key × Tree)) (cut : Option Break)
  /-- The break stands where a value should. -/
  | broken (b : Break)

/-- A whole text: its value, and whether more follows it. -/
structure Document where
  root : Tree
  trailing : Bool := false

/-! ## Building -/

/-- A list or an object part way through, parts newest first. -/
inductive Open
  | list (items : List Tree)
  /-- The name is that of the field whose value is being read. -/
  | object (fields : List (Key × Tree)) (name : Key)

/-- What may come next. -/
inductive Expect
  | value
  /-- A value, or the end of the list just opened. -/
  | item
  /-- A name, or, in an object just opened, its end. -/
  | name (first : Bool)
  | colon
  /-- A comma or the end of the list or object. -/
  | next

inductive Builder
  | reading (stack : List Open) (expect : Expect)
  | complete (root : Tree) (trailing : Bool)

namespace Builder

/-- Hands a finished value to the list or object it belongs to. -/
def attach (stack : List Open) (t : Tree) : Builder :=
  match stack with
  | [] => .complete t false
  | .list items :: outer => .reading (.list (t :: items) :: outer) .next
  | .object fields name :: outer => .reading (.object ((name, t) :: fields) none :: outer) .next

/-- The text breaks off: everything open is closed around `t`. -/
def breakOff (b : Break) : List Open → Tree → Builder
  | [], t => .complete t false
  | .list items :: outer, t => breakOff b outer (.list (t :: items).reverse (some b))
  | .object fields name :: outer, t => breakOff b outer (.object ((name, t) :: fields).reverse (some b))

/-- The text breaks off where a value should stand. -/
def breakValue (stack : List Open) (b : Break) : Builder := breakOff b stack (.broken b)

/-- The text breaks off where a comma, a name or an end should stand. -/
def breakBetween (stack : List Open) (b : Break) : Builder :=
  match stack with
  | [] => .complete (.broken b) false
  | .list items :: outer => breakOff b outer (.list items.reverse (some b))
  | .object fields _ :: outer => breakOff b outer (.object fields.reverse (some b))

/-- A token where a value should stand. -/
def stepValue (stack : List Open) : Token → Builder
  | .scalar s => attach stack (.scalar s)
  | .mark .openList => .reading (.list [] :: stack) .item
  | .mark .openObject => .reading (.object [] none :: stack) (.name true)
  | .mark _ => breakValue stack .malformed
  | .broken _ b => breakValue stack b

/-- A token where a name should stand, in an object with these fields. -/
def stepName (fields : List (Key × Tree)) (outer : List Open) (first : Bool) : Token → Builder
  | .scalar (.text s) => .reading (.object fields s :: outer) .colon
  | .mark .closeObject =>
    if first then attach outer (.object [] none)
    else breakBetween (.object fields none :: outer) .malformed
  | .broken true b => breakBetween (.object fields none :: outer) b
  | _ => breakBetween (.object fields none :: outer) .malformed

/-- A token after an item or a field. -/
def stepNext (stack : List Open) (t : Token) : Builder :=
  match stack, t with
  | .list items :: outer, .mark .closeList => attach outer (.list items.reverse none)
  | .object fields _ :: outer, .mark .closeObject => attach outer (.object fields.reverse none)
  | .list items :: outer, .mark .comma => .reading (.list items :: outer) .value
  | .object fields _ :: outer, .mark .comma => .reading (.object fields none :: outer) (.name false)
  | stack, _ => breakBetween stack .malformed

def step : Builder → Token → Builder
  | .complete root _, _ => .complete root true
  | .reading stack expect, t =>
    match expect, stack, t with
    | .item, .list _ :: outer, .mark .closeList => attach outer (.list [] none)
    | .item, stack, t | .value, stack, t => stepValue stack t
    | .name first, .object fields _ :: outer, t => stepName fields outer first t
    | .name _, stack, _ => breakBetween stack .malformed
    | .colon, stack, .mark .colon => .reading stack .value
    | .colon, stack, _ => breakValue stack .malformed
    | .next, stack, t => stepNext stack t

/-- The end of the tokens. -/
def finish : Builder → Document
  | .complete root trailing => ⟨root, trailing⟩
  | .reading stack expect =>
    let broken := match expect with
      | .value | .item | .colon => breakValue stack .truncated
      | .name _ | .next => breakBetween stack .truncated
    match broken with
    | .complete root _ => ⟨root, false⟩
    | .reading .. => ⟨.broken .truncated, false⟩

end Builder

def Document.ofTokens (ts : List Token) : Document :=
  (ts.foldl Builder.step (.reading [] .value)).finish

def Document.ofText (text : String) : Document := .ofTokens (tokens text.toList)

/-! ## Values -/

/-- How many lists and objects may lie inside each other. -/
def maxDepth : Nat := 127

def Scalar.value : Scalar → Except Problem Json
  | .null => .ok .null
  | .bool b => .ok (.bool b)
  | .number (some n) => .ok (.number n)
  | .text (some s) => .ok (.str s)
  | .number none | .text none => .error .malformed

/-- What reading finds at the end of a list or object. -/
def Break.check : Option Break → Except Problem Unit
  | none => .ok ()
  | some b => .error b.read

/-- A name that is read. -/
def Key.read : Key → Except Problem String
  | some name => .ok name
  | none => .error .malformed

namespace Tree

mutual

/-- The value of a tree in which at most `depth` lists and objects lie inside each other. -/
def value (depth : Nat) : Tree → Except Problem Json
  | .scalar s => s.value
  | .broken b => .error b.read
  | .list items cut =>
    if depth = 0 then .error .malformed
    else do
      let vs ← values (depth - 1) items
      Break.check cut
      return .arr vs
  | .object fields cut =>
    if depth = 0 then .error .malformed
    else do
      let vs ← fieldValues (depth - 1) fields
      Break.check cut
      return Json.object vs

def values (depth : Nat) : List Tree → Except Problem (List Json)
  | [] => .ok []
  | t :: ts => do
    let v ← value depth t
    let vs ← values depth ts
    return v :: vs

def fieldValues (depth : Nat) : List (Key × Tree) → Except Problem (List (String × Json))
  | [] => .ok []
  | (k, t) :: more => do
    let k ← k.read
    let v ← value depth t
    let vs ← fieldValues depth more
    return (k, v) :: vs

end

mutual

/-- What skipping over a tree finds. -/
def skip : Tree → Except Problem Unit
  | .scalar _ => .ok ()
  | .broken b => .error b.skip
  | .list items cut => do
    skipItems items
    match cut with
    | none => .ok ()
    | some b => .error b.skip
  | .object fields cut => do
    skipFields fields
    match cut with
    | none => .ok ()
    | some b => .error b.skip

def skipItems : List Tree → Except Problem Unit
  | [] => .ok ()
  | t :: ts => do skip t; skipItems ts

def skipFields : List (Key × Tree) → Except Problem Unit
  | [] => .ok ()
  | (_, t) :: more => do skip t; skipFields more

end

mutual

/-- The tree of a value. -/
def ofValue : Json → Tree
  | .null => .scalar .null
  | .bool b => .scalar (.bool b)
  | .number n => .scalar (.number (some n))
  | .str s => .scalar (.text (some s))
  | .arr items => .list (ofValues items) none
  | .obj fields => .object (ofFields fields) none

def ofValues : List Json → List Tree
  | [] => []
  | v :: vs => ofValue v :: ofValues vs

def ofFields : List (String × Json) → List (Key × Tree)
  | [] => []
  | (k, v) :: more => (some k, ofValue v) :: ofFields more

end

end Tree

/-- The value that is all of the text, blanks around it apart. -/
def Document.value (d : Document) : Except Problem Json := do
  let v ← d.root.value maxDepth
  if d.trailing then throw .malformed
  return v

/-- The value of a text. -/
def parse (text : String) : Except Problem Json := (Document.ofText text).value

end ModelStream.Json
