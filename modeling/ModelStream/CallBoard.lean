/-
The tool calls of a stream that are still arriving, in the order of their keys, and the ids of those
already given out. Completing a call takes its draft off the board in every case, and gives the call
out only if it has a name and its id was not given out before.
-/
import ModelStream.Event
import ModelStream.Json.Tree
import ModelStream.Text.Blank

namespace ModelStream

/-- The value of an argument text: blank text is the empty object, and text that is not JSON is kept
as the field `raw` of an object. -/
def parseArguments (text : String) : Json :=
  if Text.blank text then .obj []
  else match Json.parse text with
  | .ok v => v
  | .error _ => .obj [("raw", .str text)]

/-! ## Keys -/

/-- What the fragments of one call have in common. -/
inductive CallKey
  | index (n : Nat)
  | id (s : String)
  deriving Repr, DecidableEq

namespace CallKey

/-- All indices come before all ids. -/
def Before : CallKey → CallKey → Prop
  | .index m, .index n => m < n
  | .index _, .id _ => True
  | .id _, .index _ => False
  | .id s, .id t => s < t

instance : LT CallKey := ⟨Before⟩

instance : DecidableLT CallKey := fun a b =>
  match a, b with
  | .index m, .index n => inferInstanceAs (Decidable (m < n))
  | .index _, .id _ => inferInstanceAs (Decidable True)
  | .id _, .index _ => inferInstanceAs (Decidable False)
  | .id s, .id t => inferInstanceAs (Decidable (s < t))

def text : CallKey → String
  | .index n => toString n
  | .id s => s

end CallKey

/-! ## The board -/

/-- A call whose arguments are still arriving. -/
structure CallDraft where
  arguments : String := ""
  id : Option String := none
  name : Option String := none
  deriving Repr, DecidableEq

/-- A text that is there and not empty. -/
def nonEmpty (s : Option String) : Option String := s.filter (! ·.isEmpty)

/-- The id under which a draft is given out: its own, or else the text of its key. -/
def CallDraft.callId (d : CallDraft) (key : CallKey) : String := (nonEmpty d.id).getD key.text

structure CallBoard where
  drafts : List (CallKey × CallDraft) := []
  /-- The ids given out or marked as given out. -/
  given : List String := []
  deriving Repr, DecidableEq

namespace CallBoard

def get? (b : CallBoard) (key : CallKey) : Option CallDraft := Ordered.get? b.drafts key

/-- Changes the draft of a key, which is empty at first. -/
def update (b : CallBoard) (key : CallKey) (change : CallDraft → CallDraft) : CallBoard :=
  { b with drafts := Ordered.put key (change ((b.get? key).getD {})) b.drafts }

def append (b : CallBoard) (key : CallKey) (fragment : String) : CallBoard :=
  b.update key fun d => { d with arguments := d.arguments ++ fragment }

def discard (b : CallBoard) (key : CallKey) : CallBoard := { b with drafts := Ordered.erase b.drafts key }

/-- The key of the draft that carries an id, as its key or else as its call id. -/
def find? (b : CallBoard) (id : String) : Option CallKey :=
  if Ordered.has b.drafts (.id id) then some (.id id)
  else (b.drafts.find? (·.2.id == some id)).map (·.1)

def wasGiven (b : CallBoard) (id : String) : Bool := b.given.contains id

def mark (b : CallBoard) (id : String) : CallBoard := { b with given := id :: b.given }

/-- Takes the draft of a key off the board, and gives the call out if it can be. -/
def complete (b : CallBoard) (key : CallKey) : Option ToolCall × CallBoard :=
  match b.get? key with
  | none => (none, b)
  | some d =>
    let b := b.discard key
    let id := d.callId key
    if b.wasGiven id then (none, b)
    else match nonEmpty d.name with
    | none => (none, b)
    | some name =>
      (some { id, name, arguments := parseArguments d.arguments, rawArguments := d.arguments }, b.mark id)

/-- Completes the drafts of these keys in turn. -/
def completeAll : List CallKey → CallBoard → List ToolCall × CallBoard
  | [], b => ([], b)
  | key :: keys, b =>
    let (call, b) := b.complete key
    let (calls, b) := completeAll keys b
    (call.toList ++ calls, b)

/-- Completes all drafts in key order. -/
def drain (b : CallBoard) : List ToolCall × CallBoard := completeAll (b.drafts.map (·.1)) b

end CallBoard

end ModelStream
