/-
The payloads of a Responses stream. A payload is first read as a value; its kind stands in the field
`type`, and kinds that are not known mean nothing. Items are kept as values and read when needed.
-/
import ModelStream.Json.Reading

namespace ModelStream.Responses

open Json Json.Reader

/-- The response object of the events that start and end a stream. -/
structure Response where
  id : Option String := none
  status : Option String := none
  output : List Json := []
  usage : Option Fields := none
  error : Option Json := none

/-- How a stream ends. -/
inductive Outcome
  | completed | failed | incomplete
  deriving Repr, DecidableEq

def Outcome.reason : Outcome → String
  | .completed => "completed"
  | .failed => "failed"
  | .incomplete => "incomplete"

/-- What an event about arguments says of the call it belongs to. -/
structure Target where
  index : Option Nat := none
  itemId : Option String := none
  callId : Option String := none
  deriving Repr, DecidableEq

/-- The arguments of a call, whole, and its name. -/
structure Arguments where
  text : Option String := none
  name : Option String := none
  deriving Repr, DecidableEq

inductive Signal
  | started (response : Response)
  | itemAdded (index : Nat) (item : Json)
  | itemDone (index : Nat) (item : Json)
  | textDelta (text : String)
  /-- A remark on the text, which is handed on as it is. -/
  | note
  | argumentsDelta (target : Target) (fragment : String)
  | argumentsDone (target : Target) (arguments : Arguments)
  | reasoningDelta (itemId : Option String) (text : String)
  | ended (outcome : Outcome) (response : Response)
  | error (code detail : Option String)
  /-- A kind that is not known. -/
  | idle

/-- A call as an item of the output. -/
structure CallItem where
  id : Option String := none
  callId : Option String := none
  name : Option String := none
  arguments : String := ""
  deriving Repr, DecidableEq

/-- An item of the output. -/
inductive Item
  | call (c : CallItem)
  | reasoning (id : Option String) (summary : List Json)
  | other

def index : Reader Nat := natural 64

def Response.reader : Reader Response := record
  [ field "id" .never (nullable text) fun r x => { r with id := x },
    field "status" .never (nullable text) fun r x => { r with status := x },
    field "output" .never (listOf any) fun r x => { r with output := x },
    field "usage" .never (nullable fields) fun r x => { r with usage := x },
    field "error" .never (nullable any) fun r x => { r with error := x }] {}

/-- The record whose one field is a response object. -/
def response : Reader Response := record [field "response" .always Response.reader fun _ x => x] {}

/-- The record of an item and its index. -/
def indexedItem : Reader (Nat × Json) := record
  [ field "output_index" .always index fun s x => (x, s.2),
    field "item" .always any fun s x => (s.1, x)] (0, .null)

/-- The fields that name a call, entered into a record by `set`. -/
def targetFields {σ : Type} (get : σ → Target) (set : σ → Target → σ) : List (Reader.Field σ) :=
  [ field "output_index" .never (nullable Responses.index) fun s x => set s { get s with index := x },
    field "item_id" .never (nullable text) fun s x => set s { get s with itemId := x },
    field "call_id" .never (nullable text) fun s x => set s { get s with callId := x }]

def Signal.ofKind (kind : String) : Reader Signal := fun l rest =>
  match kind with
  | "response.created" | "response.in_progress" => .started <$> response l rest
  | "response.output_item.added" => do
    let (i, item) ← indexedItem l rest
    return .itemAdded i item
  | "response.output_item.done" => do
    let (i, item) ← indexedItem l rest
    return .itemDone i item
  | "response.output_text.delta" => .textDelta <$> record [field "delta" .always text fun _ x => x] "" l rest
  | "response.output_text.annotation.added" => do
    empty l rest
    return .note
  | "response.function_call_arguments.delta" => do
    let known := targetFields Prod.fst (fun s x => (x, s.2)) ++
      [field "delta" .always text fun (s : Target × String) x => (s.1, x)]
    let (target, fragment) ← record known ({}, "") l rest
    return .argumentsDelta target fragment
  | "response.function_call_arguments.done" => do
    let known := targetFields Prod.fst (fun s x => (x, s.2)) ++
      [ field "arguments" .never (nullable text) fun (s : Target × Arguments) x => (s.1, { s.2 with text := x }),
        field "name" .never (nullable text) fun s x => (s.1, { s.2 with name := x })]
    let (target, arguments) ← record known ({}, {}) l rest
    return .argumentsDone target arguments
  | "response.reasoning_summary_text.delta" | "response.reasoning_text.delta" => do
    let (itemId, said) ← record
      [ field "item_id" .never (nullable text) fun s x => (x, s.2),
        field "delta" .always text fun s x => (s.1, x)] (none, "") l rest
    return .reasoningDelta itemId said
  | "response.completed" => .ended .completed <$> response l rest
  | "response.failed" => .ended .failed <$> response l rest
  | "response.incomplete" => .ended .incomplete <$> response l rest
  | "error" => do
    let (code, detail) ← record
      [ field "code" .never (nullable text) fun s x => (x, s.2),
        field "message" .never (nullable text) fun s x => (s.1, x)] (none, none) l rest
    return .error code detail
  | _ => do
    empty l rest
    return .idle

def Signal.reader : Reader Signal := fun l t => do
  let (kind, rest) ← tagged "type" text l t
  Signal.ofKind kind l rest

/-- The value of a payload, and what it signals. -/
def Signal.ofText (payload : String) : Except Problem (Json × Signal) := do
  let raw ← Json.parse payload
  return (raw, ← Reader.ofValue Signal.reader raw)

def CallItem.reader : Reader CallItem := record
  [ field "id" .never (nullable text) fun c x => { c with id := x },
    field "call_id" .never (nullable text) fun c x => { c with callId := x },
    field "name" .never (nullable text) fun c x => { c with name := x },
    field "arguments" .never text fun c x => { c with arguments := x }] {}

def Item.reader : Reader Item := fun l t => do
  let (kind, rest) ← tagged "type" text l t
  match kind with
  | "function_call" => return .call (← CallItem.reader l rest)
  | "reasoning" => do
    let (id, summary) ← record
      [ field "id" .never (nullable text) fun s x => (x, s.2),
        field "summary" .never (listOf any) fun s x => (s.1, x)] (none, []) l rest
    return .reasoning id summary
  | _ => do
    empty l rest
    return .other

def Item.ofValue (item : Json) : Except Problem Item := Reader.ofValue Item.reader item

end ModelStream.Responses
