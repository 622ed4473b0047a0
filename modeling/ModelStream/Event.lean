/-
The events that every backend's stream is decoded into, and their JSON form.
-/
import ModelStream.Fault
import ModelStream.Usage

namespace ModelStream

/-- A tool call put together from its fragments. -/
structure ToolCall where
  id : String
  name : String
  arguments : Json
  /-- The argument text as the backend streamed it. -/
  rawArguments : String

/-- What the last event of a stream reports. -/
structure Ending where
  reason : Option String := none
  /-- The usage object as the backend reported it. -/
  usage : Option Json.Fields := none
  responseId : Option String := none

/-- The counts of the reported usage. -/
def Ending.counts (e : Ending) : Option Usage := e.usage.map .ofFields

/-- What the pieces of one reasoning block have in common. -/
inductive ReasoningKey
  /-- The one block of a backend that gives reasoning no identity. -/
  | unnamed
  | named (id : String)
  deriving Repr, DecidableEq

namespace ReasoningKey

/-- The unnamed block comes first, the others by their names. -/
def Before : ReasoningKey → ReasoningKey → Prop
  | .unnamed, .named _ => True
  | _, .unnamed => False
  | .named s, .named t => s < t

instance : LT ReasoningKey := ⟨Before⟩

instance : DecidableLT ReasoningKey := fun a b =>
  match a, b with
  | .unnamed, .named _ => inferInstanceAs (Decidable True)
  | .unnamed, .unnamed | .named _, .unnamed => inferInstanceAs (Decidable False)
  | .named s, .named t => inferInstanceAs (Decidable (s < t))

def ofId : Option String → ReasoningKey
  | none => .unnamed
  | some id => .named id

def id? : ReasoningKey → Option String
  | .unnamed => none
  | .named id => some id

end ReasoningKey

inductive Event
  /-- A piece of visible text. -/
  | delta (text : String)
  | toolCall (call : ToolCall)
  /-- A piece of reasoning. -/
  | reasoning (text : String) (key : ReasoningKey)
  /-- A whole block of reasoning. -/
  | reasoningEnd (text : String) (metadata : Json.Fields)
  /-- A signal of the backend that is handed on as it is. -/
  | notice (kind : String) (payload : Json)
  | fault (message : String) (cause : Option Fault)
  | ending (e : Ending)

namespace Event

/-- The event that reports a fault in the fault's own words. -/
def ofFault (f : Fault) : Event := .fault f.message (some f)

/-- The event that reports a failure the backend told of. -/
def ofBackend (kind detail : String) : Event := .fault detail (some (.backend kind detail))

end Event

/-! ## JSON forms -/

/-- A field that is left out when it has no value. -/
def optionalField (name : String) (v : Option Json) : List (String × Json) := v.toList.map ((name, ·))

def ToolCall.fields (c : ToolCall) : List (String × Json) :=
  [("id", .str c.id), ("name", .str c.name), ("arguments", c.arguments), ("raw_arguments", .str c.rawArguments)]

def Ending.fields (e : Ending) : List (String × Json) :=
  optionalField "reason" (e.reason.map .str) ++ optionalField "usage" (e.usage.map .obj) ++
    optionalField "response_id" (e.responseId.map .str)

/-- The fields of an event; a fault's cause appears by its message. -/
def Event.fields : Event → List (String × Json)
  | .delta text => [("type", Json.str "delta"), ("text", .str text)]
  | .toolCall call => ("type", "tool_call") :: call.fields
  | .reasoning text key => [("type", Json.str "reasoning_delta"), ("text", .str text)] ++ optionalField "id" (key.id?.map .str)
  | .reasoningEnd text metadata =>
    [("type", "reasoning_end"), ("text", .str text), ("metadata", .obj metadata)]
  | .notice kind payload => [("type", "notification"), ("kind", .str kind), ("payload", payload)]
  | .fault message cause =>
    [("type", Json.str "error"), ("message", .str message)] ++ optionalField "cause" (cause.map (.str ·.message))
  | .ending e => ("type", "end") :: e.fields

end ModelStream
