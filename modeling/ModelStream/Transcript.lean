/-
What a stream has produced, folded together from its events. The pieces of visible text are joined;
pieces of reasoning are passed over, because every block comes once more as a whole.
-/
import ModelStream.Event

namespace ModelStream

structure Transcript where
  text : String := ""
  /-- The blocks of reasoning with their metadata. -/
  reasoning : List (String × Json.Fields) := []
  calls : List ToolCall := []
  notices : List (String × Json) := []
  /-- The messages of all faults. -/
  faults : List String := []
  reason : Option String := none
  usage : Option Usage := none
  responseId : Option String := none
  /-- The stream came to its closing event. -/
  completed : Bool := false

namespace Transcript

def add (t : Transcript) : Event → Transcript
  | .delta text => { t with text := t.text ++ text }
  | .toolCall call => { t with calls := t.calls ++ [call] }
  | .reasoning .. => t
  | .reasoningEnd text metadata => { t with reasoning := t.reasoning ++ [(text, metadata)] }
  | .notice kind payload => { t with notices := t.notices ++ [(kind, payload)] }
  | .fault message _ => { t with faults := t.faults ++ [message] }
  | .ending e => { t with reason := e.reason, usage := e.counts, responseId := e.responseId, completed := true }

def ofEvents (events : List Event) : Transcript := events.foldl add {}

/-- The text of all blocks of reasoning, with an empty line between them. -/
def reasoningText (t : Transcript) : String := "\n\n".intercalate (t.reasoning.map (·.1))

/-- Every field is there, those without a value as null. -/
def fields (t : Transcript) : List (String × Json) :=
  let text? (s : Option String) : Json := (s.map Json.str).getD .null
  [("text", .str t.text),
    ("reasoning", .arr (t.reasoning.map fun (s, metadata) => .object [("text", .str s), ("metadata", .obj metadata)])),
    ("tool_calls", .arr (t.calls.map fun c => .object c.fields)),
    ("notifications", .arr (t.notices.map fun (kind, payload) => .arr [.str kind, payload])),
    ("errors", .arr (t.faults.map .str)),
    ("end_reason", text? t.reason),
    ("usage", (t.usage.map Usage.toJson).getD .null),
    ("response_id", text? t.responseId),
    ("completed", .bool t.completed)]

end Transcript

end ModelStream
