/-
The body of a request for a stream of output items. The input is a list of items: messages, and after
each message its calls; every answer of a tool is an item of its own.
-/
import ModelStream.Options

namespace ModelStream.Responses

open Json

def part? : Part → Option Json
  | .text s => some (object [("type", "input_text"), ("text", .str s)])
  | .image i => some (object [("type", "input_image"), ("image_url", .str i.dataUrl)])
  | _ => none

def callItem (c : Call) : Json := object
  [("type", "function_call"), ("call_id", .str c.id), ("name", .str c.name), ("arguments", .str c.arguments.render)]

def resultItem (r : CallResult) : Json := object
  [("type", "function_call_output"), ("call_id", .str r.callId), ("output", .str r.text)]

/-- The parts that a message shows: its texts and its pictures. -/
def shown (parts : List Part) : List Part := parts.filter fun p => (part? p).isSome

/-- The message for what is shown, if anything is; a single text stands for itself. -/
def contentItems (role : Role) (parts : List Part) : List Json :=
  let item (content : Json) : Json := object [("role", .str role.name), ("content", content)]
  match shown parts with
  | [] => []
  | [.text s] => [item (.str s)]
  | parts => [item (.arr (parts.filterMap part?))]

/-- The items that stand for one message of the conversation. -/
def items (m : Message) : List Json :=
  match m.role with
  | .tool => m.results.map resultItem
  | role => contentItems role m.content ++ m.calls.map callItem

def toolJson (d : ToolDefinition) : Json := object
  [("type", "function"), ("name", .str d.name), ("description", .str d.description),
    ("parameters", d.parameters), ("strict", .bool false)]

def formatJson? : ResponseFormat → Option Json
  | .text => none
  | .jsonObject => some (object [("type", "json_object")])
  | .jsonSchema schema name =>
    some (object [("type", "json_schema"), ("name", .str name), ("schema", schema), ("strict", .bool true)])

def requestBody (o : Options) : Json := object <|
  [("model", .str o.model), ("input", .arr (o.messages.flatMap items)), ("stream", .bool true)] ++
  optionalField "max_output_tokens" (o.maxTokens.map ofNat) ++
  optionalField "tools" (o.toolsJson? toolJson) ++
  optionalField "text" ((o.responseFormat.bind formatJson?).map fun f => object [("format", f)]) ++
  optionalField "metadata" o.metadataJson? ++
  optionalField "previous_response_id" (o.previousResponseId.map .str)

end ModelStream.Responses
