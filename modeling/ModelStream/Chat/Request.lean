/-
The body of a request for a chat stream. A message with calls carries its text and its calls only;
every answer of a tool is a message of its own.
-/
import ModelStream.Options

namespace ModelStream.Chat

open Json

/-- A part of a message that is content here. Calls and their results are messages of their own. -/
def part? : Part → Option Json
  | .text s => some (object [("type", "text"), ("text", .str s)])
  | .image i => some (object [("type", "image_url"), ("image_url", object [("url", .str i.dataUrl)])])
  | _ => none

def callJson (c : Call) : Json := object
  [("id", .str c.id), ("type", "function"),
    ("function", object [("name", .str c.name), ("arguments", .str c.arguments.render)])]

def resultTurn (r : CallResult) : Json := object
  [("role", "tool"), ("tool_call_id", .str r.callId), ("content", .str r.text)]

/-- The calls of one message stay together. -/
def callsTurn (m : Message) : Json := object
  [("role", .str m.role.name), ("content", if m.text.isEmpty then .null else .str m.text),
    ("tool_calls", .arr (m.calls.map callJson))]

/-- The messages for parts without calls; a single text stands for itself. -/
def contentTurns (role : Role) (parts : List Part) : List Json :=
  let turn (content : Json) : Json := object [("role", .str role.name), ("content", content)]
  match parts with
  | [.text s] => [turn (.str s)]
  | _ =>
    match parts.filterMap part? with
    | [] => []
    | shown => [turn (.arr shown)]

/-- The messages that stand for one message of the conversation. -/
def turns (m : Message) : List Json :=
  if m.role = .tool then m.results.map resultTurn
  else if m.calls.isEmpty then contentTurns m.role m.content
  else [callsTurn m]

def toolJson (d : ToolDefinition) : Json := object
  [("type", "function"),
    ("function", object
      [("name", .str d.name), ("description", .str d.description), ("parameters", d.parameters)])]

def formatJson? : ResponseFormat → Option Json
  | .text => none
  | .jsonObject => some (object [("type", "json_object")])
  | .jsonSchema schema name =>
    some (object
      [("type", "json_schema"),
        ("json_schema", object [("name", .str name), ("schema", schema), ("strict", .bool true)])])

def requestBody (o : Options) : Json := object <|
  [("model", .str o.model), ("messages", .arr (o.messages.flatMap turns)), ("stream", .bool true)] ++
  optionalField "max_tokens" (o.maxTokens.map ofNat) ++
  optionalField "tools" (o.toolsJson? toolJson) ++
  optionalField "response_format" (o.responseFormat.bind formatJson?) ++
  optionalField "metadata" o.metadataJson?

end ModelStream.Chat
