/-
The body of a request for an Anthropic stream. What system messages say goes into a field of its
own; the answers of tools go into user messages.
-/
import ModelStream.Options

namespace ModelStream.Anthropic

open Json

/-- The limit of tokens where the options set none. -/
def defaultMaxTokens : Nat := 4096

/-- An address stays one; any other picture is sent along. -/
def imageSource (i : Image) : Json :=
  if "http".toList.isPrefixOf i.data.toList then object [("type", "url"), ("url", .str i.data)]
  else object [("type", "base64"), ("media_type", .str i.mimeType), ("data", .str i.data)]

def userPart? : Part → Option Json
  | .text s => some (object [("type", "text"), ("text", .str s)])
  | .image i => some (object [("type", "image"), ("source", imageSource i)])
  | _ => none

/-- The parts of a user message; a single text stands for itself. -/
def userContent : List Part → Json
  | [.text s] => .str s
  | parts => .arr (parts.filterMap userPart?)

/-- Reasoning can be sent again with its signature only. -/
def assistantPart? : Part → Option Json
  | .reasoning s (some signature) =>
    some (object [("type", "thinking"), ("thinking", .str s), ("signature", .str signature)])
  | .text s => if s.isEmpty then none else some (object [("type", "text"), ("text", .str s)])
  | .call c =>
    some (object [("type", "tool_use"), ("id", .str c.id), ("name", .str c.name), ("input", c.arguments)])
  | _ => none

def resultPart (r : CallResult) : Json := object
  [("type", "tool_result"), ("tool_use_id", .str r.callId), ("content", .str r.text), ("is_error", .bool r.isError)]

/-- A message with its role. -/
def turn (role : Role) (content : Json) : Json := object [("role", .str role.name), ("content", content)]

/-- The messages that stand for one message of the conversation. -/
def turns (m : Message) : List Json :=
  match m.role with
  | .system => []
  | .user => [turn .user (userContent m.content)]
  | .assistant =>
    match m.content.filterMap assistantPart? with
    | [] => []
    | parts => [turn .assistant (.arr parts)]
  | .tool => m.results.map fun r => turn .user (.arr [resultPart r])

/-- What all system messages say, line by line. -/
def systemText? (messages : List Message) : Option String :=
  match messages.filter (·.role == .system) with
  | [] => none
  | ms => some ("\n".intercalate (ms.map Message.text))

def toolJson (d : ToolDefinition) : Json := object
  [("name", .str d.name), ("description", .str d.description), ("input_schema", d.parameters)]

def requestBody (o : Options) : Json := object <|
  [("model", .str o.model), ("messages", .arr (o.messages.flatMap turns)),
    ("max_tokens", ofNat (o.maxTokens.getD defaultMaxTokens)), ("stream", .bool true)] ++
  optionalField "system" ((systemText? o.messages).map .str) ++
  optionalField "metadata" o.metadataJson? ++
  optionalField "tools" (o.toolsJson? toolJson)

end ModelStream.Anthropic
