/-
What a caller asks of a stream: the backend and its model, the conversation so far, and the limits
and shapes wanted of the answer.
-/
import ModelStream.Backend
import ModelStream.Message

namespace ModelStream

/-- A tool that the model may call. -/
structure ToolDefinition where
  name : String
  description : String
  /-- The schema of the arguments. -/
  parameters : Json

/-- The shape wanted of the visible text. -/
inductive ResponseFormat
  | text
  | jsonObject
  /-- Values of a schema, under a name. -/
  | jsonSchema (schema : Json) (name : String)

structure Options where
  backend : Backend
  model : String
  messages : List Message
  tools : Option (List ToolDefinition) := none
  responseFormat : Option ResponseFormat := none
  metadata : Option (List (String × String)) := none
  previousResponseId : Option String := none
  maxTokens : Option Nat := none

/-- The metadata as a JSON object. -/
def Options.metadataJson? (o : Options) : Option Json :=
  o.metadata.map fun pairs => .object (pairs.map fun (k, v) => (k, .str v))

/-- The tools in the form that a backend wants, unless there are none. -/
def Options.toolsJson? (o : Options) (form : ToolDefinition → Json) : Option Json :=
  match o.tools.getD [] with
  | [] => none
  | tools => some (.arr (tools.map form))

/-! ## Reading -/

open Json Json.Reader

def Backend.reader : Reader Backend := oneOf Backend.names

def ToolDefinition.reader : Reader ToolDefinition := record
  [ field "name" .always text fun d x => { d with name := x },
    field "description" .always text fun d x => { d with description := x },
    field "parameters" .always any fun d x => { d with parameters := x }]
  { name := "", description := "", parameters := .null }

def ResponseFormat.reader : Reader ResponseFormat := fun l t => do
  let (kind, rest) ← tagged "type" Reader.text l t
  match kind with
  | "text" => do
    empty l rest
    return .text
  | "json_object" => do
    empty l rest
    return .jsonObject
  | "json_schema" => do
    let (schema, name) ← record
      [ field "schema" .always any fun s x => (x, s.2),
        field "name" .always Reader.text fun s x => (s.1, x)] (Json.null, "") l rest
    return .jsonSchema schema name
  | _ => throw .mismatched

/-- Every field that may be missing has to be there, if only as null, when the options are written as
a list. -/
def Options.reader : Reader Options := record
  [ field "backend" .always Backend.reader fun o x => { o with backend := x },
    field "model" .always text fun o x => { o with model := x },
    field "messages" .always (listOf Message.reader) fun o x => { o with messages := x },
    field "tools" .inLists (nullable (listOf ToolDefinition.reader)) fun o x => { o with tools := x },
    field "response_format" .inLists (nullable ResponseFormat.reader) fun o x => { o with responseFormat := x },
    field "metadata" .inLists (nullable (dictionary text)) fun o x => { o with metadata := x },
    field "previous_response_id" .inLists (nullable text) fun o x => { o with previousResponseId := x },
    field "max_tokens" .inLists (nullable (natural 32)) fun o x => { o with maxTokens := x }]
  { backend := .anthropic, model := "", messages := [] }

end ModelStream
