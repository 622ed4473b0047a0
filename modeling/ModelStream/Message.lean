/-
Messages of a conversation. A message has a role and parts; its text is that of its text parts, and
its calls are those of its call parts, both in order.
-/
import ModelStream.Event
import ModelStream.Json.Printer
import ModelStream.Json.Reading
import ModelStream.Timestamp

namespace ModelStream

inductive Role
  | system | user | assistant | tool
  deriving Repr, DecidableEq

def Role.name : Role → String
  | .system => "system"
  | .user => "user"
  | .assistant => "assistant"
  | .tool => "tool"

/-- A picture: its address, or its bytes in base 64. -/
structure Image where
  data : String
  mimeType : String
  deriving Repr, DecidableEq

/-- The picture inside an address. -/
def Image.dataUrl (i : Image) : String := "data:" ++ i.mimeType ++ ";base64," ++ i.data

/-- A tool call as a later turn of the conversation shows it. -/
structure Call where
  id : String
  name : String
  arguments : Json

/-- The call without the text of its arguments. -/
def ToolCall.toCall (c : ToolCall) : Call := { id := c.id, name := c.name, arguments := c.arguments }

/-- What a tool has answered. -/
structure CallResult where
  callId : String
  result : Json
  isError : Bool := false

/-- A result as text: a string stands for itself, any other value for its JSON text. -/
def CallResult.text (r : CallResult) : String :=
  match r.result with
  | .str s => s
  | v => v.render

inductive Part
  | text (s : String)
  | image (i : Image)
  | call (c : Call)
  | result (r : CallResult)
  /-- Reasoning of an earlier turn, with the signature that lets it be sent again. -/
  | reasoning (text : String) (signature : Option String)

structure Message where
  role : Role
  content : List Part
  name : Option String := none
  timestamp : Option Timestamp := none

/-! ## Views -/

def Part.text? : Part → Option String
  | .text s => some s
  | _ => none

def Part.call? : Part → Option Call
  | .call c => some c
  | _ => none

def Part.result? : Part → Option CallResult
  | .result r => some r
  | _ => none

namespace Message

def text (m : Message) : String := String.join (m.content.filterMap Part.text?)

def calls (m : Message) : List Call := m.content.filterMap Part.call?

def results (m : Message) : List CallResult := m.content.filterMap Part.result?

/-- A message that says a text. -/
def ofText (role : Role) (text : String) : Message := { role, content := [.text text] }

/-- The message by which the model asks for calls. -/
def ofCalls (calls : List Call) : Message := { role := .assistant, content := calls.map .call }

/-- The message that answers a call. -/
def ofResult (r : CallResult) : Message := { role := .tool, content := [.result r] }

end Message

/-! ## Reading -/

open Json Json.Reader

def Role.reader : Reader Role :=
  oneOf ([Role.system, .user, .assistant, .tool].map fun r => (r.name, r))

def Image.reader : Reader Image := record
  [ field "data" .always text fun i x => { i with data := x },
    field "mime_type" .always text fun i x => { i with mimeType := x }]
  { data := "", mimeType := "" }

def Call.reader : Reader Call := record
  [ field "id" .always text fun c x => { c with id := x },
    field "name" .always text fun c x => { c with name := x },
    field "arguments" .always any fun c x => { c with arguments := x }]
  { id := "", name := "", arguments := .null }

def CallResult.reader : Reader CallResult := record
  [ field "tool_call_id" .always Reader.text fun r x => { r with callId := x },
    field "result" .always any fun r x => { r with result := x },
    field "is_error" .never flag fun r x => { r with isError := x }]
  { callId := "", result := .null }

def Part.reader : Reader Part := fun l t => do
  let (kind, rest) ← tagged "type" Reader.text l t
  match kind with
  | "text" => .text <$> record [field "text" .always Reader.text fun _ x => x] "" l rest
  | "image" => .image <$> Image.reader l rest
  | "tool_call" => .call <$> Call.reader l rest
  | "tool_result" => .result <$> CallResult.reader l rest
  | "reasoning" => do
    let (said, signature) ← record
      [ field "text" .always Reader.text fun s x => (x, s.2),
        field "signature" .never (nullable Reader.text) fun s x => (s.1, x)] ("", none) l rest
    return .reasoning said signature
  | _ => throw .mismatched

def Timestamp.reader : Reader Timestamp := fun l t => do
  match Timestamp.ofText? (← text l t) with
  | some stamp => return stamp
  | none => throw .mismatched

def Message.reader : Reader Message := record
  [ field "role" .always Role.reader fun m x => { m with role := x },
    field "content" .always (listOf Part.reader) fun m x => { m with content := x },
    field "name" .never (nullable Reader.text) fun m x => { m with name := x },
    field "timestamp" .never (nullable Timestamp.reader) fun m x => { m with timestamp := x }]
  { role := .system, content := [] }

/-! ## JSON forms -/

def Call.fields (c : Call) : List (String × Json) :=
  [("id", .str c.id), ("name", .str c.name), ("arguments", c.arguments)]

def Part.toJson : Part → Json
  | .text s => object [("type", "text"), ("text", .str s)]
  | .image i => object [("type", "image"), ("data", .str i.data), ("mime_type", .str i.mimeType)]
  | .call c => object (("type", "tool_call") :: c.fields)
  | .result r => object
    [("type", "tool_result"), ("tool_call_id", .str r.callId), ("result", r.result), ("is_error", .bool r.isError)]
  | .reasoning s signature => object
    ([("type", .str "reasoning"), ("text", .str s)] ++ optionalField "signature" (signature.map .str))

def Message.toJson (m : Message) : Json := object
  ([("role", .str m.role.name), ("content", .arr (m.content.map Part.toJson))] ++
    optionalField "name" (m.name.map .str) ++
    optionalField "timestamp" (m.timestamp.map fun t => .str t.toText))

end ModelStream
