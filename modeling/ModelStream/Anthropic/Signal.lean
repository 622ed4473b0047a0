/-
The payloads of an Anthropic stream. The kind of a payload stands in its field `type`; kinds that
are not known mean nothing.
-/
import ModelStream.Json.Reading

namespace ModelStream.Anthropic

open Json Json.Reader

/-- A piece of a content block. -/
inductive BlockDelta
  | text (text : String)
  | arguments (fragment : String)
  | thinking (text : String)
  | signature (fragment : String)
  | unknown

/-- The beginning of a content block. -/
inductive Block
  | text (text : String)
  | toolUse (id name : String)
  | thinking (text : String) (signature : Option String)
  | redactedThinking
  | unknown

inductive Signal
  | messageStart (id : Option String) (usage : Option Fields)
  | blockStart (index : Nat) (block : Json)
  | blockDelta (index : Nat) (delta : BlockDelta)
  | blockStop (index : Nat)
  | messageDelta (stopReason : Option String) (usage : Option Fields)
  | messageStop
  | error (kind detail : String)
  /-- A sign of life, or a kind that is not known. -/
  | idle

/-- An index of a content block. -/
def index : Reader Nat := natural 64

/-- A kind given by name, or by its place among the known ones. -/
def kindOf (known : List String) : Reader String
  | _, .scalar (.text (some s)) => return s
  | l, t => do return known.getD (← natural 64 l t) ""

/-- A record with a single text. -/
def single (name : String) : Reader String := record [field name .always text fun _ x => x] ""

def BlockDelta.reader : Reader BlockDelta := fun l t => do
  let (kind, rest) ← tagged "type"
    (kindOf ["text_delta", "input_json_delta", "thinking_delta", "signature_delta"]) l t
  match kind with
  | "text_delta" => .text <$> single "text" l rest
  | "input_json_delta" => .arguments <$> single "partial_json" l rest
  | "thinking_delta" => .thinking <$> single "thinking" l rest
  | "signature_delta" => .signature <$> single "signature" l rest
  | _ => do
    empty l rest
    return .unknown

def Block.reader : Reader Block := fun l t => do
  let (kind, rest) ← tagged "type" Reader.text l t
  match kind with
  | "text" => .text <$> record [field "text" .never Reader.text fun _ x => x] "" l rest
  | "tool_use" => do
    let (id, name) ← record
      [ field "id" .always Reader.text fun s x => (x, s.2),
        field "name" .always Reader.text fun s x => (s.1, x)] ("", "") l rest
    return .toolUse id name
  | "thinking" => do
    let (said, signature) ← record
      [ field "thinking" .never Reader.text fun s x => (x, s.2),
        field "signature" .never (nullable Reader.text) fun s x => (s.1, x)] ("", none) l rest
    return .thinking said signature
  | "redacted_thinking" => do
    empty l rest
    return .redactedThinking
  | _ => do
    empty l rest
    return .unknown

/-- An id and a usage object. -/
def opening : Reader (Option String × Option Fields) := record
  [ field "id" .never (nullable text) fun s x => (x, s.2),
    field "usage" .never (nullable fields) fun s x => (s.1, x)] (none, none)

def Signal.ofKind (kind : String) : Reader Signal := fun l rest =>
  match kind with
  | "message_start" => do
    let (id, usage) ← record [field "message" .always opening fun _ x => x] (none, none) l rest
    return .messageStart id usage
  | "content_block_start" => do
    let (i, block) ← record
      [ field "index" .always index fun s x => (x, s.2),
        field "content_block" .always any fun s x => (s.1, x)] (0, .null) l rest
    return .blockStart i block
  | "content_block_delta" => do
    let (i, delta) ← record
      [ field "index" .always index fun s x => (x, s.2),
        field "delta" .always BlockDelta.reader fun s x => (s.1, x)] (0, .unknown) l rest
    return .blockDelta i delta
  | "content_block_stop" => do
    let i ← record [field "index" .always index fun _ x => x] 0 l rest
    return .blockStop i
  | "message_delta" => do
    let stopReason := record [field "stop_reason" .never (nullable text) fun _ x => x] none
    let (reason, usage) ← record
      [ field "delta" .never stopReason fun s x => (x, s.2),
        field "usage" .never (nullable fields) fun s x => (s.1, x)] (none, none) l rest
    return .messageDelta reason usage
  | "message_stop" => do
    empty l rest
    return .messageStop
  | "error" => do
    let body := record
      [ field "type" .never text fun s x => (x, s.2),
        field "message" .never text fun s x => (s.1, x)] ("", "")
    let (kind, detail) ← record [field "error" .always body fun _ x => x] ("", "") l rest
    return .error kind detail
  | _ => do
    empty l rest
    return .idle

/-- The whole payload has to be readable before its kind decides what else it must hold. -/
def Signal.reader : Reader Signal := fun l t => do
  let (kind, rest) ← tagged "type" text l t
  Signal.ofKind kind { l with surplus := .mismatched } rest

def Signal.ofText (payload : String) : Except Problem Signal := Reader.ofText Signal.reader payload

def Block.ofValue (block : Json) : Except Problem Block := Reader.ofValue Block.reader block

end ModelStream.Anthropic
