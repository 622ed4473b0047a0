/-
One exchange with a backend: a request goes out, and the answer is decoded. Whatever goes wrong
before the first frame is reported by one fault. Of the body of a failed answer only so much is read
as the fault's text may hold.
-/
import ModelStream.Fault.Status
import ModelStream.Feed
import ModelStream.Request

namespace ModelStream

open Text (Bytes)

structure Response where
  status : Nat
  headers : Headers := []
  body : Option (List Arrival) := none

namespace Response

def isSuccess (r : Response) : Bool := 200 ≤ r.status && r.status < 300

/-- The events of an answer; the body of a failed one is not read at all. -/
def feed (r : Response) (decoder : Decoder) : Feed :=
  if ! r.isSuccess then .failed decoder (.ofStatus r.status r.headers "")
  else match r.body with
    | some body => .ofBody decoder body
    | none => .failed decoder (.transport "response has no body")

/-! ## Failed answers -/

/-- How many bytes of a failed answer are kept. -/
def detailLimit : Nat := 4096

/-- Reads a body until there are enough bytes, it fails or it ends: the bytes, and the part of the
body that has not been read. -/
def collect (bytes : Bytes) : List Arrival → Bytes × List Arrival
  | [] => (bytes, [])
  | part :: rest =>
    if detailLimit ≤ bytes.length then (bytes, part :: rest)
    else match part with
    | .chunk more => collect (bytes ++ more) rest
    | .pending => collect bytes rest
    | .failure _ => (bytes, rest)

def detail (r : Response) : String :=
  let (bytes, _) := collect [] (r.body.getD [])
  String.ofList (Text.trim (Text.Utf8.lossy (bytes.take detailLimit)))

def toFault (r : Response) : Fault := .ofStatus r.status r.headers r.detail

end Response

/-! ## The exchange -/

structure Exchange where
  /-- The request that was sent, if one was. -/
  sent : Option Request
  events : List Event

namespace Exchange

/-- The request for some options, and the decoder for its answer. -/
def prepare (o : Options) (tags : List String) : Except Fault (Request × Decoder) := do
  let request ← Request.ofOptions o
  let decoder ← Decoder.create o.backend tags
  return (request, decoder)

/-- The events of what sending has led to. -/
def answer (decoder : Decoder) : Except Fault Response → List Event
  | .error f => [.ofFault f]
  | .ok r => if r.isSuccess then (r.feed decoder).events else [.ofFault r.toFault]

def run (o : Options) (tags : List String) (send : Request → Except Fault Response) : Exchange :=
  match prepare o tags with
  | .error f => { sent := none, events := [.ofFault f] }
  | .ok (request, decoder) => { sent := some request, events := answer decoder (send request) }

end Exchange

end ModelStream
