/-
What can go wrong, by its cause. `message` is the wording of a fault; `category` groups the causes
by how a caller can react, and `retryable` says whether trying again can help.
-/
import ModelStream.Json.Basic

namespace ModelStream

/-- What failed on the way to the server: the HTTP client, or another transport in words of its own. -/
inductive Fault.Transport
  | client (detail : String)
  | reported (detail : String)
  deriving Repr, DecidableEq

instance : Coe String Fault.Transport := ⟨.reported⟩

inductive Fault
  | configuration (detail : String)
  /-- The server answered with a status that means failure. -/
  | api (status : Nat) (detail : String)
  | authentication (detail : String)
  /-- The server asks to wait, perhaps for this many milliseconds. -/
  | rateLimited (retryAfter : Option Nat)
  | io (detail : String)
  | serialization (problem : Json.Problem)
  | configFile
  | transport (failure : Fault.Transport)
  /-- The backend reported a failure inside the stream. -/
  | backend (kind detail : String)
  | stream (detail : String)
  | invalidArgument (detail : String)
  | unsupportedBackend (detail : String)
  deriving Repr, DecidableEq

inductive Fault.Category
  | authentication | rateLimit | network | server | api | backend | configuration | serialization | unknown
  deriving Repr, DecidableEq

namespace Fault

def Category.name : Category → String
  | .authentication => "authentication"
  | .rateLimit => "rate_limit"
  | .network => "network"
  | .server => "server"
  | .api => "api"
  | .backend => "backend"
  | .configuration => "configuration"
  | .serialization => "serialization"
  | .unknown => "unknown"

def message : Fault → String
  | .configuration detail => "Configuration error: " ++ detail
  | .api status detail => "API error (status " ++ toString status ++ "): " ++ detail
  | .authentication detail => "Authentication error: " ++ detail
  | .rateLimited (some ms) => "Rate limited: retry after Some(" ++ toString ms ++ ")ms"
  | .rateLimited none => "Rate limited: retry after Nonems"
  | .io detail => "IO error: " ++ detail
  | .serialization problem => "Serialization error: " ++ problem.message
  | .configFile => "Config file error: <toml>"
  | .transport (.client detail) => "Network error: " ++ detail
  | .transport (.reported detail) => "Transport error: " ++ detail
  | .backend kind detail => "Backend error (" ++ kind ++ "): " ++ detail
  | .stream detail => "Stream error: " ++ detail
  | .invalidArgument detail => "Invalid argument: " ++ detail
  | .unsupportedBackend detail => "Unsupported backend: " ++ detail

/-- The group of a fault. A status that a server gave is in the group of the fault it stands for. -/
def category : Fault → Category
  | .authentication _ => .authentication
  | .rateLimited _ => .rateLimit
  | .transport _ => .network
  | .configuration _ | .configFile | .unsupportedBackend _ => .configuration
  | .serialization _ => .serialization
  | .api status _ =>
    if status == 401 || status == 403 then .authentication
    else if status == 429 then .rateLimit
    else if 500 ≤ status && status < 600 then .server
    else .api
  | .backend .. => .backend
  | .io _ | .stream _ | .invalidArgument _ => .unknown

/-- Trying again can help: the fault is one of the moment. -/
def retryable (f : Fault) : Bool :=
  match f.category with
  | .rateLimit | .network | .server => true
  | _ => false

end Fault

end ModelStream
