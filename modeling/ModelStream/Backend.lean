/-
The three protocols a model's answer may be streamed in, with their names and paths.
-/
namespace ModelStream

inductive Backend
  /-- Events that start, extend and stop content blocks. -/
  | anthropic
  /-- Events about output items, and a closing response object. -/
  | responses
  /-- Chunks of choices with a delta each. -/
  | chat
  deriving Repr, DecidableEq

namespace Backend

def all : List Backend := [.anthropic, .responses, .chat]

def name : Backend → String
  | .anthropic => "anthropic"
  | .responses => "openai-responses"
  | .chat => "openai-chat"

/-- The path below the base URL at which a stream is opened. -/
def endpoint : Backend → String
  | .anthropic => "/messages"
  | .responses => "/responses"
  | .chat => "/chat/completions"

/-- The names as they stand in options and settings. -/
def names : List (String × Backend) := all.map fun b => (b.name, b)

/-- The names by which a backend may be asked for. -/
def aliases : List (String × Backend) :=
  names ++ [("responses", .responses), ("openai-compatible", .chat), ("chat", .chat)]

def ofName? (name : String) : Option Backend := aliases.lookup name

end Backend

end ModelStream
