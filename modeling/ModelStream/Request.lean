/-
Requests that open a stream: a path below the base URL and a JSON body, in the form of the backend
that the options name.
-/
import ModelStream.Anthropic.Request
import ModelStream.Chat.Request
import ModelStream.Responses.Request
import ModelStream.Text.Blank

namespace ModelStream

structure Request where
  path : String
  body : Json

/-- The body of a request with these options. -/
def Options.body (o : Options) : Json :=
  match o.backend with
  | .anthropic => Anthropic.requestBody o
  | .responses => Responses.requestBody o
  | .chat => Chat.requestBody o

/-- The request for options that name a model. -/
def Request.ofOptions (o : Options) : Except Fault Request :=
  if Text.blank o.model then .error (.invalidArgument "model must not be empty")
  else .ok { path := o.backend.endpoint, body := o.body }

def Request.fields (r : Request) : List (String × Json) := [("path", .str r.path), ("body", r.body)]

end ModelStream
