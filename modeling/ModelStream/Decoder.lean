/-
The decoder of a stream: one of the three backends' decoders, behind common operations.
-/
import ModelStream.Anthropic.Decoder
import ModelStream.Chat.Decoder
import ModelStream.Frame
import ModelStream.Responses.Decoder

namespace ModelStream

inductive Decoder
  | anthropic (d : Anthropic.Decoder)
  | responses (d : Responses.Decoder)
  | chat (d : Chat.Decoder)

namespace Decoder

/-- A new decoder; `tags` are the reasoning tags of chat streams. -/
def create (backend : Backend) (tags : List String) : Except Fault Decoder :=
  match backend with
  | .anthropic => .ok (.anthropic {})
  | .responses => .ok (.responses {})
  | .chat => .chat <$> Chat.Decoder.ofTags tags

def backend : Decoder → Backend
  | .anthropic _ => .anthropic
  | .responses _ => .responses
  | .chat _ => .chat

def framing : Decoder → Framing
  | .anthropic _ => .blocks
  | .responses _ => .jsonLines
  | .chat _ => .lines

/-- Decodes one payload. -/
def step (d : Decoder) (payload : String) : Step Decoder :=
  match d with
  | .anthropic d =>
    let s := d.step payload
    { s with state := .anthropic s.state }
  | .responses d =>
    let s := d.step payload
    { s with state := .responses s.state }
  | .chat d =>
    let s := d.step payload
    { s with state := .chat s.state }

/-- The end of the stream: gives out what is open, and the closing event. -/
def finish (d : Decoder) : List Event × Decoder :=
  match d with
  | .anthropic d => let (events, d) := d.finish; (events, .anthropic d)
  | .responses d => let (events, d) := d.finish; (events, .responses d)
  | .chat d => let (events, d) := d.finish; (events, .chat d)

end Decoder

end ModelStream
