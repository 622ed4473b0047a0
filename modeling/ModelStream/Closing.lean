/-
What is known about the end of a stream while it runs, and the end itself: open tool calls, then
open reasoning, then one closing event. Only the first end gives anything out.
-/
import ModelStream.CallBoard
import ModelStream.ReasoningBoard

namespace ModelStream

/-- Where an end reason was learned. -/
inductive Closing.Source
  /-- Read off the whole response after the stream. -/
  | rescan
  /-- Carried by an event of the stream; it outranks the other. -/
  | live
  deriving Repr, DecidableEq

structure Closing where
  reason : Option (Closing.Source × String) := none
  usage : Option Json.Fields := none
  responseId : Option String := none
  finished : Bool := false

namespace Closing

/-- Offers an end reason: the latest of the highest rank is kept. -/
def offer (c : Closing) (source : Source) (reason : String) : Closing :=
  match c.reason, source with
  | some (.live, _), .rescan => c
  | _, _ => { c with reason := some (source, reason) }

def setUsage (c : Closing) (usage : Json.Fields) : Closing := { c with usage := some usage }

/-- Keeps the first response id. -/
def setResponseId (c : Closing) (id : String) : Closing := { c with responseId := c.responseId <|> some id }

def reasonText (c : Closing) : Option String := c.reason.map (·.2)

/-- The end of a stream with these open calls and blocks. -/
def finish (c : Closing) (calls : CallBoard) (reasoning : ReasoningBoard) :
    List Event × Closing × CallBoard × ReasoningBoard :=
  if c.finished then ([], c, calls, reasoning)
  else
    let (given, calls) := calls.drain
    let (ended, reasoning) := reasoning.flush
    let ending : Ending := { reason := c.reasonText, usage := c.usage, responseId := c.responseId }
    (given.map .toolCall ++ ended ++ [.ending ending], { finished := true }, calls, reasoning)

end Closing

end ModelStream
