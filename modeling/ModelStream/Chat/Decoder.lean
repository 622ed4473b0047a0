/-
Decoding chat streams. Tool calls are told apart by their index, which is their place in the list
where they name none; reasoning comes in fields of its own or between tags inside the content.
-/
import ModelStream.Chat.Chunk
import ModelStream.Closing
import ModelStream.Flow
import ModelStream.InlineTag
import ModelStream.Json.Printer

namespace ModelStream.Chat

open Json (Problem)

structure Decoder where
  tags : InlineTag.Scanner
  calls : CallBoard := {}
  reasoning : ReasoningBoard := {}
  closing : Closing := {}

namespace Decoder

/-- A decoder for streams with these reasoning tags. -/
def ofTags (names : List String) : Except Fault Decoder := do
  return { tags := ← InlineTag.Scanner.ofNames names }

/-- Adds reasoning that has no identity. -/
def think (d : Decoder) (text : String) : List Event × Decoder :=
  let (event, reasoning) := d.reasoning.push .unnamed text
  (event.toList, { d with reasoning })

def think? (d : Decoder) : Option String → List Event × Decoder
  | some text => d.think text
  | none => ([], d)

/-- The events of segments of the content. -/
def tell (d : Decoder) : List InlineTag.Segment → List Event × Decoder
  | [] => ([], d)
  | .visible text :: more =>
    let (events, d) := d.tell more
    (.delta text :: events, d)
  | .reasoning text :: more =>
    let (event, d) := d.think text
    let (events, d) := d.tell more
    (event ++ events, d)

/-- Adds a piece of the content, which may hold reasoning between tags. -/
def read? (d : Decoder) (content : Option String) : List Event × Decoder :=
  match nonEmpty content with
  | some text =>
    let (segments, tags) := d.tags.push text
    { d with tags }.tell segments
  | none => ([], d)

/-- Adds a fragment of a call. A later id replaces an earlier one, a later name does not. -/
def addFragment (d : Decoder) (key : CallKey) (id : Option String) (function : Option FunctionDelta) : Decoder :=
  let function := function.getD {}
  { d with calls := d.calls.update key fun draft =>
      { arguments := draft.arguments ++ function.arguments.getD ""
        id := nonEmpty id <|> draft.id
        name := draft.name <|> nonEmpty function.name } }

/-- Adds the fragments of a list of calls, of which the first stands at `position`. -/
def addFragments (d : Decoder) : Nat → List CallDelta → Decoder
  | _, [] => d
  | position, c :: more =>
    (d.addFragment (.index (c.index.getD position)) c.id c.function).addFragments (position + 1) more

/-- Adds a fragment of the single function call of older servers. -/
def addFunction? (d : Decoder) : Option FunctionDelta → Decoder
  | some function => d.addFragment (.index 0) none (some function)
  | none => d

def applyDelta (d : Decoder) (delta : Delta) : List Event × Decoder :=
  let (first, d) := d.think? delta.reasoningContent
  let (second, d) := d.think? delta.reasoning
  let (third, d) := d.read? delta.content
  let d := d.addFragments 0 (delta.toolCalls.getD [])
  (first ++ second ++ third, d.addFunction? delta.functionCall)

/-- A finish reason: `stop` ends the stream, and one that announces tool calls completes them. -/
def applyReason (d : Decoder) (reason : String) : Step Decoder :=
  let d := { d with closing := d.closing.offer .live reason }
  if reason == "tool_calls" || reason == "function_call" then
    let (given, calls) := d.calls.drain
    { state := { d with calls }, events := given.map .toolCall }
  else if reason == "stop" then { state := d, flow := .finish }
  else { state := d }

def applyDelta? (d : Decoder) : Option Delta → List Event × Decoder
  | some delta => d.applyDelta delta
  | none => ([], d)

def applyReason? (d : Decoder) : Option String → Step Decoder
  | some reason => d.applyReason reason
  | none => { state := d }

def applyChoice (d : Decoder) (choice : Choice) : Step Decoder :=
  let (events, d) := d.applyDelta? choice.delta
  let step := d.applyReason? choice.finishReason
  { step with events := events ++ step.events }

def applyChoices (d : Decoder) : List Choice → Step Decoder
  | [] => { state := d }
  | choice :: more =>
    let first := d.applyChoice choice
    let rest := first.state.applyChoices more
    { state := rest.state
      events := first.events ++ rest.events
      flow := if first.flow == .finish then .finish else rest.flow }

/-- The event for an error object: its own message, or else its text. -/
def errorEvent (error : Json) : Event :=
  let detail := ((error.get? "message").bind Json.str?).getD error.render
  let kind := ((error.get? "type" <|> error.get? "code").bind Json.str?).getD "error"
  .ofBackend kind detail

def applyChunk (d : Decoder) (chunk : Chunk) : Step Decoder :=
  let closing := match nonEmpty chunk.id with
    | some id => d.closing.setResponseId id
    | none => d.closing
  let closing := match chunk.usage with
    | some usage => closing.setUsage usage
    | none => closing
  let step := { d with closing }.applyChoices (chunk.choices.getD [])
  { step with events := (chunk.error.map errorEvent).toList ++ step.events }

def step (d : Decoder) (payload : String) : Step Decoder :=
  match Chunk.ofText payload with
  | .ok chunk => d.applyChunk chunk
  | .error problem => .unread d .chat problem

def finish (d : Decoder) : List Event × Decoder :=
  let (segments, tags) := d.tags.finish
  let (told, d) := { d with tags }.tell segments
  let (ended, closing, calls, reasoning) := d.closing.finish d.calls d.reasoning
  (told ++ ended, { d with closing, calls, reasoning })

end Decoder

end ModelStream.Chat
