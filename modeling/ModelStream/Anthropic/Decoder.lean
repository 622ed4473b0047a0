/-
Decoding Anthropic streams. Tool calls and reasoning blocks are told apart by the index of their
content block. The stream ends early when the last open tool call has been given out.
-/
import ModelStream.Anthropic.Signal
import ModelStream.Closing
import ModelStream.Flow

namespace ModelStream.Anthropic

open Json (Problem Fields)

structure Decoder where
  calls : CallBoard := {}
  reasoning : ReasoningBoard := {}
  closing : Closing := {}
  /-- The usage objects so far, later fields over earlier ones. -/
  usage : Fields := []

namespace Decoder

/-- The end reason when a tool call ends the stream. -/
def toolUse : String := "tool_use"

/-- The key of the reasoning in the block with this index. -/
def reasoningKey (index : Nat) : ReasoningKey := .named (toString index)

/-- Later reports of usage overlay earlier ones field by field. -/
def addUsage (d : Decoder) : Option Fields → Decoder
  | none => d
  | some usage =>
    let usage := d.usage.overlay usage
    { d with usage, closing := d.closing.setUsage usage }

/-- The event of a piece of visible text, if it is not empty. -/
def visible (text : String) : List Event := if text.isEmpty then [] else [.delta text]

def startBlock (d : Decoder) (index : Nat) (block : Json) : Step Decoder :=
  match Block.ofValue block with
  | .error problem => .unread d .anthropic problem
  | .ok (.text text) => { state := d, events := visible text }
  | .ok (.toolUse id name) =>
    { state := { d with calls := d.calls.update (.index index) fun draft =>
        { draft with id := some id, name := some name } } }
  | .ok (.thinking text signature) =>
    let key := reasoningKey index
    let seed := (block.get? "id").toList.map (("id", ·))
    let (event, reasoning) := (d.reasoning.begin key seed).push key text
    let reasoning := match nonEmpty signature with
      | some signature => reasoning.appendMetadata key "signature" signature
      | none => reasoning
    { state := { d with reasoning }, events := event.toList }
  | .ok .redactedThinking => { state := d, events := [.notice "redacted_thinking" block] }
  | .ok .unknown => { state := d }

def extendBlock (d : Decoder) (index : Nat) : BlockDelta → Step Decoder
  | .text text => { state := d, events := visible text }
  | .arguments fragment => { state := { d with calls := d.calls.append (.index index) fragment } }
  | .thinking text =>
    let (event, reasoning) := d.reasoning.push (reasoningKey index) text
    { state := { d with reasoning }, events := event.toList }
  | .signature fragment =>
    { state := { d with reasoning := d.reasoning.appendMetadata (reasoningKey index) "signature" fragment } }
  | .unknown => { state := d }

/-- A stop completes the call of its block. When no call is open any more the stream ends with it. A block
that is no call ends its reasoning. -/
def stopBlock (d : Decoder) (index : Nat) : Step Decoder :=
  if Ordered.has d.calls.drafts (.index index) then
    let (call, calls) := d.calls.complete (.index index)
    let events := call.toList.map .toolCall
    if calls.drafts.isEmpty then
      { state := { d with calls, closing := d.closing.offer .live toolUse }, events, flow := .finish }
    else { state := { d with calls }, events }
  else
    let (event, reasoning) := d.reasoning.finish (reasoningKey index) []
    { state := { d with reasoning }, events := event.toList }

def apply (d : Decoder) : Signal → Step Decoder
  | .messageStart id usage =>
    let closing := match id with
      | some id => d.closing.setResponseId id
      | none => d.closing
    { state := { d with closing }.addUsage usage }
  | .blockStart index block => d.startBlock index block
  | .blockDelta index delta => d.extendBlock index delta
  | .blockStop index => d.stopBlock index
  | .messageDelta stopReason usage =>
    let d := d.addUsage usage
    match stopReason with
    | some reason => { state := { d with closing := d.closing.offer .live reason }, flow := .finish }
    | none => { state := d }
  | .messageStop => { state := d, flow := .finish }
  | .error kind detail =>
    { state := { d with closing := d.closing.offer .live "error" }, events := [.ofBackend kind detail] }
  | .idle => { state := d }

def step (d : Decoder) (payload : String) : Step Decoder :=
  match Signal.ofText payload with
  | .ok signal => d.apply signal
  | .error problem => .unread d .anthropic problem

def finish (d : Decoder) : List Event × Decoder :=
  let (events, closing, calls, reasoning) := d.closing.finish d.calls d.reasoning
  (events, { d with closing, calls, reasoning })

end Decoder

end ModelStream.Anthropic
