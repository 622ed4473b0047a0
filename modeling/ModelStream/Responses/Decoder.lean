/-
Decoding Responses streams. A call is told apart by its output index; events about arguments may
name it by that, by its item id or by its call id. When the stream ends, the output of the closing
response is read once more for calls and reasoning that no event of the stream completed.
-/
import ModelStream.Closing
import ModelStream.Flow
import ModelStream.Responses.Signal

namespace ModelStream.Responses

open Json (Problem Fields)

/-- A draft with what a finished item says of its call. What the stream did not say is filled in;
arguments replace those of the stream unless they are empty. -/
def CallItem.fill (c : CallItem) (draft : CallDraft) : CallDraft where
  arguments := if c.arguments.isEmpty then draft.arguments else c.arguments
  id := if draft.id.isNone || (c.callId.isSome && draft.id == c.id) then c.callId <|> c.id else draft.id
  name := draft.name <|> c.name

structure Decoder where
  calls : CallBoard := {}
  reasoning : ReasoningBoard := {}
  closing : Closing := {}
  /-- The output index of each item that was announced as a call. -/
  indices : List (String × Nat) := []
  /-- The closing response, until it has been read once more. -/
  last : Option Response := none

namespace Decoder

/-- The key of the call that an event about arguments names. -/
def callKey (d : Decoder) (target : Target) : CallKey :=
  let byId (id : String) : CallKey := (d.calls.find? id).getD (.id id)
  match target.index, target.itemId.bind (Ordered.get? d.indices) with
  | some n, _ | none, some n => .index n
  | none, none =>
    match target.callId <|> target.itemId with
    | some id => byId id
    | none => .id ""

/-- Whether a call known by one of these ids has been given out. -/
def alreadyGiven (d : Decoder) (itemId callId : Option String) : Bool :=
  (itemId.toList ++ callId.toList).any d.calls.wasGiven

/-- An item is announced: a call not given out yet begins. -/
def announce (d : Decoder) (index : Nat) (item : Json) : Decoder :=
  match Item.ofValue item with
  | .ok (.call c) =>
    if d.alreadyGiven c.id c.callId then d
    else
      let indices := match c.id with
        | some id => Ordered.put id index d.indices
        | none => d.indices
      let calls := d.calls.update (.index index) fun draft =>
        { arguments := draft.arguments ++ c.arguments, id := c.callId <|> c.id, name := c.name }
      { d with indices, calls }
  | _ => d

/-- Completes a call from what a finished item says. Both ids of the item count as given out then. -/
def completeCall (d : Decoder) (key : CallKey) (c : CallItem) : List Event × Decoder :=
  if d.alreadyGiven c.id c.callId then ([], { d with calls := d.calls.discard key })
  else match (d.calls.update key c.fill).complete key with
    | (some call, calls) =>
      ([.toolCall call], { d with calls := (c.id.toList ++ c.callId.toList).foldl CallBoard.mark calls })
    | (none, calls) => ([], { d with calls })

/-- Adds the texts of a summary to a block. -/
def addSummary (key : ReasoningKey) : List Json → ReasoningBoard → List Event × ReasoningBoard
  | [], b => ([], b)
  | part :: more, b =>
    match (part.get? "text").bind Json.str? with
    | some text =>
      let (event, b) := b.push key text
      let (events, b) := addSummary key more b
      (event.toList ++ events, b)
    | none => addSummary key more b

/-- Ends a block of reasoning. Its summary counts only if none of it was streamed. -/
def finishReasoning (d : Decoder) (key : ReasoningKey) (summary : List Json) (item : Json) :
    List Event × Decoder :=
  if d.reasoning.hasEnded key then ([], d)
  else
    let (told, reasoning) :=
      if d.reasoning.isOpen key then ([], d.reasoning) else addSummary key summary d.reasoning
    let (event, reasoning) := reasoning.finish key (item.fields?.getD [])
    (told ++ event.toList, { d with reasoning })

def finishItem (d : Decoder) (index : Nat) (item : Json) : List Event × Decoder :=
  match Item.ofValue item with
  | .error problem => ([.malformed .responses problem], d)
  | .ok (.call c) => d.completeCall (.index index) c
  | .ok (.reasoning id summary) => d.finishReasoning (.named (id.getD (toString index))) summary item
  | .ok .other => ([], d)

/-- The closing event of the stream, which is kept for the end. -/
def close (d : Decoder) (outcome : Outcome) (response : Response) : List Event × Decoder :=
  let closing := match response.id with
    | some id => d.closing.setResponseId id
    | none => d.closing
  let closing := match response.usage with
    | some usage => closing.setUsage usage
    | none => closing
  let said (name : String) : Option String := response.error.bind fun e => (e.get? name).bind Json.str?
  let events := if outcome == .failed then
      [Event.ofBackend ((said "code").getD "failed") ((said "message").getD "response failed")]
    else []
  (events, { d with closing := closing.offer .live outcome.reason, last := some response })

def apply (d : Decoder) (raw : Json) : Signal → Step Decoder
  | .started response =>
    match response.id with
    | some id => { state := { d with closing := d.closing.setResponseId id } }
    | none => { state := d }
  | .itemAdded index item => { state := d.announce index item }
  | .itemDone index item =>
    let (events, state) := d.finishItem index item
    { state, events }
  | .textDelta text => { state := d, events := if text.isEmpty then [] else [.delta text] }
  | .note => { state := d, events := [.notice "annotation" raw] }
  | .argumentsDelta target fragment =>
    let calls := d.calls.update (d.callKey target) fun draft =>
      { draft with id := draft.id <|> target.callId, arguments := draft.arguments ++ fragment }
    { state := { d with calls } }
  | .argumentsDone target arguments =>
    let (events, state) := d.completeCall (d.callKey target)
      { id := target.itemId, callId := target.callId, name := arguments.name
        arguments := arguments.text.getD "" }
    { state, events }
  | .reasoningDelta itemId text =>
    let (event, reasoning) := d.reasoning.push (.ofId itemId) text
    { state := { d with reasoning }, events := event.toList }
  | .ended outcome response =>
    let (events, state) := d.close outcome response
    { state, events, flow := .finish }
  | .error code detail =>
    { state := { d with closing := d.closing.offer .live "error" }
      events := [.ofBackend (code.getD "error") (detail.getD "stream error")] }
  | .idle => { state := d }

def step (d : Decoder) (payload : String) : Step Decoder :=
  match Signal.ofText payload with
  | .ok (raw, signal) => d.apply raw signal
  | .error problem => .unread d .responses problem

/-! ## The closing response -/

/-- One item of the closing response, which stands at `position`. -/
def rescanItem (d : Decoder) (position : Nat) (item : Json) : List Event × Decoder :=
  match Item.ofValue item with
  | .ok (.call c) =>
    if d.alreadyGiven c.id c.callId then ([], d)
    else match c.callId <|> c.id with
    | none => ([], d)
    | some id =>
      let key := (c.callId.toList ++ c.id.toList).findSome? d.calls.find?
      d.completeCall (key.getD (.id id)) c
  | .ok (.reasoning id summary) => d.finishReasoning (.named (id.getD (toString position))) summary item
  | _ => ([], d)

def rescanItems (d : Decoder) : Nat → List Json → List Event × Decoder
  | _, [] => ([], d)
  | position, item :: more =>
    let (events, d) := d.rescanItem position item
    let (later, d) := d.rescanItems (position + 1) more
    (events ++ later, d)

/-- The decoder when it starts to read the closing response once more. -/
def reopen (d : Decoder) (response : Response) : Decoder :=
  let closing := match response.status with
    | some status => d.closing.offer .rescan status
    | none => d.closing
  { d with closing, last := none }

/-- Reads the closing response once more. -/
def rescan (d : Decoder) : List Event × Decoder :=
  match d.last with
  | none => ([], d)
  | some response => (d.reopen response).rescanItems 0 response.output

def finish (d : Decoder) : List Event × Decoder :=
  let (found, d) := d.rescan
  let (ended, closing, calls, reasoning) := d.closing.finish d.calls d.reasoning
  (found ++ ended, { d with closing, calls, reasoning })

end Decoder

end ModelStream.Responses
