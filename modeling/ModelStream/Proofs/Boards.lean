/-
What a decoder can do to its boards, said once for all backends. A `Move` is one operation on the
open calls, the open reasoning or the closing, with the events it gives out; decoding a payload is a
sequence of moves, whatever the backend. So what every move keeps holds of every stream: calls are
given out under new ids, what is known about the end stays open, and no move gives out a closing
event. That one comes from the end of the stream alone (`Boards.finish`).
-/
import ModelStream.Closing
import ModelStream.Proofs.CallBoard

namespace ModelStream

/-! ## Kinds of events -/

namespace Event

/-- The call that an event gives out. -/
def call? : Event → Option ToolCall
  | .toolCall call => some call
  | _ => none

/-- What the closing event reports. -/
def ending? : Event → Option Ending
  | .ending e => some e
  | _ => none

/-- Has to do neither with calls nor with reasoning, and ends nothing. -/
def Aside : Event → Prop
  | .delta _ | .notice .. | .fault .. => True
  | _ => False

theorem Aside.call? {e : Event} (h : e.Aside) : e.call? = none := by
  cases e <;> first | rfl | exact h.elim

theorem Aside.ending? {e : Event} (h : e.Aside) : e.ending? = none := by
  cases e <;> first | rfl | exact h.elim

end Event

/-- The calls among these events. -/
def toolCalls (events : List Event) : List ToolCall := events.filterMap Event.call?

@[simp] theorem toolCalls_nil : toolCalls [] = [] := rfl

@[simp] theorem toolCalls_append (events later : List Event) :
    toolCalls (events ++ later) = toolCalls events ++ toolCalls later := List.filterMap_append

theorem toolCalls_cons (e : Event) (events : List Event) :
    toolCalls (e :: events) = e.call?.toList ++ toolCalls events := by
  rw [toolCalls, List.filterMap_cons]
  cases e.call? <;> rfl

@[simp] theorem toolCalls_map (calls : List ToolCall) : toolCalls (calls.map .toolCall) = calls := by
  induction calls with
  | nil => rfl
  | cons call calls ih => rw [List.map_cons, toolCalls_cons, ih]; rfl

/-- No closing event is among these. -/
def Unending (events : List Event) : Prop := ∀ e ∈ events, e.ending? = none

theorem unending_nil : Unending [] := fun _ he => nomatch he

theorem Unending.append {events later : List Event} (h : Unending events) (k : Unending later) :
    Unending (events ++ later) := by
  intro e he
  rcases List.mem_append.1 he with he | he
  · exact h e he
  · exact k e he

theorem unending_calls (calls : List ToolCall) : Unending (calls.map .toolCall) := by
  intro e he
  obtain ⟨call, -, rfl⟩ := List.mem_map.1 he
  rfl

/-! ## Events of the reasoning board -/

namespace ReasoningBoard

/-- A push gives out a piece of reasoning or nothing. -/
theorem push_event {b c : ReasoningBoard} {key : ReasoningKey} {segment : String} {e : Event}
    (h : b.push key segment = (some e, c)) : e = .reasoning (Text.trimmed segment) key := by
  unfold push at h
  simp only at h
  split at h
  · cases h
  · cases h; rfl

/-- Ending a block gives out the block or nothing. -/
theorem finish_event {b c : ReasoningBoard} {key : ReasoningKey} {payload : Json.Fields} {e : Event}
    (h : b.finish key payload = (some e, c)) : ∃ text metadata, e = .reasoningEnd text metadata := by
  unfold finish at h
  split at h
  · cases h
  · split at h
    · cases h
    · simp only at h
      split at h
      · cases h
      · cases h; exact ⟨_, _, rfl⟩

theorem push_calls (b : ReasoningBoard) (key : ReasoningKey) (segment : String) :
    toolCalls (b.push key segment).1.toList = [] := by
  rcases h : b.push key segment with ⟨_ | e, c⟩
  · rfl
  · rw [push_event h]; rfl

theorem finish_calls (b : ReasoningBoard) (key : ReasoningKey) (payload : Json.Fields) :
    toolCalls (b.finish key payload).1.toList = [] := by
  rcases h : b.finish key payload with ⟨_ | e, c⟩
  · rfl
  · obtain ⟨text, metadata, rfl⟩ := finish_event h
    rfl

theorem finishAll_calls (keys : List ReasoningKey) (b : ReasoningBoard) : toolCalls (finishAll keys b).1 = [] := by
  induction keys generalizing b with
  | nil => rfl
  | cons key keys ih =>
    rw [finishAll, toolCalls_append, finish_calls, ih]
    rfl

end ReasoningBoard

/-! ## Moves -/

/-- What a decoder keeps of a stream under way, whatever the backend. -/
structure Boards where
  calls : CallBoard := {}
  reasoning : ReasoningBoard := {}
  closing : Closing := {}

namespace Boards

/-- One operation on the boards and the events it gives out. -/
inductive Move : Boards → List Event → Boards → Prop
  | tell (b : Boards) {e : Event} (h : e.Aside) : Move b [e] b
  /-- Something is learned about the end, which is not reached yet. -/
  | learn (b : Boards) (closing : Closing) (h : closing.finished = b.closing.finished) :
    Move b [] { b with closing }
  | draft (b : Boards) (key : CallKey) (change : CallDraft → CallDraft) :
    Move b [] { b with calls := b.calls.update key change }
  | discard (b : Boards) (key : CallKey) : Move b [] { b with calls := b.calls.discard key }
  | mark (b : Boards) (id : String) : Move b [] { b with calls := b.calls.mark id }
  | complete (b : Boards) {key : CallKey} {call : Option ToolCall} {calls : CallBoard}
    (h : b.calls.complete key = (call, calls)) : Move b (call.toList.map .toolCall) { b with calls }
  | begin (b : Boards) (key : ReasoningKey) (seed : Json.Fields) :
    Move b [] { b with reasoning := b.reasoning.begin key seed }
  | push (b : Boards) {key : ReasoningKey} {segment : String} {event : Option Event} {reasoning : ReasoningBoard}
    (h : b.reasoning.push key segment = (event, reasoning)) : Move b event.toList { b with reasoning }
  | annotate (b : Boards) (key : ReasoningKey) (field fragment : String) :
    Move b [] { b with reasoning := b.reasoning.appendMetadata key field fragment }
  | finish (b : Boards) {key : ReasoningKey} {payload : Json.Fields} {event : Option Event}
    {reasoning : ReasoningBoard} (h : b.reasoning.finish key payload = (event, reasoning)) :
    Move b event.toList { b with reasoning }

/-- Any number of moves, and the events of all of them. -/
inductive Moves : Boards → List Event → Boards → Prop
  | nil (b : Boards) : Moves b [] b
  | cons {b c d : Boards} {events later : List Event} (h : Move b events c) (k : Moves c later d) :
    Moves b (events ++ later) d

theorem Move.moves {b c : Boards} {events : List Event} (h : Move b events c) : Moves b events c := by
  simpa using Moves.cons h (.nil c)

theorem Moves.trans {b c d : Boards} {events later : List Event} (h : Moves b events c) (k : Moves c later d) :
    Moves b (events ++ later) d := by
  induction h with
  | nil => exact k
  | cons move _ ih => rw [List.append_assoc]; exact .cons move (ih k)

theorem Moves.silent {b c d : Boards} {events : List Event} (h : Moves b events c) (k : Moves c [] d) :
    Moves b events d := by
  simpa using h.trans k

/-! ## What every move keeps -/

theorem Move.gives {b c : Boards} {events : List Event} (h : Move b events c) :
    b.calls.Gives (toolCalls events) c.calls := by
  cases h with
  | tell h =>
    rw [toolCalls_cons, h.call?]
    exact .nothing fun _ hid => hid
  | learn | draft | discard | begin | annotate => exact .nothing fun _ hid => hid
  | mark id => exact .nothing fun _ hid => List.mem_cons_of_mem _ hid
  | complete h => rw [toolCalls_map]; exact .complete h
  | @push _ _ event _ h =>
    cases event with
    | none => exact .nothing fun _ hid => hid
    | some e => rw [ReasoningBoard.push_event h]; exact .nothing fun _ hid => hid
  | @finish _ _ event _ h =>
    cases event with
    | none => exact .nothing fun _ hid => hid
    | some e =>
      obtain ⟨text, metadata, rfl⟩ := ReasoningBoard.finish_event h
      exact .nothing fun _ hid => hid

theorem Move.unending {b c : Boards} {events : List Event} (h : Move b events c) : Unending events := by
  cases h with
  | tell h => intro e he; cases List.mem_singleton.1 he; exact h.ending?
  | learn | draft | discard | mark | begin | annotate => exact fun _ he => nomatch he
  | complete => exact unending_calls _
  | push h =>
    intro e he
    cases Option.mem_toList.1 he
    rw [ReasoningBoard.push_event h]
    rfl
  | finish h =>
    intro e he
    cases Option.mem_toList.1 he
    obtain ⟨text, metadata, rfl⟩ := ReasoningBoard.finish_event h
    rfl

theorem Move.finished {b c : Boards} {events : List Event} (h : Move b events c) :
    c.closing.finished = b.closing.finished := by
  cases h with
  | learn closing h => exact h
  | _ => rfl

theorem Moves.gives {b c : Boards} {events : List Event} (h : Moves b events c) :
    b.calls.Gives (toolCalls events) c.calls := by
  induction h with
  | nil => exact .nothing fun _ hid => hid
  | cons move _ ih => rw [toolCalls_append]; exact move.gives.trans ih

theorem Moves.unending {b c : Boards} {events : List Event} (h : Moves b events c) : Unending events := by
  induction h with
  | nil => exact fun _ he => nomatch he
  | cons move _ ih => exact move.unending.append ih

theorem Moves.finished {b c : Boards} {events : List Event} (h : Moves b events c) :
    c.closing.finished = b.closing.finished := by
  induction h with
  | nil => rfl
  | cons move _ ih => exact ih.trans move.finished

/-! ## The end -/

theorem completeAll_moves (keys : List CallKey) (b : Boards) :
    Moves b ((CallBoard.completeAll keys b.calls).1.map .toolCall)
      { b with calls := (CallBoard.completeAll keys b.calls).2 } := by
  -- the keys are fixed at the start, the board changes with each of them
  induction keys generalizing b with
  | nil => exact .nil b
  | cons key keys ih =>
    rcases h : b.calls.complete key with ⟨call, calls⟩
    simp only [CallBoard.completeAll, h, List.map_append]
    exact .cons (.complete b h) (ih { b with calls })

theorem drain_moves (b : Boards) :
    Moves b (b.calls.drain.1.map .toolCall) { b with calls := b.calls.drain.2 } := completeAll_moves _ b

theorem finishAll_moves (keys : List ReasoningKey) (b : Boards) :
    Moves b (ReasoningBoard.finishAll keys b.reasoning).1
      { b with reasoning := (ReasoningBoard.finishAll keys b.reasoning).2 } := by
  induction keys generalizing b with
  | nil => exact .nil b
  | cons key keys ih =>
    rcases h : b.reasoning.finish key [] with ⟨event, reasoning⟩
    simp only [ReasoningBoard.finishAll, h]
    exact .cons (.finish b h) (ih { b with reasoning })

theorem flush_moves (b : Boards) :
    Moves b b.reasoning.flush.1 { b with reasoning := b.reasoning.flush.2 } := finishAll_moves _ b

/-- The end of the stream: what is open is given out, and the closing event. -/
def finish (b : Boards) : List Event × Boards :=
  let (events, closing, calls, reasoning) := b.closing.finish b.calls b.reasoning
  (events, { calls, reasoning, closing })

/-- Only the first end gives anything out. -/
theorem finish_of_finished {b : Boards} (h : b.closing.finished = true) : b.finish = ([], b) := by
  simp [finish, Closing.finish, h]

/-- The first end is a sequence of moves and one closing event after them. -/
theorem finish_of_open {b : Boards} (h : b.closing.finished = false) :
    ∃ events c, Moves b events c ∧
      b.finish.1 = events ++ [.ending { reason := b.closing.reasonText, usage := b.closing.usage
                                        responseId := b.closing.responseId }] ∧
      b.finish.2 = { c with closing := { finished := true } } := by
  refine ⟨_, _, (drain_moves b).trans (flush_moves _), ?_, ?_⟩ <;> simp [finish, Closing.finish, h]

/-- The calls of the first end are those still open. -/
theorem finish_calls {b : Boards} (h : b.closing.finished = false) : toolCalls b.finish.1 = b.calls.drain.1 := by
  have hflush : toolCalls b.reasoning.flush.1 = [] := ReasoningBoard.finishAll_calls _ _
  simp [finish, Closing.finish, h, toolCalls_append, hflush, toolCalls_cons, Event.call?]

theorem finish_gives (b : Boards) : b.calls.Gives (toolCalls b.finish.1) b.finish.2.calls := by
  cases h : b.closing.finished with
  | true => rw [finish_of_finished h]; exact .nothing fun _ hid => hid
  | false =>
    obtain ⟨events, c, hm, he, hc⟩ := finish_of_open h
    rw [he, hc, toolCalls_append, toolCalls_cons]
    simpa [Event.call?] using hm.gives

end Boards

end ModelStream
