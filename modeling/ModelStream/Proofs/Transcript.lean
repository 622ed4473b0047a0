/-
What a transcript keeps of its events: the pieces of visible text, joined, and the calls, in order.
-/
import ModelStream.Proofs.ReasoningBoard
import ModelStream.Transcript

namespace ModelStream

/-- The piece of visible text that an event adds. -/
def Event.delta? : Event → Option String
  | .delta text => some text
  | _ => none

/-- The visible text of events. -/
def visibleText (events : List Event) : String := String.join (events.filterMap Event.delta?)

@[simp] theorem visibleText_nil : visibleText [] = "" := rfl

@[simp] theorem visibleText_append (events later : List Event) :
    visibleText (events ++ later) = visibleText events ++ visibleText later := by
  rw [visibleText, List.filterMap_append, String.join_append]
  rfl

theorem visibleText_cons (e : Event) (events : List Event) :
    visibleText (e :: events) = e.delta?.getD "" ++ visibleText events := by
  rw [visibleText, List.filterMap_cons]
  cases e.delta? with
  | none => exact (String.empty_append ..).symm
  | some text => exact String.join_cons ..

/-- Adds neither text nor a call. -/
def Event.Mute (e : Event) : Prop := e.delta? = none ∧ e.call? = none

theorem visibleText_of_mute {events : List Event} (h : ∀ e ∈ events, e.Mute) : visibleText events = "" := by
  rw [visibleText, List.filterMap_eq_nil_iff.2 fun e he => (h e he).1]
  rfl

theorem toolCalls_of_mute {events : List Event} (h : ∀ e ∈ events, e.Mute) : toolCalls events = [] :=
  List.filterMap_eq_nil_iff.2 fun e he => (h e he).2

@[simp] theorem visibleText_calls (calls : List ToolCall) : visibleText (calls.map .toolCall) = "" := by
  rw [visibleText, List.filterMap_eq_nil_iff.2]
  · rfl
  · intro e he
    obtain ⟨call, -, rfl⟩ := List.mem_map.1 he
    rfl

/-- The end of the boards adds no text. -/
theorem Boards.finish_visibleText {b : Boards} (h : b.closing.finished = false) : visibleText b.finish.1 = "" := by
  have hflush : visibleText b.reasoning.flush.1 = "" := by
    rw [visibleText, List.filterMap_eq_nil_iff.2]
    · rfl
    · intro e he
      have hend := b.reasoning.flush_ends e he
      cases e <;> first | rfl | cases hend
  simp [finish, Closing.finish, h, hflush, visibleText_cons, Event.delta?]

namespace Transcript

theorem foldl_add (events : List Event) (t : Transcript) :
    (events.foldl add t).text = t.text ++ visibleText events ∧
      (events.foldl add t).calls = t.calls ++ toolCalls events := by
  induction events generalizing t with
  | nil => simp
  | cons e events ih =>
    obtain ⟨htext, hcalls⟩ := ih (t.add e)
    rw [List.foldl_cons, htext, hcalls, visibleText_cons, toolCalls_cons]
    cases e <;> simp [add, Event.delta?, Event.call?, String.append_assoc]

@[simp] theorem ofEvents_text (events : List Event) : (ofEvents events).text = visibleText events := by
  simp [ofEvents, (foldl_add events {}).1]

@[simp] theorem ofEvents_calls (events : List Event) : (ofEvents events).calls = toolCalls events := by
  simp [ofEvents, (foldl_add events {}).2]

end Transcript

end ModelStream
