/-
Items and signals of a Responses stream that have nothing to do with calls. Decoding one leaves the
calls, the table of item ids and the closing response as they are, and gives out no call
(`Decoder.Quiet`); so text, reasoning, remarks, failures, unknown kinds and payloads that cannot be
read may stand anywhere between what a stream says of its calls.
-/
import ModelStream.Proofs.Boards
import ModelStream.Responses.Decoder

namespace ModelStream.Responses

/-! ## What speaks of calls -/

/-- An id that an item carries, as its own or as that of its call. -/
def CallItem.Carries (c : CallItem) (id : String) : Prop := c.id = some id ∨ c.callId = some id

theorem CallItem.carries_iff {c : CallItem} {id : String} :
    c.Carries id ↔ id ∈ c.id.toList ++ c.callId.toList := by
  simp [Carries]

/-- The call id, or else the item id. -/
theorem CallItem.carries_of_primary {c : CallItem} {id : String} (h : (c.callId <|> c.id) = some id) : c.Carries id := by
  cases hcall : c.callId with
  | none => exact .inl (by simpa [hcall] using h)
  | some other => exact .inr (by simpa [hcall] using h)

/-- The call that an item describes. -/
def callOf (item : Json) : Option CallItem :=
  match Item.ofValue item with
  | .ok (.call c) => some c
  | _ => none

theorem callOf_eq_some {item : Json} {c : CallItem} : callOf item = some c ↔ Item.ofValue item = .ok (.call c) := by
  unfold callOf
  split
  · next other h => simp [h]
  · next h => exact ⟨fun hc => (nomatch hc), fun hc => (h c hc).elim⟩

theorem Signal.ofText_of_mem {payload : String} {read : Json × Signal}
    (h : read ∈ (Signal.ofText payload).toOption) : Signal.ofText payload = .ok read := by
  cases hread : Signal.ofText payload with
  | error problem => rw [hread] at h; cases h
  | ok other => rw [hread] at h; exact congrArg _ (Option.some.inj h)

/-- Says nothing of a call, and does not end the stream. -/
def Signal.Apart : Signal → Prop
  | .itemAdded _ item | .itemDone _ item => callOf item = none
  | .argumentsDelta .. | .argumentsDone .. | .ended .. => False
  | _ => True

instance : ∀ signal : Signal, Decidable signal.Apart
  | .itemAdded _ item | .itemDone _ item => inferInstanceAs (Decidable (callOf item = none))
  | .argumentsDelta .. | .argumentsDone .. | .ended .. => isFalse id
  | .started _ | .textDelta _ | .note | .reasoningDelta .. | .error .. | .idle => isTrue trivial

namespace Decoder

/-! ## What leaves calls alone -/

/-- These events leave everything about calls as it is. -/
structure Quiet (d : Decoder) (events : List Event) (e : Decoder) : Prop where
  calls : e.calls = d.calls
  indices : e.indices = d.indices
  last : e.last = d.last
  silent : toolCalls events = []

theorem Quiet.refl (d : Decoder) : Quiet d [] d := ⟨rfl, rfl, rfl, rfl⟩

theorem addSummary_calls (key : ReasoningKey) (parts : List Json) (b : ReasoningBoard) :
    toolCalls (addSummary key parts b).1 = [] := by
  induction parts generalizing b with
  | nil => rfl
  | cons part more ih =>
    unfold addSummary
    split
    · next text _ =>
      have hpush := b.push_calls key text
      rcases h : b.push key text with ⟨event, c⟩
      rw [h] at hpush
      simp only [toolCalls_append, hpush, ih, List.append_nil]
    · exact ih b

theorem finishReasoning_quiet (d : Decoder) (key : ReasoningKey) (summary : List Json) (item : Json) :
    Quiet d (d.finishReasoning key summary item).1 (d.finishReasoning key summary item).2 := by
  unfold finishReasoning
  split
  · exact .refl d
  · refine ⟨rfl, rfl, rfl, ?_⟩
    rw [toolCalls_append, ReasoningBoard.finish_calls, List.append_nil]
    split
    · rfl
    · exact addSummary_calls key summary d.reasoning

theorem announce_quiet (d : Decoder) (index : Nat) {item : Json} (h : callOf item = none) :
    d.announce index item = d := by
  unfold announce
  split
  · next c hc => rw [callOf_eq_some.2 hc] at h; cases h
  · rfl

theorem finishItem_quiet (d : Decoder) (index : Nat) {item : Json} (h : callOf item = none) :
    Quiet d (d.finishItem index item).1 (d.finishItem index item).2 := by
  unfold finishItem
  split
  · exact ⟨rfl, rfl, rfl, rfl⟩
  · next c hc => rw [callOf_eq_some.2 hc] at h; cases h
  · exact finishReasoning_quiet d _ _ item
  · exact .refl d

theorem rescanItem_quiet (d : Decoder) (position : Nat) {item : Json} (h : callOf item = none) :
    Quiet d (d.rescanItem position item).1 (d.rescanItem position item).2 := by
  unfold rescanItem
  split
  · next c hc => rw [callOf_eq_some.2 hc] at h; cases h
  · exact finishReasoning_quiet d _ _ item
  · exact .refl d

/-! ## Signals -/

theorem apply_quiet (d : Decoder) (raw : Json) {signal : Signal} (h : signal.Apart) :
    Quiet d (d.apply raw signal).events (d.apply raw signal).state ∧ (d.apply raw signal).flow = .more := by
  cases signal with
  | started response =>
    simp only [apply]
    cases response.id with
    | none => exact ⟨.refl d, rfl⟩
    | some id => exact ⟨⟨rfl, rfl, rfl, rfl⟩, rfl⟩
  | itemAdded index item =>
    simp only [apply, announce_quiet d index h]
    exact ⟨.refl d, trivial⟩
  | itemDone index item => exact ⟨finishItem_quiet d index h, rfl⟩
  | textDelta text =>
    refine ⟨⟨rfl, rfl, rfl, ?_⟩, rfl⟩
    simp only [apply]
    split <;> rfl
  | reasoningDelta itemId text =>
    have hpush := d.reasoning.push_calls (.ofId itemId) text
    rcases h : d.reasoning.push (.ofId itemId) text with ⟨event, reasoning⟩
    rw [h] at hpush
    simp only [apply, h]
    exact ⟨⟨rfl, rfl, rfl, hpush⟩, trivial⟩
  | note | error | idle => exact ⟨⟨rfl, rfl, rfl, rfl⟩, rfl⟩
  | argumentsDelta | argumentsDone | ended => exact h.elim

/-- A payload that cannot be read, or that has nothing to do with calls. -/
theorem step_quiet (d : Decoder) {payload : String}
    (h : ∀ read ∈ (Signal.ofText payload).toOption, read.2.Apart) :
    Quiet d (d.step payload).events (d.step payload).state ∧ (d.step payload).flow = .more := by
  unfold step
  split
  · next raw signal hread => exact apply_quiet d raw (h (raw, signal) (by rw [hread]; rfl))
  · exact ⟨⟨rfl, rfl, rfl, rfl⟩, rfl⟩

/-- The signal that ends the stream keeps the closing response, and gives out no call. -/
theorem close_calls (d : Decoder) (outcome : Outcome) (response : Response) :
    toolCalls (d.close outcome response).1 = [] ∧ (d.close outcome response).2.calls = d.calls ∧
      (d.close outcome response).2.indices = d.indices ∧
      (d.close outcome response).2.last = some response := by
  refine ⟨?_, rfl, rfl, rfl⟩
  simp only [close]
  split <;> rfl

end Decoder

end ModelStream.Responses
