/-
A completion that comes twice. A completion that carries an id of its call gives the call out once at
most, however often it is read: its ids are recorded then, and keep later ones back. A completion that
carries none is told apart by the id that the call goes out under, and that is not the same the second
time if the draft had one of its own. `Decoder.step_twice` says exactly when reading a completion twice
in a row gives out two calls (`Decoder.Renames`), and what the second one is.
-/
import ModelStream.Proofs.Decoder.CallIds

namespace ModelStream

namespace CallBoard

theorem complete_isSome_iff {b : CallBoard} {key : CallKey} {d : CallDraft} (h : b.get? key = some d) :
    (b.complete key).1.isSome ↔ d.callId key ∉ b.given ∧ (nonEmpty d.name).isSome := by
  constructor
  · intro hsome
    obtain ⟨call, hcall⟩ := Option.isSome_iff_exists.1 hsome
    obtain ⟨draft, hget, hname, hcallEq, hnew, -⟩ := complete_some (Prod.ext hcall rfl)
    cases h.symm.trans hget
    rw [hcallEq] at hnew
    exact ⟨hnew, by rw [hname]; rfl⟩
  · rintro ⟨hnew, hname⟩
    obtain ⟨name, hname⟩ := Option.isSome_iff_exists.1 hname
    rw [complete_of_get? h hnew hname]
    rfl

theorem complete_id {b : CallBoard} {key : CallKey} {d : CallDraft} {call : ToolCall} (h : b.get? key = some d)
    (hcall : (b.complete key).1 = some call) : call.id = d.callId key := by
  obtain ⟨draft, hget, -, hcallEq, -, -⟩ := complete_some (Prod.ext hcall rfl)
  cases h.symm.trans hget
  rw [hcallEq]

end CallBoard

namespace Responses.Decoder

variable {d : Decoder} {key : CallKey} {c : CallItem}

/-! ## One completion -/

theorem completeCall_length_le (d : Decoder) (key : CallKey) (c : CallItem) :
    (toolCalls (d.completeCall key c).1).length ≤ 1 := by
  rcases d.completeCall_cases key c with hnone | ⟨call, hone, -⟩
  · simp [hnone]
  · simp [hone, toolCalls_cons, Event.call?]

/-- After a call was given out for an item with an id, that item gives out nothing under any key. -/
theorem completeCall_again {id : String} (hid : c.Carries id) (hgave : toolCalls (d.completeCall key c).1 ≠ [])
    (other : CallKey) : ((d.completeCall key c).2.completeCall other c).1 = [] := by
  rcases d.completeCall_cases key c with hnone | ⟨call, -, hrecorded⟩
  · rw [hnone] at hgave
    exact (hgave rfl).elim
  · have hgiven : (d.completeCall key c).2.alreadyGiven c.id c.callId = true :=
      List.any_eq_true.2 ⟨id, CallItem.carries_iff.1 hid, (CallBoard.wasGiven_iff _ _).2 (hrecorded id hid)⟩
    generalize (d.completeCall key c).2 = e at hgiven
    simp [completeCall, hgiven]

/-! ## Completions without ids -/

theorem completion_steady {signal : Signal} (h : d.completion signal = some (key, c)) (hid : c.id = none)
    (hcall : c.callId = none) (e : Decoder) : e.completion signal = some (key, c) := by
  cases signal with
  | argumentsDone target arguments =>
    obtain ⟨hkey, hc⟩ := Prod.mk.inj (Option.some.inj h)
    subst hc
    have hitem : target.itemId = none := hid
    have hnone : target.callId = none := hcall
    rw [← hkey]
    simp [completion, callKey, hitem, hnone]
  | itemDone index item => exact h
  | _ => cases h

/-- What a completion without ids gives out: the draft as it was announced, under its own id or else its
key's text, with the name of the completion if it had none. -/
theorem completeCall_without_ids (hid : c.id = none) (hcall : c.callId = none) (d : Decoder) (key : CallKey)
    {draft : CallDraft} (hdraft : (d.calls.get? key).getD {} = draft) :
    ∃ given : Option ToolCall, toolCalls (d.completeCall key c).1 = given.toList ∧
      (given.isSome ↔ draft.callId key ∉ d.calls.given ∧ (nonEmpty (draft.name <|> c.name)).isSome) ∧
      (∀ call ∈ given, call.id = draft.callId key) ∧
      (d.completeCall key c).2.calls.get? key = none ∧
      (d.completeCall key c).2.calls.given = given.toList.map (·.id) ++ d.calls.given := by
  have hget : (d.calls.update key c.fill).get? key = some (c.fill draft) := by
    rw [CallBoard.get?_update_self, hdraft]
  have hcallId : (c.fill draft).callId key = draft.callId key := by
    cases h : draft.id <;> simp [CallItem.fill, CallDraft.callId, hid, hcall, h]
  have hcomplete : (toolCalls (d.completeCall key c).1 = ((d.calls.update key c.fill).complete key).1.toList) ∧
      (d.completeCall key c).2.calls = ((d.calls.update key c.fill).complete key).2 := by
    rcases h : (d.calls.update key c.fill).complete key with ⟨_ | call, calls⟩ <;>
      simp [completeCall, alreadyGiven, hid, hcall, h, toolCalls_cons, Event.call?]
  obtain ⟨hevents, hcalls⟩ := hcomplete
  refine ⟨_, hevents, ?_, fun call hmem => ?_, ?_, ?_⟩
  · rw [CallBoard.complete_isSome_iff hget, hcallId]
    rfl
  · rw [CallBoard.complete_id hget hmem, hcallId]
  · rw [hcalls, CallBoard.get?_complete, if_pos rfl]
  · rw [hcalls, CallBoard.given_complete]
    rfl

/-! ## Two completions -/

/-- A completion that carries no id but a name, for a draft that goes out under an id of its own: that id
keeps the draft back the second time, but not a call that has nothing but the key. -/
structure Renames (d : Decoder) (key : CallKey) (c : CallItem) : Prop where
  id : c.id = none
  callId : c.callId = none
  named : (nonEmpty c.name).isSome
  fresh : key.text ∉ d.calls.given
  draft : ∃ draft, d.calls.get? key = some draft ∧ draft.callId key ≠ key.text ∧
    draft.callId key ∉ d.calls.given ∧ (nonEmpty (draft.name <|> c.name)).isSome

/-- Completing a call without ids twice gives out a call both times exactly if that renames it. -/
theorem completeCall_twice (hid : c.id = none) (hcall : c.callId = none) (d : Decoder) (key : CallKey) :
    ∃ first second : Option ToolCall, toolCalls (d.completeCall key c).1 = first.toList ∧
      toolCalls ((d.completeCall key c).2.completeCall key c).1 = second.toList ∧
      (first.isSome ∧ second.isSome ↔ d.Renames key c) ∧
      ∀ call ∈ first, ∀ again ∈ second, call.id ≠ key.text ∧ again.id = key.text := by
  obtain ⟨first, hfirst, hsome, hname, hgone, hgiven⟩ := completeCall_without_ids hid hcall d key rfl
  -- nothing is drafted under the key any more, so the second call has only the key and the completion's name
  have hempty : ((d.completeCall key c).2.calls.get? key).getD {} = ({} : CallDraft) := by rw [hgone]; rfl
  obtain ⟨second, hsecond, hsome', hname', -, -⟩ := completeCall_without_ids hid hcall _ key hempty
  rw [hgiven] at hsome'
  have hboth : ∀ call ∈ first, ∀ again ∈ second, call.id ≠ key.text ∧ again.id = key.text := by
    intro call hmem again hmem'
    refine ⟨fun heq => ?_, hname' again hmem'⟩
    have hnew := (hsome'.1 (Option.isSome_iff_exists.2 ⟨again, hmem'⟩)).1
    exact hnew (List.mem_append_left _ (List.mem_map.2 ⟨call, Option.mem_toList.2 hmem, heq⟩))
  refine ⟨first, second, hfirst, hsecond, ?_, hboth⟩
  constructor
  · rintro ⟨hone, htwo⟩
    obtain ⟨call, hmem⟩ := Option.isSome_iff_exists.1 hone
    obtain ⟨again, hmem'⟩ := Option.isSome_iff_exists.1 htwo
    obtain ⟨hnew, hnamed⟩ := hsome'.1 htwo
    have hother : ((d.calls.get? key).getD {}).callId key ≠ key.text := hname call hmem ▸ (hboth call hmem again hmem').1
    refine ⟨hid, hcall, hnamed, fun hold => hnew (List.mem_append_right _ hold), ?_⟩
    cases hget : d.calls.get? key with
    | none => exact (hother (by rw [hget]; rfl)).elim
    | some draft =>
      rw [hget] at hother hsome
      exact ⟨draft, rfl, hother, hsome.1 hone⟩
  · intro h
    obtain ⟨draft, hget, hother, hnew, hnamed⟩ := h.draft
    rw [hget] at hsome hname
    have hone : first.isSome := hsome.2 ⟨hnew, hnamed⟩
    refine ⟨hone, hsome'.2 ⟨fun hold => ?_, h.named⟩⟩
    rcases List.mem_append.1 hold with hold | hold
    · obtain ⟨call, hmem, heq⟩ := List.mem_map.1 hold
      exact hother ((hname call (Option.mem_toList.1 hmem)).symm.trans heq)
    · exact h.fresh hold

/-- Reading a completion twice in a row gives out one call at most, unless it renames the call: then it
gives out two, the second one under the text of the key. -/
theorem step_twice (d : Decoder) {payload : String} {raw : Json} {signal : Signal} {key : CallKey} {c : CallItem}
    (hread : Signal.ofText payload = .ok (raw, signal)) (hc : d.completion signal = some (key, c)) :
    (¬ d.Renames key c →
      (toolCalls ((d.step payload).events ++ ((d.step payload).state.step payload).events)).length ≤ 1) ∧
    (d.Renames key c → ∃ call again,
      toolCalls ((d.step payload).events ++ ((d.step payload).state.step payload).events) = [call, again] ∧
        call.id ≠ key.text ∧ again.id = key.text) := by
  have hstep : ∀ (e : Decoder) {key' : CallKey}, e.completion signal = some (key', c) →
      (e.step payload).events = (e.completeCall key' c).1 ∧ (e.step payload).state = (e.completeCall key' c).2 := by
    intro e key' he
    simp only [step, hread]
    exact apply_completion he raw
  obtain ⟨hevents, hstate⟩ := hstep d hc
  rw [hevents, hstate, toolCalls_append]
  by_cases hids : c.id = none ∧ c.callId = none
  · obtain ⟨hid, hcall⟩ := hids
    obtain ⟨first, second, hfirst, hsecond, hiff, hboth⟩ := completeCall_twice hid hcall d key
    rw [(hstep _ (completion_steady hc hid hcall _)).1, hfirst, hsecond, ← hiff]
    cases first with
    | none => cases second <;> simp
    | some call =>
      cases second with
      | none => simp
      | some again => exact ⟨by simp, fun _ => ⟨call, again, rfl, hboth call rfl again rfl⟩⟩
  · have hcarries : ∃ id, c.Carries id := by
      simp only [CallItem.Carries]
      cases hid : c.id <;> cases hcall : c.callId <;> simp_all
    obtain ⟨id, hid⟩ := hcarries
    refine ⟨fun _ => ?_, fun h => (hids ⟨h.id, h.callId⟩).elim⟩
    have hsame : ((d.completeCall key c).2.completion signal).map (·.2) = some c := by
      rw [completion_completes, ← d.completion_completes, hc]
      rfl
    obtain ⟨⟨later, other⟩, hlater, heq⟩ := Option.map_eq_some_iff.1 hsame
    rw [show other = c from heq] at hlater
    rw [(hstep _ hlater).1, List.length_append]
    by_cases hgave : toolCalls (d.completeCall key c).1 = []
    · rw [hgave, List.length_nil, Nat.zero_add]
      exact completeCall_length_le _ later c
    · rw [completeCall_again hid hgave later, toolCalls_nil, List.length_nil, Nat.add_zero]
      exact completeCall_length_le d key c

theorem step_twice_identified :
    let added := "\x7b\"type\":\"response.output_item.added\",\"output_index\":0,\"item\":
      \x7b\"type\":\"function_call\",\"id\":\"fc_1\",\"call_id\":\"call_1\"\x7d\x7d"
    let done := "\x7b\"type\":\"response.function_call_arguments.done\",\"item_id\":\"fc_1\",\"name\":\"f\"\x7d"
    let d := (({} : Decoder).step added).state
    let c : CallItem := { id := some "fc_1", name := some "f" }
    ∃ raw signal key, Signal.ofText done = .ok (raw, signal) ∧ d.completion signal = some (key, c) ∧
      ¬ d.Renames key c ∧
      (toolCalls ((d.step done).events ++ ((d.step done).state.step done).events)).length ≤ 1 := by
  intro added done d c
  have hcompletes : (Signal.ofText done).toOption.bind (·.2.completes) = some c := by decide +kernel
  obtain ⟨⟨raw, signal⟩, hmem, hsignal⟩ := Option.bind_eq_some_iff.1 hcompletes
  have hread := Signal.ofText_of_mem hmem
  rw [← d.completion_completes] at hsignal
  obtain ⟨⟨key, other⟩, hcompletion, heq⟩ := Option.map_eq_some_iff.1 hsignal
  rw [show other = c from heq] at hcompletion
  have hkept : ¬ d.Renames key c := fun h => nomatch h.id
  exact ⟨raw, signal, key, hread, hcompletion, hkept, (d.step_twice hread hcompletion).1 hkept⟩

/-- An announced call whose arguments end under its index alone, twice: it goes out under its call id and
then under the text of its index. -/
theorem step_twice_renamed :
    let added := "\x7b\"type\":\"response.output_item.added\",\"output_index\":0,\"item\":
      \x7b\"type\":\"function_call\",\"id\":\"fc_1\",\"call_id\":\"call_1\",\"name\":\"f\"\x7d\x7d"
    let done := "\x7b\"type\":\"response.function_call_arguments.done\",\"output_index\":0,
      \"arguments\":\"\x7b\x7d\",\"name\":\"f\"\x7d"
    let d := (({} : Decoder).step added).state
    let calls := toolCalls ((d.step done).events ++ ((d.step done).state.step done).events)
    ((Signal.ofText done).toOption.bind (·.2.completes)).isSome ∧
      calls.map (fun call => (call.id, call.rawArguments)) = [("call_1", "\x7b\x7d"), ("0", "\x7b\x7d")] ∧
      ¬ calls.length ≤ 1 := by
  intro added done d calls
  refine ⟨by decide +kernel, by decide +kernel, by decide +kernel⟩

end Responses.Decoder

end ModelStream
