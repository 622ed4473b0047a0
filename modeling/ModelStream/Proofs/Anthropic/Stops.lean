/-
Stops of content blocks in Anthropic streams, after any payloads. What the call board holds is told from the
signals since each index was last stopped (`Tracks`, `tracks_progress`): a call is pending at an index when a
tool block has begun there or arguments have come for it, and only the former gives it a name. So a stop ends
the stream exactly when nothing else is pending (`finishes_iff`), and gives out a call exactly when a tool
block with a name and a new id has been announced there (`gives_call_iff`).

The two differ where arguments have come for a block that is no tool block (`finishes_without_call`); apart
from calls that cannot be given out, a stop ends the stream only with a call (`finishes_with_call`).
-/
import Mathlib.Data.List.DropRight
import ModelStream.Proofs.Anthropic.Assembly

namespace ModelStream.Anthropic

variable {history : List Signal} {s : Signal} {b : ToolBlock} {index : Nat}

/-! ## What has come for an index -/

namespace Signal

/-- Stops the block at this index. -/
def stops (index : Nat) : Signal → Bool
  | .blockStop i => i == index
  | _ => false

/-- Begins a tool block at this index, or has a piece of arguments for it. -/
def feeds (index : Nat) (s : Signal) : Bool :=
  s.begins?.any (·.index == index) || s.fragment?.any (·.1 == index)

theorem stops_of_begins (hs : s.begins? = some b) (index : Nat) : s.stops index = false := by
  cases s with
  | blockStart => rfl
  | _ => cases hs

theorem stops_of_fragment {f : Nat × String} (hs : s.fragment? = some f) (index : Nat) : s.stops index = false := by
  cases s with
  | blockDelta => rfl
  | _ => cases hs

theorem eq_blockStop_of_stops (hs : s.stops index = true) : s = .blockStop index := by
  cases s with
  | blockStop i => rw [beq_iff_eq.1 hs]
  | _ => cases hs

end Signal

/-- The signals after the last stop of the index. -/
def sinceStop (index : Nat) (history : List Signal) : List Signal := history.rtakeWhile fun s => ! s.stops index

/-- Since the last stop of the index a tool block has begun there or arguments have come for it. -/
def Pending (index : Nat) (history : List Signal) : Prop := ∃ s ∈ sinceStop index history, s.feeds index

instance (index : Nat) (history : List Signal) : Decidable (Pending index history) :=
  inferInstanceAs (Decidable (∃ s ∈ sinceStop index history, _))

/-- The call at the index is the only one pending. -/
def LastPending (index : Nat) (history : List Signal) : Prop :=
  Pending index history ∧ ∀ other, Pending other history → other = index

/-- The last tool block that has begun at the index since it was last stopped. -/
def announced? (index : Nat) (history : List Signal) : Option ToolBlock :=
  (begun (sinceStop index history)).reverse.find? (·.index == index)

/-- What is known of the call at the index. -/
def draftAt (index : Nat) (history : List Signal) : CallDraft :=
  { arguments := argumentsAt index (sinceStop index history)
    id := (announced? index history).map (·.id), name := (announced? index history).map (·.name) }

/-- The draft of the index, if a call is pending there. -/
def draftOf (index : Nat) (history : List Signal) : Option CallDraft :=
  if Pending index history then some (draftAt index history) else none

theorem sinceStop_concat (index : Nat) (history : List Signal) (s : Signal) :
    sinceStop index (history ++ [s]) = if s.stops index then [] else sinceStop index history ++ [s] := by
  rw [sinceStop, List.rtakeWhile_concat]
  cases s.stops index <;> rfl

theorem pending_concat (index : Nat) (history : List Signal) (s : Signal) :
    Pending index (history ++ [s]) ↔ s.stops index = false ∧ (Pending index history ∨ s.feeds index) := by
  rw [Pending, sinceStop_concat]
  cases s.stops index <;> simp [Pending, or_and_right, exists_or]

theorem announced?_concat (hstop : s.stops index = false) (history : List Signal) :
    announced? index (history ++ [s]) = (s.begins?.filter (·.index == index)).or (announced? index history) := by
  rw [announced?, sinceStop_concat, hstop, if_neg Bool.false_ne_true, begun_concat]
  cases hbegins : s.begins? with
  | none => simp [announced?]
  | some b => by_cases hb : b.index = index <;> simp [announced?, Option.filter_some, hb]

theorem argumentsAt_sinceStop_concat (hstop : s.stops index = false) (history : List Signal) :
    argumentsAt index (sinceStop index (history ++ [s])) = argumentsAt index (sinceStop index history) ++
      (s.fragment?.elim "" fun f => if f.1 = index then f.2 else "") := by
  rw [sinceStop_concat, hstop, if_neg Bool.false_ne_true, argumentsAt_concat]

/-- Where nothing has come nothing is known. -/
theorem draftAt_of_not_pending (h : ¬ Pending index history) : draftAt index history = {} := by
  have hnone : ∀ s ∈ sinceStop index history,
      s.begins?.any (·.index == index) = false ∧ s.fragment?.any (·.1 == index) = false := by
    intro s hs
    have hfeeds : s.feeds index = false := by simpa using fun hs' => h ⟨s, hs, hs'⟩
    simpa [Signal.feeds] using hfeeds
  have hannounced : announced? index history = none := by
    refine List.find?_eq_none.2 fun b hb hindex => ?_
    obtain ⟨s, hs, hbegins⟩ := List.mem_filterMap.1 (List.mem_reverse.1 hb)
    have hother := (hnone s hs).1
    rw [hbegins] at hother
    exact Bool.false_ne_true (hother.symm.trans hindex)
  have harguments : argumentsAt index (sinceStop index history) = "" := by
    rw [argumentsAt, List.filterMap_eq_nil_iff.2]
    · rfl
    intro s hs
    have hother := (hnone s hs).2
    cases hfragment : s.fragment? with
    | none => rfl
    | some f =>
      rw [hfragment] at hother
      simpa using hother
  rw [draftAt, hannounced, harguments]
  rfl

theorem draftOf_getD (index : Nat) (history : List Signal) :
    (draftOf index history).getD {} = draftAt index history := by
  unfold draftOf
  split
  · rfl
  · next hnone => exact (draftAt_of_not_pending hnone).symm

/-! ### One more signal -/

/-- A signal for another index changes nothing. -/
theorem draftOf_of_not_feeds (hstop : s.stops index = false) (hfeeds : s.feeds index = false)
    (history : List Signal) : draftOf index (history ++ [s]) = draftOf index history := by
  have hpending : Pending index (history ++ [s]) ↔ Pending index history := by
    simp [pending_concat, hstop, hfeeds]
  rw [Signal.feeds, Bool.or_eq_false_iff] at hfeeds
  have hannounced : announced? index (history ++ [s]) = announced? index history := by
    rw [announced?_concat hstop]
    cases hbegins : s.begins? with
    | none => rfl
    | some b =>
      have hindex : (b.index == index) = false := by simpa [hbegins] using hfeeds.1
      simp [Option.filter_some, hindex]
  have harguments : argumentsAt index (sinceStop index (history ++ [s])) =
      argumentsAt index (sinceStop index history) := by
    rw [argumentsAt_sinceStop_concat hstop]
    cases hfragment : s.fragment? with
    | none => exact String.append_empty
    | some f =>
      have hindex : f.1 ≠ index := by simpa [hfragment] using hfeeds.2
      simp [hindex]
  simp only [draftOf, draftAt, hpending, hannounced, harguments]

theorem draftOf_of_feeds (hstop : s.stops index = false) (hfeeds : s.feeds index = true) (history : List Signal) :
    draftOf index (history ++ [s]) = some (draftAt index (history ++ [s])) :=
  if_pos ((pending_concat ..).2 ⟨hstop, .inr hfeeds⟩)

theorem draftOf_of_begins (hs : s.begins? = some b) (index : Nat) (history : List Signal) :
    draftOf index (history ++ [s]) = if index = b.index then
      some { (draftOf index history).getD {} with id := some b.id, name := some b.name } else draftOf index history := by
  have hstop := Signal.stops_of_begins hs index
  have hfragment := Signal.fragment?_of_begins hs
  split
  · next heq =>
    subst heq
    rw [draftOf_of_feeds hstop (by simp [Signal.feeds, hs]), draftOf_getD]
    simp [draftAt, announced?_concat hstop, argumentsAt_sinceStop_concat hstop, hs, hfragment, Option.filter_some]
  · next hne => exact draftOf_of_not_feeds hstop (by simp [Signal.feeds, hs, hfragment, Ne.symm hne]) history

theorem draftOf_of_fragment {i : Nat} {fragment : String} (hs : s.fragment? = some (i, fragment)) (index : Nat)
    (history : List Signal) :
    draftOf index (history ++ [s]) = if index = i then
      some { (draftOf index history).getD {} with
        arguments := ((draftOf index history).getD {}).arguments ++ fragment } else draftOf index history := by
  have hstop := Signal.stops_of_fragment hs index
  have hbegins : s.begins? = none := by
    cases s with
    | blockDelta => rfl
    | _ => cases hs
  split
  · next heq =>
    subst heq
    rw [draftOf_of_feeds hstop (by simp [Signal.feeds, hs]), draftOf_getD]
    simp [draftAt, announced?_concat hstop, argumentsAt_sinceStop_concat hstop, hs, hbegins]
  · next hne => exact draftOf_of_not_feeds hstop (by simp [Signal.feeds, hs, hbegins, Ne.symm hne]) history

theorem draftOf_of_aside (hbegins : s.begins? = none) (hfragment : s.fragment? = none) (index : Nat)
    (history : List Signal) :
    draftOf index (history ++ [s]) = if s.stops index then none else draftOf index history := by
  split
  · next hstop => simp [draftOf, pending_concat, hstop]
  · next hstop =>
    exact draftOf_of_not_feeds (Bool.eq_false_iff.2 hstop) (by simp [Signal.feeds, hbegins, hfragment]) history

/-! ## The call board after any signals -/

/-- The drafts of the call board are those of the pending calls, and the ids given out are those of the calls
among the events. -/
structure Tracks (history : List Signal) (told : List Event) (c : CallBoard) : Prop where
  drafts : ∀ index, c.get? (.index index) = draftOf index history
  others : ∀ id, c.get? (.id id) = none
  given : c.given = ((toolCalls told).map (·.id)).reverse

variable {told : List Event} {c : CallBoard} {d : Decoder}

namespace Decoder

/-- The stop of an index that has a draft completes it. -/
theorem apply_stop {draft : CallDraft} (hdraft : d.calls.get? (.index index) = some draft) :
    let step := d.apply (.blockStop index)
    step.state.calls = (d.calls.complete (.index index)).2 ∧
      step.events = (d.calls.complete (.index index)).1.toList.map .toolCall ∧
      (step.flow = .finish ↔ (d.calls.complete (.index index)).2.drafts = []) := by
  have hhas : Ordered.has d.calls.drafts (.index index) = true := by
    have hget : Ordered.get? d.calls.drafts (.index index) = some draft := hdraft
    simp [Ordered.has, hget]
  simp only [apply, stopBlock, hhas, if_true, List.isEmpty_iff]
  split
  · next hnone => exact ⟨rfl, rfl, by simp [hnone]⟩
  · next hsome => exact ⟨rfl, rfl, by simp [hsome]⟩

/-- The stop of an index that has no draft does not end the stream. -/
theorem apply_stop_none (hdraft : d.calls.get? (.index index) = none) : (d.apply (.blockStop index)).flow = .more := by
  have hhas : Ordered.has d.calls.drafts (.index index) = false := by
    simpa [Ordered.has, CallBoard.get?] using hdraft
  simp [apply, stopBlock, hhas]

/-- A stop that does not end the stream does not say why it ends. -/
theorem apply_stop_closing (d : Decoder) (hflow : (d.apply (.blockStop index)).flow ≠ .finish) :
    (d.apply (.blockStop index)).state.closing = d.closing := by
  simp only [apply, stopBlock] at hflow ⊢
  split
  · next hhas =>
    rw [if_pos hhas] at hflow
    split
    · next hempty =>
      rw [if_pos hempty] at hflow
      exact (hflow rfl).elim
    · rfl
  · rfl

end Decoder

namespace Tracks

theorem start : Tracks [] [] {} where
  drafts _ := rfl
  others _ := rfl
  given := rfl

theorem begin (h : Tracks history told c) (hs : s.begins? = some b) :
    Tracks (history ++ [s]) told (c.update (.index b.index) fun d => { d with id := some b.id, name := some b.name }) where
  drafts index := by
    rw [draftOf_of_begins hs]
    split
    · next heq => rw [heq, CallBoard.get?_update_self, h.drafts]
    · next hne => rw [CallBoard.get?_update_of_ne (fun heq => hne (CallKey.index.inj heq)), h.drafts]
  others id := by rw [CallBoard.get?_update_of_ne CallKey.noConfusion, h.others]
  given := h.given

theorem feed (h : Tracks history told c) {i : Nat} {fragment : String} (hs : s.fragment? = some (i, fragment)) :
    Tracks (history ++ [s]) told (c.append (.index i) fragment) where
  drafts index := by
    rw [draftOf_of_fragment hs, CallBoard.append]
    split
    · next heq => rw [heq, CallBoard.get?_update_self, h.drafts]
    · next hne => rw [CallBoard.get?_update_of_ne (fun heq => hne (CallKey.index.inj heq)), h.drafts]
  others id := by rw [CallBoard.append, CallBoard.get?_update_of_ne CallKey.noConfusion, h.others]
  given := h.given

theorem stop (h : Tracks history told c) (index : Nat) :
    Tracks (history ++ [.blockStop index]) (told ++ (c.complete (.index index)).1.toList.map .toolCall)
      (c.complete (.index index)).2 where
  drafts other := by
    rw [draftOf_of_aside rfl rfl, CallBoard.get?_complete, h.drafts]
    rcases eq_or_ne other index with rfl | hne
    · simp [Signal.stops]
    · simp [Signal.stops, hne, hne.symm]
  others id := by rw [CallBoard.get?_complete, if_neg CallKey.noConfusion, h.others]
  given := by
    rw [CallBoard.given_complete, h.given, toolCalls_append, toolCalls_map, List.map_append, List.reverse_append]
    cases (c.complete (.index index)).1 <;> rfl

/-- What any signal does. -/
theorem apply (h : Tracks history told d.calls) (s : Signal) :
    Tracks (history ++ [s]) (told ++ (d.apply s).events) (d.apply s).state.calls := by
  cases hbegins : s.begins? with
  | some b =>
    rw [Decoder.apply_of_begins hbegins, List.append_nil]
    exact h.begin hbegins
  | none =>
    cases hfragment : s.fragment? with
    | some f =>
      rw [Decoder.apply_of_fragment hfragment, List.append_nil]
      exact h.feed hfragment
    | none =>
      by_cases hstop : ∃ index draft, s = .blockStop index ∧ d.calls.get? (.index index) = some draft
      · obtain ⟨index, draft, rfl, hdraft⟩ := hstop
        obtain ⟨hcalls, hevents, -⟩ := Decoder.apply_stop hdraft
        rw [hcalls, hevents]
        exact h.stop index
      · have hnone : ∀ index, s = .blockStop index → d.calls.get? (.index index) = none := fun index hs =>
          Option.eq_none_iff_forall_ne_some.2 fun draft hdraft => hstop ⟨index, draft, hs, hdraft⟩
        obtain ⟨hcalls, hsilent, -⟩ := d.apply_aside hbegins hfragment hnone
        refine ⟨fun index => ?_, fun id => ?_, ?_⟩
        · rw [hcalls, draftOf_of_aside hbegins hfragment]
          split
          · next hs => exact hnone index (Signal.eq_blockStop_of_stops hs)
          · exact h.drafts index
        · rw [hcalls, h.others]
        · rw [hcalls, toolCalls_append, hsilent, List.append_nil, h.given]

end Tracks

/-! ## After any payloads -/

/-- A decoder, with the events it has given out. -/
structure Progress where
  decoder : Decoder := {}
  events : List Event := []

def Progress.take (p : Progress) (payload : String) : Progress :=
  { decoder := (p.decoder.step payload).state, events := p.events ++ (p.decoder.step payload).events }

/-- A new decoder that has taken these payloads. -/
def progress (payloads : List String) : Progress := payloads.foldl Progress.take {}

theorem progress_concat (payloads : List String) (payload : String) :
    progress (payloads ++ [payload]) = (progress payloads).take payload := by
  simp [progress]

theorem tracks_progress (payloads : List String) :
    Tracks (signals payloads) (progress payloads).events (progress payloads).decoder.calls := by
  induction payloads using List.reverseRecOn with
  | nil => exact .start
  | append_singleton payloads payload ih =>
    rw [progress_concat, signals_concat, Progress.take]
    cases hsaid : said payload with
    | some s =>
      rw [Decoder.step_of_said hsaid]
      exact ih.apply s
    | none =>
      obtain ⟨problem, hstep⟩ := (progress payloads).decoder.step_of_unsaid hsaid
      rw [hstep]
      refine ⟨by simpa [Step.unread] using ih.drafts, ih.others, ?_⟩
      simpa [Step.unread, toolCalls_cons, Event.malformed, Event.call?] using ih.given

/-! ## Stops -/

/-- The id under which the call of a block is given out: its own, or else its index. -/
def ToolBlock.callId (b : ToolBlock) : String := if b.id = "" then toString b.index else b.id

/-- The call at the index can be given out: a tool block with a name has begun there, and no call has been
given out under its id. -/
def Deliverable (index : Nat) (history : List Signal) (told : List Event) : Prop :=
  ∃ b, announced? index history = some b ∧ b.name ≠ "" ∧ b.callId ∉ (toolCalls told).map (·.id)

theorem pending_of_announced (h : announced? index history = some b) : Pending index history := by
  by_contra hnone
  have hid := congrArg CallDraft.id (draftAt_of_not_pending hnone)
  simp [draftAt, h] at hid

theorem draftOf_of_announced (h : announced? index history = some b) :
    draftOf index history = some (draftAt index history) := if_pos (pending_of_announced h)

theorem callId_draftAt (h : announced? index history = some b) :
    (draftAt index history).callId (.index index) = b.callId := by
  obtain rfl : b.index = index := by simpa using List.find?_some h
  by_cases hid : b.id = "" <;> simp [CallDraft.callId, draftAt, h, ToolBlock.callId, nonEmpty, Option.filter_some, hid,
    CallKey.text]

/-- Completing an index gives out a call if and only if that can be. -/
theorem Tracks.complete_iff (h : Tracks history told c) (index : Nat) :
    (∃ call, (c.complete (.index index)).1 = some call) ↔ Deliverable index history told := by
  constructor
  · rintro ⟨call, hcall⟩
    obtain ⟨d, hget, hname, hself, hnew, -⟩ := CallBoard.complete_some (Prod.ext hcall rfl)
    rw [h.drafts, draftOf, Option.ite_none_right_eq_some] at hget
    obtain ⟨-, heq⟩ := hget
    cases heq
    cases hannounced : announced? index history with
    | none => simp [draftAt, hannounced, nonEmpty] at hname
    | some b =>
      refine ⟨b, hannounced, fun hempty => ?_, ?_⟩
      · simp [draftAt, hannounced, nonEmpty, Option.filter_some, hempty] at hname
      · rw [← callId_draftAt hannounced]
        rw [h.given, hself] at hnew
        simpa using hnew
  · rintro ⟨b, hannounced, hname, hnew⟩
    have hget : c.get? (.index index) = some (draftAt index history) := by
      rw [h.drafts, draftOf_of_announced hannounced]
    have hsome : nonEmpty (draftAt index history).name = some b.name := by
      simp [draftAt, hannounced, CallBoard.nonEmpty_some hname]
    refine ⟨_, congrArg Prod.fst (CallBoard.complete_of_get? hget ?_ hsome)⟩
    rw [callId_draftAt hannounced, h.given]
    simpa using hnew

/-- Completing an index leaves no draft if and only if no other call is pending. -/
theorem Tracks.complete_empty_iff (h : Tracks history told c) (index : Nat) :
    (c.complete (.index index)).2.drafts = [] ↔ ∀ other, Pending other history → other = index := by
  rw [CallBoard.drafts_eq_nil_iff]
  constructor
  · intro hnone other hother
    by_contra hne
    have hget := hnone (.index other)
    rw [CallBoard.get?_complete, if_neg fun heq => hne (CallKey.index.inj heq), h.drafts, draftOf, if_pos hother] at hget
    cases hget
  · rintro honly (other | id)
    · rw [CallBoard.get?_complete, h.drafts]
      split
      · rfl
      · next hne => exact if_neg fun hother => hne (congrArg _ (honly other hother))
    · rw [CallBoard.get?_complete, if_neg CallKey.noConfusion, h.others]

variable {payloads : List String} {payload : String}

/-- A stop ends the stream if and only if the only pending call is that of its index. -/
theorem finishes_iff (hsaid : said payload = some (.blockStop index)) :
    ((progress payloads).decoder.step payload).flow = .finish ↔ LastPending index (signals payloads) := by
  have htracks := tracks_progress payloads
  have hget := htracks.drafts index
  rw [Decoder.step_of_said hsaid]
  by_cases hpending : Pending index (signals payloads)
  · rw [draftOf, if_pos hpending] at hget
    rw [(Decoder.apply_stop hget).2.2, htracks.complete_empty_iff, LastPending]
    simp [hpending]
  · rw [draftOf, if_neg hpending] at hget
    simp [Decoder.apply_stop_none hget, LastPending, hpending]

/-- A stop gives out a call if and only if that of its index can be given out. -/
theorem gives_call_iff (hsaid : said payload = some (.blockStop index)) :
    (∃ call, ((progress payloads).decoder.step payload).events = [.toolCall call]) ↔
      Deliverable index (signals payloads) (progress payloads).events := by
  have htracks := tracks_progress payloads
  have hget := htracks.drafts index
  rw [Decoder.step_of_said hsaid, ← htracks.complete_iff]
  by_cases hpending : Pending index (signals payloads)
  · rw [draftOf, if_pos hpending] at hget
    rw [(Decoder.apply_stop hget).2.1]
    cases ((progress payloads).decoder.calls.complete (.index index)).1 <;> simp
  · rw [draftOf, if_neg hpending] at hget
    rw [CallBoard.complete_of_get?_none hget]
    refine iff_of_false ?_ (by simp)
    rintro ⟨call, hcall⟩
    -- without a draft the stop is one of reasoning, which gives out no call
    have hsilent := ((progress payloads).decoder.apply_aside (s := .blockStop index) rfl rfl fun i hi => by
      cases hi
      exact hget).2.1
    rw [hcall] at hsilent
    cases hsilent

/-- A stop ends the stream only with a call, unless the last pending call is one that cannot be given out; where
nothing is pending it neither ends the stream nor says why it ends; and no stop says so without ending the
stream. -/
theorem finishes_with_call (hsaid : said payload = some (.blockStop index))
    (hdeliverable : LastPending index (signals payloads) →
      Deliverable index (signals payloads) (progress payloads).events) :
    let d := (progress payloads).decoder
    ((d.step payload).flow = .finish → ∃ call, (d.step payload).events = [.toolCall call]) ∧
      (¬ Pending index (signals payloads) →
        (d.step payload).flow = .more ∧ (d.step payload).state.closing = d.closing) ∧
      ((d.step payload).flow ≠ .finish → (d.step payload).state.closing = d.closing) := by
  intro d
  have hkept : (d.step payload).flow ≠ .finish → (d.step payload).state.closing = d.closing := by
    rw [Decoder.step_of_said hsaid]
    exact d.apply_stop_closing
  refine ⟨fun hfinish => (gives_call_iff hsaid).2 (hdeliverable ((finishes_iff hsaid).1 hfinish)), fun hnone => ?_, hkept⟩
  have hmore : (d.step payload).flow = .more := by
    rw [Decoder.step_of_said hsaid]
    exact Decoder.apply_stop_none (((tracks_progress payloads).drafts index).trans (if_neg hnone))
  exact ⟨hmore, hkept (by rw [hmore]; exact Flow.noConfusion)⟩

theorem said_of_stops (h : (said payload).any (·.stops index) = true) : said payload = some (.blockStop index) := by
  cases hsaid : said payload with
  | none => rw [hsaid] at h; cases h
  | some s =>
    rw [hsaid] at h
    rw [Signal.eq_blockStop_of_stops h]

/-- A tool block that is stopped after a block of unknown type has begun. -/
theorem finishes_with_call_last :
    let payloads : List String :=
      [ "\x7b\"type\":\"content_block_start\",\"index\":1,\"content_block\":\x7b\"type\":\"tool_use\",\"id\":\"a\",\"name\":\"f\"\x7d\x7d",
        "\x7b\"type\":\"content_block_start\",\"index\":0,\"content_block\":\x7b\"type\":\"x\"\x7d\x7d" ]
    let step := (progress payloads).decoder.step "\x7b\"type\":\"content_block_stop\",\"index\":1\x7d"
    step.flow = .finish ∧ ∃ call, step.events = [.toolCall call] := by
  intro payloads step
  have hsaid : said "\x7b\"type\":\"content_block_stop\",\"index\":1\x7d" = some (.blockStop 1) :=
    said_of_stops (by decide +kernel)
  have hstep : step.flow = .finish ∧ announced? 1 (signals payloads) = some { index := 1, id := "a", name := "f" } ∧
      "a" ∉ (toolCalls (progress payloads).events).map (·.id) := by decide +kernel
  obtain ⟨hfinish, hannounced, hnew⟩ := hstep
  exact ⟨hfinish, (finishes_with_call hsaid fun _ => ⟨_, hannounced, by decide, hnew⟩).1 hfinish⟩

/-- A stop can end the stream without a call: arguments for a block of unknown type count as a pending call. -/
theorem finishes_without_call :
    ¬ ∀ (payloads : List String) (payload : String) (index : Nat), said payload = some (.blockStop index) →
      ((progress payloads).decoder.step payload).flow = .finish →
        ∃ call, .toolCall call ∈ ((progress payloads).decoder.step payload).events := by
  intro hall
  let payloads : List String :=
    [ "\x7b\"type\":\"content_block_start\",\"index\":0,\"content_block\":\x7b\"type\":\"server_tool_use\",\"id\":\"s\",\"name\":\"f\"\x7d\x7d",
      "\x7b\"type\":\"content_block_delta\",\"index\":0,\"delta\":\x7b\"type\":\"input_json_delta\",\"partial_json\":\"\x7b\x7d\"\x7d\x7d" ]
  let stop := "\x7b\"type\":\"content_block_stop\",\"index\":0\x7d"
  have hstep : (said stop).any (·.stops 0) = true ∧ ((progress payloads).decoder.step stop).flow = .finish ∧
      toolCalls ((progress payloads).decoder.step stop).events = [] := by decide +kernel
  obtain ⟨hstops, hfinish, hnothing⟩ := hstep
  obtain ⟨call, hcall⟩ := hall payloads stop 0 (said_of_stops hstops) hfinish
  have hmem : call ∈ toolCalls _ := List.mem_filterMap.2 ⟨_, hcall, rfl⟩
  rw [hnothing] at hmem
  cases hmem

end ModelStream.Anthropic
