/-
What a signal of an orderly Anthropic stream does to the tool calls: the stop of an open block gives out
its call, and ends the stream if it leaves no block open (`Holds.apply_stop`); no other signal gives out
a call, and the stream ends with those that say so (`Holds.apply_other`). At the end the blocks still open
are given out in the order of their indices (`Holds.closes`).
-/
import ModelStream.Proofs.Anthropic.ToolBlocks
import ModelStream.Proofs.ReasoningBoard

namespace ModelStream.Anthropic

variable {history : List Signal} {s : Signal} {b : ToolBlock} {d : Decoder}

/-- Says that the stream is over. -/
def Signal.Final : Signal → Prop
  | .messageStop | .messageDelta (some _) _ => True
  | _ => False

/-! ## One signal -/

namespace Decoder

theorem apply_of_begins (hs : s.begins? = some b) : d.apply s =
    { state := { d with calls := d.calls.update (.index b.index) fun draft =>
        { draft with id := some b.id, name := some b.name } } } := by
  cases s with
  | blockStart index block =>
    simp only [Signal.begins?] at hs
    split at hs
    · next hblock =>
      cases hs
      simp [apply, startBlock, hblock]
    · cases hs
  | _ => cases hs

theorem apply_of_fragment {index : Nat} {fragment : String} (hs : s.fragment? = some (index, fragment)) :
    d.apply s = { state := { d with calls := d.calls.append (.index index) fragment } } := by
  cases s with
  | blockDelta i delta =>
    cases delta with
    | arguments text => cases hs; rfl
    | _ => cases hs
  | _ => cases hs

/-- A signal that neither begins a tool block nor feeds one leaves the call board as it is, unless it stops
a block that has a draft. -/
theorem apply_aside (hbegins : s.begins? = none) (hfragment : s.fragment? = none)
    (hstop : ∀ index, s = .blockStop index → d.calls.get? (.index index) = none) :
    (d.apply s).state.calls = d.calls ∧ toolCalls (d.apply s).events = [] ∧ ((d.apply s).flow = .finish ↔ s.Final) := by
  have hvisible : ∀ text, toolCalls (visible text) = [] := by
    intro text
    unfold visible
    split <;> rfl
  cases s with
  | messageStart id usage => cases usage <;> exact ⟨rfl, rfl, by simp [apply, Signal.Final]⟩
  | blockStart index block =>
    simp only [Signal.begins?] at hbegins
    simp only [apply, startBlock]
    split
    · exact ⟨rfl, rfl, by simp [Step.unread, Signal.Final]⟩
    · exact ⟨rfl, hvisible _, by simp [Signal.Final]⟩
    · next hblock => simp [hblock] at hbegins
    · next text signature _ =>
      dsimp only
      exact ⟨rfl, ReasoningBoard.push_calls _ (reasoningKey index) text, by simp [Signal.Final]⟩
    · exact ⟨rfl, rfl, by simp [Signal.Final]⟩
    · exact ⟨rfl, rfl, by simp [Signal.Final]⟩
  | blockDelta index delta =>
    cases delta with
    | arguments fragment => cases hfragment
    | thinking text =>
      simp only [apply, extendBlock]
      exact ⟨trivial, d.reasoning.push_calls (reasoningKey index) text, by simp [Signal.Final]⟩
    | text text => exact ⟨rfl, hvisible text, by simp [apply, extendBlock, Signal.Final]⟩
    | signature fragment => exact ⟨rfl, rfl, by simp [apply, extendBlock, Signal.Final]⟩
    | unknown => exact ⟨rfl, rfl, by simp [apply, extendBlock, Signal.Final]⟩
  | blockStop index =>
    have hnone : Ordered.has d.calls.drafts (.index index) = false := by
      simpa [Ordered.has, CallBoard.get?] using hstop index rfl
    simp only [apply, stopBlock, hnone, Bool.false_eq_true, if_false]
    exact ⟨trivial, d.reasoning.finish_calls (reasoningKey index) [], by simp [Signal.Final]⟩
  | messageDelta stopReason usage =>
    cases stopReason <;> cases usage <;> exact ⟨rfl, rfl, by simp [apply, Signal.Final]⟩
  | messageStop => exact ⟨rfl, rfl, by simp [apply, Signal.Final]⟩
  | error kind detail => exact ⟨rfl, rfl, by simp [apply, Signal.Final]⟩
  | idle => exact ⟨rfl, rfl, by simp [apply, Signal.Final]⟩

/-- A signal that says that the stream is over says nothing else. -/
theorem apply_of_final (hs : s.Final) (d : Decoder) :
    (d.apply s).events = [] ∧ ∀ index, s ≠ .blockStop index := by
  cases s with
  | messageStop => exact ⟨rfl, nofun⟩
  | messageDelta reason usage =>
    cases reason with
    | none => exact hs.elim
    | some reason => cases usage <;> exact ⟨rfl, nofun⟩
  | _ => exact hs.elim

end Decoder

/-- A signal that stops no open block. -/
theorem Holds.apply_other (h : Holds history d.calls) (ho : Orderly (history ++ [s]))
    (hother : ∀ b ∈ openBlocks history, s ≠ .blockStop b.index) :
    Holds (history ++ [s]) (d.apply s).state.calls ∧ toolCalls (d.apply s).events = [] ∧
      ((d.apply s).flow = .finish ↔ s.Final) := by
  cases hbegins : s.begins? with
  | some b =>
    rw [Decoder.apply_of_begins hbegins]
    refine ⟨h.begin ho hbegins, rfl, ?_⟩
    cases s with
    | blockStart => simp [Signal.Final]
    | _ => cases hbegins
  | none =>
    cases hfragment : s.fragment? with
    | some f =>
      rw [Decoder.apply_of_fragment hfragment]
      refine ⟨h.feed ho hfragment, rfl, ?_⟩
      cases s with
      | blockDelta => simp [Signal.Final]
      | _ => cases hfragment
    | none =>
      have hfollow : follow (openBlocks history) s = openBlocks history := by
        cases s with
        | blockStop index =>
          refine List.filter_eq_self.2 fun b hb => ?_
          simpa using fun heq : b.index = index => hother b hb (heq ▸ rfl)
        | _ => simp [follow, hbegins]
      obtain ⟨hcalls, hsilent, hflow⟩ := d.apply_aside hbegins hfragment fun index hs =>
        h.get?_eq_none fun b hb heq => hother b hb (heq ▸ hs)
      exact ⟨hcalls ▸ h.aside hbegins hfragment hfollow, hsilent, hflow⟩

/-- The stop of an open block. -/
theorem Holds.apply_stop (h : Holds history d.calls) (ho : Orderly history) (hb : b ∈ openBlocks history) :
    let step := d.apply (.blockStop b.index)
    Holds (history ++ [.blockStop b.index]) step.state.calls ∧ step.events = [.toolCall (b.call history)] ∧
      (step.flow = .finish ↔ openBlocks (history ++ [.blockStop b.index]) = []) ∧
      (step.flow = .finish → step.state.closing.reasonText = some Decoder.toolUse) := by
  obtain ⟨c, hcomplete, hholds⟩ := h.stop ho hb
  have hhas : Ordered.has d.calls.drafts (.index b.index) = true := by
    have hget : Ordered.get? d.calls.drafts (.index b.index) = _ := h.get?_of_open hb
    simp [Ordered.has, hget]
  have hempty : c.drafts = [] ↔ openBlocks (history ++ [.blockStop b.index]) = [] := by
    simp only [List.eq_nil_iff_forall_not_mem, hholds.drafts]
    constructor
    · exact fun hnone other hother => hnone _ ⟨other, hother, rfl⟩
    · rintro hnone - ⟨other, hother, rfl⟩
      exact hnone other hother
  simp only [Decoder.apply, Decoder.stopBlock, hhas, if_true, hcomplete, List.isEmpty_iff, hempty]
  split
  · next hnone =>
    refine ⟨hholds, rfl, by simp [hnone], fun _ => ?_⟩
    cases d.closing
    simp [Closing.reasonText, Closing.offer]
  · next hsome => exact ⟨hholds, rfl, by simp [hsome], fun hflow => by cases hflow⟩

/-! ## The end of a stream -/

/-- What ends a stream: the calls of the blocks still open, in the order of their indices, then ends of
reasoning, and then the closing event. -/
def Closes (history : List Signal) (events : List Event) (e : Ending) : Prop :=
  ∃ (blocks : List ToolBlock) (ends : List Event), blocks.Perm (openBlocks history) ∧ blocks.Pairwise (·.index < ·.index) ∧
    (∀ x ∈ ends, x.blockEnd?.isSome) ∧
    events = (blocks.map fun b => .toolCall (b.call history)) ++ ends ++ [.ending e]

theorem Holds.drain {c : CallBoard} (h : Holds history c) (ho : Orderly history) :
    ∃ blocks : List ToolBlock, blocks.Perm (openBlocks history) ∧ blocks.Pairwise (·.index < ·.index) ∧
      c.drain.1 = blocks.map (·.call history) := by
  let blocks := (openBlocks history).mergeSort fun a b => a.index ≤ b.index
  have hperm : blocks.Perm (openBlocks history) := List.mergeSort_perm ..
  have hbegun : ∀ b ∈ blocks, b ∈ begun history := fun b hb => mem_begun_of_open (hperm.mem_iff.1 hb)
  have hnodup : ∀ {α : Type} (key : ToolBlock → α), ((begun history).map key).Nodup → (blocks.map key).Nodup := by
    intro α key hkey
    exact (hperm.map key).nodup_iff.2 (hkey.sublist ((openBlocks_sublist history).map key))
  have hsorted : blocks.Pairwise (·.index < ·.index) := by
    have hle : blocks.Pairwise fun a b => decide (a.index ≤ b.index) = true :=
      List.pairwise_mergeSort (by simp; omega) (by simp; omega) _
    have hne := List.pairwise_map.1 (hnodup (·.index) ho.indices)
    refine (hle.and hne).imp fun ⟨hle, hne⟩ => ?_
    exact Nat.lt_of_le_of_ne (by simpa using hle) hne
  -- both lists are in the order of the keys and have the same entries
  have hdrafts : c.drafts = blocks.map fun b => (.index b.index, b.draft history) := by
    refine Ordered.eq_of_mem_iff h.sorted (List.pairwise_map.2 hsorted) fun p => ?_
    rw [h.drafts, List.mem_map]
    simp [hperm.mem_iff, eq_comm]
  have hcalls : (c.drafts.filterMap fun p => p.2.call? p.1) = blocks.map (·.call history) := by
    rw [hdrafts, List.filterMap_map, ← List.filterMap_eq_map]
    refine List.filterMap_congr fun b hb => ?_
    obtain ⟨hid, hname⟩ := ho.named b (hbegun b hb)
    simp [CallDraft.call?, CallDraft.callId, ToolBlock.draft, ToolBlock.call, CallBoard.nonEmpty_some hid,
      CallBoard.nonEmpty_some hname]
  refine ⟨blocks, hperm, hsorted, ?_⟩
  rw [CallBoard.drain_calls h.sorted, hcalls, CallBoard.firsts_eq_self]
  · rw [List.map_map]
    exact hnodup (·.id) ho.ids
  · intro call hcall hgiven
    obtain ⟨b, hb, rfl⟩ := List.mem_map.1 hcall
    obtain ⟨other, hother, hnot, heq⟩ := h.given _ hgiven
    exact hnot (ho.eq_of_id hother (hbegun b hb) heq ▸ hperm.mem_iff.1 hb)

theorem Holds.closes (h : Holds history d.calls) (ho : Orderly history) (hreading : d.closing.finished = false) :
    ∃ e : Ending, e.reason = d.closing.reasonText ∧ Closes history d.finish.1 e := by
  obtain ⟨blocks, hperm, hsorted, hdrain⟩ := h.drain ho
  refine ⟨{ reason := d.closing.reasonText, usage := d.closing.usage, responseId := d.closing.responseId }, rfl,
    blocks, d.reasoning.flush.1, hperm, hsorted, d.reasoning.flush_ends, ?_⟩
  simp [Decoder.finish, Closing.finish, hreading, hdrain, List.map_map]

end ModelStream.Anthropic
