/-
A call that is announced with both its ids and a name before anything else is said of it. From then on
everything said of it is drafted under its index, whichever identifiers it comes with (`Opened.apply`),
until the call is given out; so both ways to complete it give out the same call
(`Identifiers.placed_of_announced`).
-/
import ModelStream.Proofs.Responses.Alike

namespace ModelStream.Responses.Identifiers

variable {who : Identifiers} {told : List ToolCall} {d : Decoder}

/-- Announces the call with both its ids and a name. -/
def Introduces (who : Identifiers) : Signal → Prop
  | .itemAdded index item => index = who.index ∧ ∃ c ∈ callOf item, who.Finishes c
  | _ => False

/-- Announces the call with less than that. -/
def Abridges (who : Identifiers) : Signal → Prop
  | .itemAdded index item => ∃ c ∈ callOf item, who.Shares (.ofItem (some index) c) ∧ ¬ who.Finishes c
  | _ => False

/-- The call is drafted under its index alone, with its call id and a name, and its item id leads there. -/
structure Opened (who : Identifiers) (d : Decoder) : Prop where
  alone : ∀ p ∈ d.calls.drafts, who.OwnKey p.1 → p.1 = .index who.index
  draft : ∃ draft, d.calls.get? (.index who.index) = some draft ∧ draft.id = some who.callId ∧
    ∃ name ∈ draft.name, name ≠ ""
  entry : Ordered.get? d.indices who.itemId = some who.index

theorem Opened.placed (h : who.Opened d) : who.Placed d where
  alone := h.alone
  known := by
    obtain ⟨draft, hget, hid, -⟩ := h.draft
    intro other hother
    cases hother.symm.trans hget
    rw [hid]
    rfl

/-! ## What is said of others -/

/-- Leaves what is known of the call as it is. -/
structure Spares (who : Identifiers) (d e : Decoder) : Prop where
  drafts : who.ownDrafts e = who.ownDrafts d
  entry : Ordered.get? e.indices who.itemId = Ordered.get? d.indices who.itemId

theorem Spares.of_eq {e : Decoder} (hcalls : e.calls = d.calls) (hindices : e.indices = d.indices) : who.Spares d e :=
  ⟨by rw [ownDrafts, ownDrafts, hcalls], by rw [hindices]⟩

theorem Opened.spared (h : who.Opened d) {e : Decoder} (hspares : who.Spares d e) : who.Opened e where
  alone := by
    intro p hp hkey
    have hmem : p ∈ who.ownDrafts e := List.mem_filter.2 ⟨hp, decide_eq_true hkey⟩
    rw [hspares.drafts] at hmem
    exact h.alone p ((List.mem_filter.1 hmem).1) hkey
  draft := by
    have hkey : who.OwnKey (.index who.index) := rfl
    rw [Tracks.get?_ownDrafts e hkey, hspares.drafts, ← Tracks.get?_ownDrafts d hkey]
    exact h.draft
  entry := hspares.entry.trans h.entry

theorem ownDrafts_update {key : CallKey} (h : ¬ who.OwnKey key) (change : CallDraft → CallDraft) :
    who.ownDrafts { d with calls := d.calls.update key change } = who.ownDrafts d :=
  Ordered.filter_put (p := fun key => decide (who.OwnKey key)) (decide_eq_false h) _ _

theorem completeCall_indices (d : Decoder) (key : CallKey) (c : CallItem) :
    (d.completeCall key c).2.indices = d.indices := by
  unfold Decoder.completeCall
  split
  · rfl
  · split <;> rfl

theorem spares_completeCall {key : CallKey} (h : ¬ who.OwnKey key) (d : Decoder) (c : CallItem) :
    who.Spares d (d.completeCall key c).2 :=
  ⟨ownDrafts_completeCall h d c, by rw [completeCall_indices]⟩

/-- A signal that has no identifier of the call. -/
theorem Tracks.spares (k : who.Tracks told d) (raw : Json) {signal : Signal}
    (hothers : ∀ t ∈ signal.targets, ¬ who.Shares t) : who.Spares d (d.apply raw signal).state := by
  have hagree : ∀ t ∈ signal.targets, who.Agrees t := fun t ht hshares => (hothers t ht hshares).elim
  have apart : signal.Apart → who.Spares d (d.apply raw signal).state := fun hapart =>
    have hquiet := (d.apply_quiet raw hapart).1
    .of_eq hquiet.calls hquiet.indices
  cases signal with
  | itemAdded n item =>
    cases hitem : callOf item with
    | none => exact apart hitem
    | some c =>
      have hother := hothers (.ofItem (some n) c) (by simp [Signal.targets, hitem])
      have hn : ¬ who.OwnKey (.index n) := fun hn => hother (.inl (congrArg some hn))
      show who.Spares d (d.announce n item)
      unfold Decoder.announce
      simp only [callOf_eq_some.1 hitem]
      split
      · exact .of_eq rfl rfl
      · refine ⟨ownDrafts_update hn _, ?_⟩
        cases hid : c.id with
        | none => rfl
        | some id =>
          have hne : who.itemId ≠ id := by
            rintro rfl
            exact hother (.inr ⟨_, CallItem.carries_iff.1 (.inl hid), .inl rfl⟩)
          exact Ordered.get?_put_of_ne hne _ _
  | itemDone n item =>
    cases hitem : callOf item with
    | none => exact apart hitem
    | some c =>
      have hother := hothers (.ofItem (some n) c) (by simp [Signal.targets, hitem])
      have hn : ¬ who.OwnKey (.index n) := fun hn => hother (.inl (congrArg some hn))
      rw [(Decoder.apply_completion (d.completion_itemDone n hitem) raw).2]
      exact spares_completeCall hn d c
  | argumentsDelta t fragment =>
    have ht := List.mem_singleton_self t
    have hkey : ¬ who.OwnKey (d.callKey t) := fun hkey => hothers t ht ((k.callKey_iff (hagree t ht)).1 hkey)
    exact ⟨ownDrafts_update hkey _, rfl⟩
  | argumentsDone t arguments =>
    have ht := List.mem_singleton_self t
    have hkey : ¬ who.OwnKey (d.callKey t) := fun hkey => hothers t ht ((k.callKey_iff (hagree t ht)).1 hkey)
    exact spares_completeCall hkey d _
  | ended outcome response =>
    obtain ⟨-, hcalls, hindices, -⟩ := d.close_calls outcome response
    exact .of_eq hcalls hindices
  | started | textDelta | note | reasoningDelta | error | idle =>
    refine apart ?_
    trivial

/-! ## What is said of the call -/

/-- An announcement with both ids and a name opens a call that is drafted nowhere else. -/
theorem Opened.announce (halone : ∀ p ∈ d.calls.drafts, who.OwnKey p.1 → p.1 = .index who.index)
    (hnew : ∀ id ∈ d.calls.given, ¬ who.Own id) {item : Json} {c : CallItem} (hitem : callOf item = some c)
    (hc : who.Finishes c) : who.Opened (d.announce who.index item) := by
  have hgiven := not_given (fun _ => hc.carries_iff.1) hnew
  rw [hc.id, hc.callId] at hgiven
  simp only [Decoder.announce, callOf_eq_some.1 hitem, hc.id, hc.callId, hgiven]
  refine ⟨fun p hp hkey => ?_, ⟨_, CallBoard.get?_update_self .., rfl, hc.named⟩, Ordered.get?_put_self ..⟩
  rcases Ordered.mem_of_mem_put hp with rfl | hp
  · rfl
  · exact halone p hp hkey

/-- Everything about an open call leads to its index. -/
theorem Opened.callKey (h : who.Opened d) (k : who.Tracks told d) {t : Target} (ht : who.Agrees t)
    (hshares : who.Shares t) : d.callKey t = .index who.index := by
  have hown : who.OwnKey (d.callKey t) := (k.callKey_iff ht).2 hshares
  have hfits := ht hshares
  obtain ⟨draft, hget, hid, -⟩ := h.draft
  -- the index says so itself, the item id is in the table, and the call id is that of the draft
  cases hindex : t.index with
  | some n => simp [Decoder.callKey, hindex, hfits.index n hindex]
  | none =>
    cases hitem : t.itemId with
    | some id =>
      have hentry : Ordered.get? d.indices id = some who.index := by rw [hfits.itemId id hitem, h.entry]
      simp [Decoder.callKey, hindex, hitem, hentry]
    | none =>
      cases hcall : t.callId with
      | some id =>
        have hdraft : draft.id = some id := by rw [hid, hfits.callId id hcall]
        obtain ⟨key, hkey⟩ := Option.isSome_iff_exists.1 (CallBoard.find?_isSome hget hdraft)
        have hsearch : d.callKey t = key := by simp [Decoder.callKey, hindex, hitem, hcall, hkey]
        obtain ⟨other, hother⟩ := Option.isSome_iff_exists.1 (CallBoard.get?_of_find? hkey)
        rw [hsearch] at hown ⊢
        exact h.alone _ (Ordered.mem_of_get? hother) hown
      | none => simp [Shares, Target.ids, hindex, hitem, hcall] at hshares

/-- A piece of arguments goes to the draft of an open call. -/
theorem Opened.update (h : who.Opened d) {change : CallDraft → CallDraft}
    (hid : ∀ draft, draft.id = some who.callId → (change draft).id = some who.callId)
    (hname : ∀ draft, (change draft).name = draft.name) :
    who.Opened { d with calls := d.calls.update (.index who.index) change } where
  alone := by
    intro p hp hkey
    rcases Ordered.mem_of_mem_put hp with rfl | hp
    · rfl
    · exact h.alone p hp hkey
  draft := by
    obtain ⟨draft, hget, hdraft, hnamed⟩ := h.draft
    refine ⟨change draft, ?_, hid draft hdraft, by rwa [hname]⟩
    rw [CallBoard.get?_update_self, hget, Option.getD_some]
  entry := h.entry

/-- A completion of an open call gives the call out. -/
theorem Opened.completes (h : who.Opened d) (k : who.Tracks told d) {c : CallItem}
    (hc : ∀ id, c.Carries id → who.Own id) (hnew : ∀ id ∈ d.calls.given, ¬ who.Own id) :
    ∃ call ∈ toolCalls (d.completeCall (.index who.index) c).1, who.Own call.id := by
  obtain ⟨draft, hget, hid, name, hname, hfull⟩ := h.draft
  have hfill : (d.calls.update (.index who.index) c.fill).get? (.index who.index) = some (c.fill draft) := by
    rw [CallBoard.get?_update_self, hget, Option.getD_some]
  have hfilled : ∃ own, who.Own own ∧ (c.fill draft).id = some own := by
    simp only [CallItem.fill, hid]
    split
    · next hreplaced =>
      obtain ⟨own, hcall⟩ : ∃ own, c.callId = some own := by
        simpa [Option.isSome_iff_exists] using (by simpa using hreplaced : c.callId.isSome ∧ _).1
      exact ⟨own, hc own (.inr hcall), by simp [hcall]⟩
    · exact ⟨who.callId, .inr rfl, rfl⟩
  obtain ⟨own, hown, hownId⟩ := hfilled
  have hcallId : (c.fill draft).callId (.index who.index) = own := by
    rw [CallDraft.callId, hownId, CallBoard.nonEmpty_some (k.full own hown), Option.getD_some]
  have hnamed : nonEmpty (c.fill draft).name = some name := by
    have hkept : (c.fill draft).name = some name := by simp [CallItem.fill, Option.mem_def.1 hname]
    rw [hkept, CallBoard.nonEmpty_some hfull]
  have hcomplete := CallBoard.complete_of_get? hfill (hcallId ▸ fun hmem => hnew own hmem hown) hnamed
  have hevents : toolCalls (d.completeCall (.index who.index) c).1 =
      [{ id := own, name, arguments := parseArguments (c.fill draft).arguments
         rawArguments := (c.fill draft).arguments }] := by
    simp [Decoder.completeCall, not_given hc hnew, hcomplete, hcallId, toolCalls_cons, Event.call?]
  rw [hevents]
  exact ⟨_, List.mem_singleton_self _, hown⟩

/-- What an open call keeps until it is given out, if it is not announced anew with less. -/
theorem Opened.apply (h : who.Opened d) (k : who.Tracks told d) (raw : Json) {signal : Signal}
    (hagree : ∀ t ∈ signal.targets, who.Agrees t) (hwhole : ¬ who.Abridges signal)
    (hnew : ∀ call ∈ told ++ toolCalls (d.apply raw signal).events, ¬ who.Own call.id) :
    who.Opened (d.apply raw signal).state := by
  have hfresh := k.fresh fun call hcall => hnew call (List.mem_append_left _ hcall)
  -- a completion of the call would have given it out
  have given : ∀ {c : CallItem}, d.completion signal = some (.index who.index, c) →
      (∀ id, c.Carries id → who.Own id) → False := by
    intro c hcompletion hc
    obtain ⟨call, hmem, hown⟩ := h.completes k hc hfresh
    rw [← (Decoder.apply_completion hcompletion raw).1] at hmem
    exact hnew call (List.mem_append_right _ hmem) hown
  by_cases hshares : ∃ t ∈ signal.targets, who.Shares t
  · obtain ⟨t, ht, hshares⟩ := hshares
    have hfits := hagree t ht hshares
    cases signal with
    | itemAdded n item =>
      obtain ⟨c, hitem, rfl⟩ := List.mem_map.1 ht
      have hitem : callOf item = some c := Option.mem_toList.1 hitem
      have hc : who.Finishes c := Classical.byContradiction fun hnot => hwhole ⟨c, hitem, hshares, hnot⟩
      have hn : n = who.index := hfits.index n rfl
      subst hn
      exact Opened.announce h.alone hfresh hitem hc
    | itemDone n item =>
      obtain ⟨c, hitem, rfl⟩ := List.mem_map.1 ht
      have hitem : callOf item = some c := Option.mem_toList.1 hitem
      have hn : n = who.index := hfits.index n rfl
      subst hn
      exact (given (d.completion_itemDone who.index hitem) fun id hid => hfits.own (CallItem.carries_iff.1 hid)).elim
    | argumentsDelta other fragment =>
      cases List.mem_singleton.1 ht
      show who.Opened { d with calls := _ }
      rw [h.callKey k (hagree t ht) hshares]
      exact h.update (fun draft hid => by simp [hid]) fun _ => rfl
    | argumentsDone other arguments =>
      cases List.mem_singleton.1 ht
      let c : CallItem :=
        { id := t.itemId, callId := t.callId, name := arguments.name, arguments := arguments.text.getD "" }
      have hcompletion : d.completion (.argumentsDone t arguments) = some (.index who.index, c) := by
        rw [Decoder.completion, h.callKey k (hagree t ht) hshares]
      exact (given hcompletion fun id hid => hfits.own (CallItem.carries_iff.1 hid)).elim
    | ended outcome response =>
      obtain ⟨-, hcalls, hindices, -⟩ := d.close_calls outcome response
      exact h.spared (.of_eq hcalls hindices)
    | _ => cases ht
  · exact h.spared (k.spares raw fun t ht hs => hshares ⟨t, ht, hs⟩)

/-! ## A whole stream -/

theorem not_unnamed {signal : Signal} (h : ¬ who.Abridges signal) : ¬ who.Unnamed signal := by
  cases signal with
  | itemAdded index item =>
    rintro ⟨c, hitem, hshares, hempty⟩
    refine h ⟨c, hitem, hshares, fun hc => ?_⟩
    obtain ⟨name, hname, hfull⟩ := hc.named
    exact hfull (Option.some.inj (hname.symm.trans hempty))
  | _ => exact id

/-- What has no identifier of the call agrees with it, and is no announcement of it. -/
theorem of_not_shares {signal : Signal} (h : ∀ t ∈ signal.targets, ¬ who.Shares t) :
    (∀ t ∈ signal.targets, who.Agrees t) ∧ ¬ who.Abridges signal := by
  refine ⟨fun t ht hshares => (h t ht hshares).elim, ?_⟩
  cases signal with
  | itemAdded index item =>
    rintro ⟨c, hitem, hshares, -⟩
    exact h _ (List.mem_map.2 ⟨c, Option.mem_toList.2 hitem, rfl⟩) hshares
  | _ => exact id

theorem Spares.trans {e f : Decoder} (h : who.Spares d e) (k : who.Spares e f) : who.Spares d f :=
  ⟨k.drafts.trans h.drafts, k.entry.trans h.entry⟩

theorem Tracks.step_spares (k : who.Tracks told d) {payload : String}
    (hothers : ∀ read ∈ (Signal.ofText payload).toOption, ∀ t ∈ read.2.targets, ¬ who.Shares t) :
    who.Spares d (d.step payload).state := by
  unfold Decoder.step
  cases hread : Signal.ofText payload with
  | error problem => exact .of_eq rfl rfl
  | ok read => exact k.spares read.1 (hothers read (by rw [hread]; rfl))

/-- Payloads that have no identifier of the call. -/
theorem Tracks.run_spares (payloads : List String) (k : who.Tracks told d)
    (hothers : ∀ payload ∈ payloads, ∀ read ∈ (Signal.ofText payload).toOption, ∀ t ∈ read.2.targets, ¬ who.Shares t) :
    who.Spares d (d.readAll payloads) := by
  induction payloads generalizing told d with
  | nil => exact .of_eq rfl rfl
  | cons payload payloads ih =>
    obtain ⟨hfirst, hothers⟩ := List.forall_mem_cons.1 hothers
    have hstep := k.step (fun read hread => (of_not_shares (hfirst read hread)).1)
      fun read hread => not_unnamed (of_not_shares (hfirst read hread)).2
    exact (k.step_spares hfirst).trans (ih hstep hothers)

theorem Opened.step (h : who.Opened d) (k : who.Tracks told d) {payload : String}
    (hagree : ∀ read ∈ (Signal.ofText payload).toOption, ∀ t ∈ read.2.targets, who.Agrees t)
    (hwhole : ∀ read ∈ (Signal.ofText payload).toOption, ¬ who.Abridges read.2)
    (hnew : ∀ call ∈ told ++ toolCalls (d.step payload).events, ¬ who.Own call.id) :
    who.Opened (d.step payload).state := by
  unfold Decoder.step at *
  cases hread : Signal.ofText payload with
  | error problem => exact h
  | ok read =>
    rw [hread] at hagree hwhole hnew
    exact h.apply k read.1 (hagree read rfl) (hwhole read rfl) hnew

theorem Opened.run (payloads : List String) (h : who.Opened d) (k : who.Tracks told d)
    (hagree : ∀ payload ∈ payloads, ∀ read ∈ (Signal.ofText payload).toOption, ∀ t ∈ read.2.targets, who.Agrees t)
    (hwhole : ∀ payload ∈ payloads, ∀ read ∈ (Signal.ofText payload).toOption, ¬ who.Abridges read.2)
    (hnew : ∀ call ∈ told ++ toolCalls ((ModelStream.Decoder.responses d).drive (payloads.map .payload)).1,
      ¬ who.Own call.id) :
    who.Opened (d.readAll payloads) := by
  induction payloads generalizing told d with
  | nil => exact h
  | cons payload payloads ih =>
    rw [List.map_cons, Decoder.drive_payload, ← List.append_assoc] at hnew
    obtain ⟨hagreeFirst, hagree⟩ := List.forall_mem_cons.1 hagree
    obtain ⟨hwholeFirst, hwhole⟩ := List.forall_mem_cons.1 hwhole
    have hstep := h.step k hagreeFirst hwholeFirst fun call hmem => hnew call (List.mem_append_left _ hmem)
    have htracks := k.step hagreeFirst fun read hread => not_unnamed (hwholeFirst read hread)
    exact ih hstep htracks hagree hwhole hnew

/-- A call that is announced with both its ids and a name before anything else is said of it is drafted under
its index with an id, whatever is said of it afterwards and under whichever identifiers, as long as it is not
given out and not announced anew with less. -/
theorem placed_of_announced {before after : List String} {added : String} (hfull : who.itemId ≠ "" ∧ who.callId ≠ "")
    (hbefore : ∀ payload ∈ before, ∀ read ∈ (Signal.ofText payload).toOption, ∀ t ∈ read.2.targets, ¬ who.Shares t)
    (hadded : ∃ read ∈ (Signal.ofText added).toOption, who.Introduces read.2)
    (hagree : ∀ payload ∈ added :: after, ∀ read ∈ (Signal.ofText payload).toOption, ∀ t ∈ read.2.targets, who.Agrees t)
    (hwhole : ∀ payload ∈ added :: after, ∀ read ∈ (Signal.ofText payload).toOption, ¬ who.Abridges read.2)
    (hnew : ∀ call ∈ toolCalls ((ModelStream.Decoder.responses {}).drive
      ((before ++ added :: after).map .payload)).1, ¬ who.Own call.id) :
    who.Placed (({} : Decoder).readAll (before ++ added :: after)) := by
  have hstart : who.Tracks [] {} := .start (own_ne_empty hfull)
  have hfirst := hstart.run before (fun payload hp read hread => (of_not_shares (hbefore payload hp read hread)).1)
    fun payload hp read hread => not_unnamed (of_not_shares (hbefore payload hp read hread)).2
  have hspares := hstart.run_spares before hbefore
  rw [List.map_append, Decoder.drive_append, List.map_cons, Decoder.drive_payload, ← List.append_assoc] at hnew
  rw [Decoder.readAll_append]
  generalize ({} : Decoder).readAll before = d at hfirst hspares hnew ⊢
  obtain ⟨hagreeAdded, hagree⟩ := List.forall_mem_cons.1 hagree
  obtain ⟨hwholeAdded, hwhole⟩ := List.forall_mem_cons.1 hwhole
  have hnext := hfirst.step hagreeAdded fun read hread => not_unnamed (hwholeAdded read hread)
  have hopened : who.Opened (d.step added).state := by
    have halone : ∀ p ∈ d.calls.drafts, who.OwnKey p.1 → p.1 = .index who.index := by
      intro p hp hkey
      have hempty : who.ownDrafts d = [] := hspares.drafts
      have hmem : p ∈ who.ownDrafts d := List.mem_filter.2 ⟨hp, decide_eq_true hkey⟩
      rw [hempty] at hmem
      cases hmem
    have hfresh := hfirst.fresh fun call hcall => hnew call (List.mem_append_left _ (List.mem_append_left _ hcall))
    obtain ⟨⟨raw, signal⟩, hread, hintroduces⟩ := hadded
    simp only [Decoder.step, Signal.ofText_of_mem hread]
    cases signal with
    | itemAdded index item =>
      obtain ⟨rfl, c, hitem, hc⟩ := hintroduces
      exact Opened.announce halone hfresh hitem hc
    | _ => exact hintroduces.elim
  exact (hopened.run after hnext hagree hwhole hnew).placed

end ModelStream.Responses.Identifiers
