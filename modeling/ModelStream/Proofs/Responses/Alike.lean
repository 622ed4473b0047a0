/-
The two ways in which a finished item completes its call. While the stream runs, an item that is done is
merged into the draft under its output index; afterwards, an item of the closing response is merged into
the draft that a search by its ids finds. Which call each way gives out for an item that was not given
out yet is the first part of `Identifiers.completed_alike`. The second part says that it is the same one
if whatever the stream said of the call is drafted under its index, with one of its ids
(`Identifiers.Placed`); what is drafted elsewhere is found by the search and by nothing else
(`Identifiers.completed_apart`).
-/
import Mathlib.Data.List.Find
import ModelStream.Proofs.Ordered
import ModelStream.Proofs.Responses.Rescan

namespace ModelStream

/-- Of elements that differ in some respect, one is like a given one. -/
theorem filter_of_nodup {α β : Type} [DecidableEq β] {f : α → β} {l : List α} (h : (l.map f).Nodup) {a : α}
    (ha : a ∈ l) : (l.filter fun x => f x = f a) = [a] := by
  induction l with
  | nil => cases ha
  | cons first rest ih =>
    obtain ⟨hfirst, hrest⟩ := List.nodup_cons.1 h
    rcases List.mem_cons.1 ha with rfl | ha
    · have hnone : ∀ x ∈ rest, f x ≠ f a := fun x hx heq => hfirst (heq ▸ List.mem_map_of_mem hx)
      simpa using hnone
    · have hne : f first ≠ f a := fun heq => hfirst (heq ▸ List.mem_map_of_mem ha)
      simpa [hne] using ih hrest ha

/-! ## Drafts of a board -/

namespace CallBoard

theorem complete_drafts (b : CallBoard) (key : CallKey) : (b.complete key).2.drafts = Ordered.erase b.drafts key := by
  rcases hcomplete : b.complete key with ⟨_ | call, c⟩
  · rw [complete_none hcomplete]
    rfl
  · obtain ⟨d, -, -, -, -, rfl⟩ := complete_some hcomplete
    rfl

theorem foldl_mark_drafts (ids : List String) (b : CallBoard) : (ids.foldl mark b).drafts = b.drafts := by
  induction ids generalizing b with
  | nil => rfl
  | cons id ids ih => exact ih (b.mark id)

theorem get?_of_find? {b : CallBoard} {id : String} {key : CallKey} (h : b.find? id = some key) :
    (b.get? key).isSome := by
  unfold find? at h
  split at h
  · next hhas =>
    cases h
    exact hhas
  · obtain ⟨p, hp, rfl⟩ := Option.map_eq_some_iff.1 h
    exact Ordered.get?_isSome_of_mem (List.mem_of_find?_eq_some hp)

theorem find?_isSome {b : CallBoard} {key : CallKey} {draft : CallDraft} {id : String}
    (h : b.get? key = some draft) (hid : draft.id = some id) : (b.find? id).isSome := by
  unfold find?
  split
  · rfl
  · rw [Option.isSome_map, List.find?_isSome]
    exact ⟨_, Ordered.mem_of_get? h, by simp [hid]⟩

end CallBoard

namespace Responses

namespace Decoder

theorem completeCall_drafts (d : Decoder) (key : CallKey) (c : CallItem) :
    ∃ drafts, (drafts = d.calls.drafts ∨ drafts = (d.calls.update key c.fill).drafts) ∧
      (d.completeCall key c).2.calls.drafts = Ordered.erase drafts key := by
  unfold completeCall
  split
  · exact ⟨_, .inl rfl, rfl⟩
  · refine ⟨_, .inr rfl, ?_⟩
    rw [← CallBoard.complete_drafts]
    split
    · next call calls hcomplete =>
      rw [hcomplete]
      exact CallBoard.foldl_mark_drafts _ calls
    · next calls hcomplete => rw [hcomplete]

theorem rescanItems_append (items later : List Json) (d : Decoder) (position : Nat) :
    (d.rescanItems position (items ++ later)).1 =
      (d.rescanItems position items).1 ++
        ((d.rescanItems position items).2.rescanItems (position + items.length) later).1 := by
  induction items generalizing d position with
  | nil => rfl
  | cons item items ih =>
    simp only [List.cons_append, rescanItems, ih, List.append_assoc, List.length_cons]
    rw [show position + (items.length + 1) = position + 1 + items.length by omega]

/-- What reading the closing response once more gives out for the items before a position. -/
def rescanBefore (d : Decoder) (position : Nat) : List Event :=
  d.last.elim [] fun response => ((d.reopen response).rescanItems 0 (response.output.take position)).1

theorem rescan_split (d : Decoder) {response : Response} {position : Nat} {item : Json}
    (hlast : d.last = some response) (hget : response.output[position]? = some item) :
    ∃ later, d.rescan.1 = d.rescanBefore position ++
      (((d.reopen response).rescanItems 0 (response.output.take position)).2.rescanItem position item).1 ++ later := by
  obtain ⟨hlt, hget⟩ := List.getElem?_eq_some_iff.1 hget
  have hsplit : response.output = response.output.take position ++ item :: response.output.drop (position + 1) := by
    rw [← hget, List.getElem_cons_drop, List.take_append_drop]
  have hrescan : d.rescan.1 = ((d.reopen response).rescanItems 0 response.output).1 := by
    simp only [rescan, hlast]
  have hlength : 0 + (response.output.take position).length = position := by
    rw [List.length_take]
    omega
  have hitems := (d.reopen response).rescanItems_append (response.output.take position)
    (item :: response.output.drop (position + 1)) 0
  rw [← hsplit, hlength, rescanItems] at hitems
  let before := ((d.reopen response).rescanItems 0 (response.output.take position)).2
  let later := (before.rescanItem position item).2.rescanItems (position + 1) (response.output.drop (position + 1))
  refine ⟨later.1, ?_⟩
  rw [hrescan, hitems, rescanBefore, hlast, Option.elim_some, List.append_assoc]

end Decoder

namespace Identifiers

instance (who : Identifiers) : ∀ key, Decidable (who.OwnKey key)
  | .index n => inferInstanceAs (Decidable (n = who.index))
  | .id id => inferInstanceAs (Decidable (who.Own id))

variable {who : Identifiers}

/-! ## The drafts of the call -/

def ownDrafts (who : Identifiers) (d : Decoder) : List (CallKey × CallDraft) :=
  d.calls.drafts.filter fun p => who.OwnKey p.1

/-- Whatever the stream said of the call is drafted under its index, and the draft has an id. -/
structure Placed (who : Identifiers) (d : Decoder) : Prop where
  alone : ∀ p ∈ d.calls.drafts, who.OwnKey p.1 → p.1 = .index who.index
  known : ∀ draft ∈ d.calls.get? (.index who.index), draft.id.isSome

instance (who : Identifiers) (d : Decoder) : Decidable (who.Placed d) :=
  decidable_of_iff ((∀ p ∈ d.calls.drafts, who.OwnKey p.1 → p.1 = .index who.index) ∧
    ∀ draft ∈ d.calls.get? (.index who.index), draft.id.isSome) ⟨fun ⟨ha, hk⟩ => ⟨ha, hk⟩, fun h => ⟨h.alone, h.known⟩⟩

theorem ownDrafts_completeCall {key : CallKey} (h : ¬ who.OwnKey key) (d : Decoder) (c : CallItem) :
    who.ownDrafts (d.completeCall key c).2 = who.ownDrafts d := by
  have hother : decide (who.OwnKey key) = false := decide_eq_false h
  obtain ⟨drafts, hdrafts, herased⟩ := d.completeCall_drafts key c
  unfold ownDrafts
  rw [herased, Ordered.filter_erase (p := fun key => decide (who.OwnKey key)) hother]
  rcases hdrafts with rfl | rfl
  · rfl
  · exact Ordered.filter_put (p := fun key => decide (who.OwnKey key)) hother _ _

/-- The search for an item of the call goes by its call id, or else by its item id. -/
theorem Finishes.foundKey_eq {c : CallItem} (h : who.Finishes c) (d : Decoder) :
    d.foundKey c who.callId = (d.calls.find? who.callId <|> d.calls.find? who.itemId).getD (.id who.callId) := by
  rw [Decoder.foundKey, h.id, h.callId]
  cases hcall : d.calls.find? who.callId <;> cases hitem : d.calls.find? who.itemId <;>
    simp [List.findSome?, hcall, hitem]

namespace Tracks

variable {told : List ToolCall} {d : Decoder}

theorem get?_ownDrafts (d : Decoder) {key : CallKey} (h : who.OwnKey key) :
    d.calls.get? key = Ordered.get? (who.ownDrafts d) key :=
  (Ordered.get?_filter (p := fun key => decide (who.OwnKey key)) (decide_eq_true h) _).symm

/-- A search for an id of the call goes through the drafts of the call alone. -/
theorem find?_ownDrafts (h : who.Tracks told d) {id : String} (hid : who.Own id) :
    d.calls.find? id = ({ drafts := who.ownDrafts d } : CallBoard).find? id := by
  have hkey : who.OwnKey (.id id) := hid
  have hown : (who.ownDrafts d).find? (·.2.id == some id) = d.calls.drafts.find? (·.2.id == some id) := by
    rw [ownDrafts, List.find?_filter]
    refine List.find?_congr fun p hp => ?_
    -- a draft with the id has a key of the call
    by_cases hdraft : p.2.id = some id
    · simp [hdraft, ((h.drafts p hp).id id hdraft).1 hid]
    · simp [hdraft]
  simp only [CallBoard.find?, Ordered.has, hown]
  rw [← get?_ownDrafts d hkey]
  rfl

/-- An item that has no id of the call leaves its drafts alone. -/
theorem rescanItem_other (h : who.Tracks told d) (position : Nat) {item : Json}
    (hother : ∀ c ∈ callOf item, ∀ id, c.Carries id → ¬ who.Own id) :
    who.Tracks (told ++ toolCalls (d.rescanItem position item).1) (d.rescanItem position item).2 ∧
      who.ownDrafts (d.rescanItem position item).2 = who.ownDrafts d := by
  have hagree : ∀ c ∈ callOf item, who.Agrees (.ofItem none c) := by
    rintro c hc (hindex | ⟨id, hmem, hown⟩)
    · cases hindex
    · exact (hother c hc id (CallItem.carries_iff.2 hmem) hown).elim
  refine ⟨h.rescanItem position hagree, ?_⟩
  cases hitem : callOf item with
  | none => rw [ownDrafts, (d.rescanItem_quiet position hitem).calls, ownDrafts]
  | some c =>
    unfold Decoder.rescanItem
    simp only [callOf_eq_some.1 hitem]
    split
    · rfl
    · cases hprimary : c.callId <|> c.id with
      | none => rfl
      | some primary =>
        have hcarries := CallItem.carries_of_primary hprimary
        refine ownDrafts_completeCall (fun hkey => ?_) d c
        exact hother c hitem primary hcarries ((h.own_iff_foundKey (hagree c hitem) hprimary hcarries).2 hkey)

theorem rescanItems_others (items : List Json) (h : who.Tracks told d) (position : Nat)
    (hothers : ∀ item ∈ items, ∀ c ∈ callOf item, ∀ id, c.Carries id → ¬ who.Own id) :
    who.Tracks (told ++ toolCalls (d.rescanItems position items).1) (d.rescanItems position items).2 ∧
      who.ownDrafts (d.rescanItems position items).2 = who.ownDrafts d := by
  induction items generalizing told d position with
  | nil => exact ⟨by simpa [Decoder.rescanItems] using h, rfl⟩
  | cons item items ih =>
    obtain ⟨hfirst, hdrafts⟩ := h.rescanItem_other position (hothers item (List.mem_cons_self ..))
    obtain ⟨hrest, hsame⟩ := ih hfirst (position + 1) fun other hother => hothers other (List.mem_cons_of_mem _ hother)
    unfold Decoder.rescanItems
    simp only [toolCalls_append, ← List.append_assoc]
    exact ⟨hrest, hsame.trans hdrafts⟩

/-- The draft that the search for an item of the call finds depends on the drafts of the call alone. -/
theorem found_congr (h : who.Tracks told d) {told' : List ToolCall} {e : Decoder} (k : who.Tracks told' e)
    (hdrafts : who.ownDrafts e = who.ownDrafts d) {c : CallItem} (hc : who.Finishes c) :
    e.draftAt (e.foundKey c who.callId) = d.draftAt (d.foundKey c who.callId) := by
  have hfind : ∀ id, who.Own id → e.calls.find? id = d.calls.find? id := by
    intro id hid
    rw [k.find?_ownDrafts hid, h.find?_ownDrafts hid, hdrafts]
  have hkey : e.foundKey c who.callId = d.foundKey c who.callId := by
    rw [hc.foundKey_eq, hc.foundKey_eq, hfind _ (.inl rfl), hfind _ (.inr rfl)]
  rw [hkey, Decoder.draftAt, Decoder.draftAt, get?_ownDrafts e (h.ownKey_foundKey hc),
    get?_ownDrafts d (h.ownKey_foundKey hc), hdrafts]

/-- A draft under the index of the call that has an id is not missed by the search. -/
theorem found_of_known (h : who.Tracks told d) {draft : CallDraft} (hindex : d.calls.get? (.index who.index) = some draft)
    (hknown : draft.id.isSome) {c : CallItem} (hc : who.Finishes c) : (d.calls.get? (d.foundKey c who.callId)).isSome := by
  obtain ⟨id, hid⟩ := Option.isSome_iff_exists.1 hknown
  have hids : who.Own id := ((h.drafts _ (Ordered.mem_of_get? hindex)).id id hid).2 rfl
  have hsome := CallBoard.find?_isSome hindex hid
  rw [hc.foundKey_eq]
  cases hcall : d.calls.find? who.callId with
  | some key => exact CallBoard.get?_of_find? hcall
  | none =>
    rcases hids with rfl | rfl
    · obtain ⟨key, hkey⟩ := Option.isSome_iff_exists.1 hsome
      rw [hkey]
      exact CallBoard.get?_of_find? hkey
    · rw [hcall] at hsome
      cases hsome

/-- If the call is drafted under its index alone, the search leads there, or to nothing as the index does. -/
theorem found_of_placed (h : who.Tracks told d) (hplaced : who.Placed d) {c : CallItem} (hc : who.Finishes c) :
    d.draftAt (d.foundKey c who.callId) = d.draftAt (.index who.index) := by
  cases hthere : d.calls.get? (d.foundKey c who.callId) with
  | some draft => exact congrArg d.draftAt (hplaced.alone _ (Ordered.mem_of_get? hthere) (h.ownKey_foundKey hc))
  | none =>
    have hnone : d.calls.get? (.index who.index) = none := by
      rw [Option.eq_none_iff_forall_ne_some]
      intro draft hdraft
      have hsome := h.found_of_known hdraft (hplaced.known draft hdraft) hc
      rw [hthere] at hsome
      cases hsome
    rw [Decoder.draftAt, Decoder.draftAt, hthere, hnone]

end Tracks

/-! ## Both ways -/

/-- Says that this item, which stands at the index of the call, is done. -/
def Done (who : Identifiers) (c : CallItem) : Signal → Prop
  | .itemDone index item => index = who.index ∧ callOf item = some c
  | _ => False

/-- Ends the stream with a response that has this item at the index of the call, and no other item with an
identifier of the call. -/
def Lists (who : Identifiers) (c : CallItem) : Signal → Prop
  | .ended _ response => response.output[who.index]?.bind callOf = some c ∧
      ∀ p ∈ response.output.zipIdx, ∀ other ∈ callOf p.1, who.Agrees (.ofItem (some p.2) other)
  | _ => False

instance (who : Identifiers) (c : CallItem) : ∀ signal, Decidable (who.Done c signal)
  | .itemDone .. => inferInstanceAs (Decidable (_ ∧ _))
  | .started _ | .itemAdded .. | .textDelta _ | .note | .argumentsDelta .. | .argumentsDone ..
  | .reasoningDelta .. | .ended .. | .error .. | .idle => isFalse id

instance (who : Identifiers) (c : CallItem) : ∀ signal, Decidable (who.Lists c signal)
  | .ended .. => inferInstanceAs (Decidable (_ ∧ _))
  | .started _ | .itemAdded .. | .itemDone .. | .textDelta _ | .note | .argumentsDelta .. | .argumentsDone ..
  | .reasoningDelta .. | .error .. | .idle => isFalse id

/-- Items before the one at the index of the call have no id of the call. -/
theorem Lists.others {c : CallItem} {outcome : Outcome} {response : Response}
    (h : who.Lists c (.ended outcome response)) :
    ∀ item ∈ response.output.take who.index, ∀ other ∈ callOf item, ∀ id, other.Carries id → ¬ who.Own id := by
  intro item hitem other hother id hid hown
  obtain ⟨m, hm, hget⟩ := List.mem_take_iff_getElem.1 hitem
  have hmem : (item, m) ∈ response.output.zipIdx := by
    rw [List.mk_mem_zipIdx_iff_getElem?, List.getElem?_eq_some_iff]
    exact ⟨by omega, hget⟩
  have hshares : who.Shares (.ofItem (some m) other) := .inr ⟨id, CallItem.carries_iff.1 hid, hown⟩
  have hindex : m = who.index := (h.2 _ hmem other hother hshares).index m rfl
  omega

namespace Tracks

variable {told : List ToolCall} {d : Decoder} {c : CallItem}

/-- An item that is done gives out the call that it makes of the draft under its index. -/
theorem step_done (h : who.Tracks told d) (hc : who.Finishes c) {done : String}
    (hdone : ∃ read ∈ (Signal.ofText done).toOption, who.Done c read.2) (hnew : ∀ call ∈ told, ¬ who.Own call.id) :
    toolCalls (d.step done).events = [who.finished c (d.draftAt (.index who.index))] := by
  have hkey : who.OwnKey (.index who.index) := rfl
  obtain ⟨⟨raw, signal⟩, hread, hsignal⟩ := hdone
  cases signal with
  | itemDone index item =>
    obtain ⟨rfl, hitem⟩ := hsignal
    have hevents : (d.step done).events = (d.completeCall (.index who.index) c).1 := by
      simp only [Decoder.step, Signal.ofText_of_mem hread]
      exact (Decoder.apply_completion (d.completion_itemDone who.index hitem) raw).1
    rw [hevents, h.completeCall_own hc hkey (h.fresh hnew)]
    rfl
  | _ => exact hsignal.elim

/-- Reading the closing response once more gives out, for the item at the index of the call, the call that
the item makes of the draft that is found. -/
theorem rescan (h : who.Tracks told d) (hc : who.Finishes c) {outcome : Outcome} {response : Response}
    (hlists : who.Lists c (.ended outcome response)) (hlast : d.last = some response)
    (hnew : ∀ call ∈ told ++ toolCalls (d.rescanBefore who.index), ¬ who.Own call.id) :
    (toolCalls d.rescan.1).filter (·.id = who.callId) =
      [who.finished c (d.draftAt (d.foundKey c who.callId))] := by
  obtain ⟨item, hget, hitem⟩ := Option.bind_eq_some_iff.1 hlists.1
  obtain ⟨later, hrescan⟩ := d.rescan_split hlast hget
  have hreopen : who.Tracks told (d.reopen response) := h.of_eq rfl rfl
  obtain ⟨htracks, hdrafts⟩ := hreopen.rescanItems_others (response.output.take who.index) 0 hlists.others
  rw [Decoder.rescanBefore, hlast, Option.elim_some] at hnew
  rw [htracks.rescanItem_finished who.index hitem hc (htracks.fresh hnew), h.found_congr htracks hdrafts hc] at hrescan
  have hdistinct : ((toolCalls d.rescan.1).map (·.id)).Nodup := d.rescan_moves.gives.distinct
  refine filter_of_nodup hdistinct (a := who.finished c (d.draftAt (d.foundKey c who.callId))) ?_
  rw [hrescan, toolCalls_append, toolCalls_append]
  exact List.mem_append_left _ (List.mem_append_right _ (List.mem_singleton_self _))

theorem step_last (h : who.Tracks told d) (hc : who.Finishes c) {last : String}
    (hlast : ∃ read ∈ (Signal.ofText last).toOption, who.Lists c read.2)
    (hnew : ∀ call ∈ told ++ toolCalls ((d.step last).state.rescanBefore who.index), ¬ who.Own call.id) :
    (toolCalls (d.step last).state.rescan.1).filter (·.id = who.callId) =
      [who.finished c (d.draftAt (d.foundKey c who.callId))] := by
  obtain ⟨⟨raw, signal⟩, hread, hsignal⟩ := hlast
  cases signal with
  | ended outcome response =>
    obtain ⟨-, hcalls, hindices, hkept⟩ := d.close_calls outcome response
    have hstate : (d.step last).state = (d.close outcome response).2 := by
      simp only [Decoder.step, Signal.ofText_of_mem hread]
      rfl
    rw [hstate] at hnew ⊢
    have hclosed : who.Tracks told (d.close outcome response).2 := h.of_eq hcalls hindices
    exact hclosed.rescan hc hsignal hkept hnew
  | _ => exact hsignal.elim

end Tracks

/-- Which call is given out for an item of which nothing was given out before: when it is done, the call
that it makes of the draft under its index; when the closing response is read once more, the call that it
makes of the draft that a search by its ids finds. If what the stream said of the call is drafted under its
index with an id, that is the same call. -/
theorem completed_alike {c : CallItem} {payloads : List String} {done last : String} (hc : who.Finishes c)
    (hagree : ∀ payload ∈ payloads, ∀ read ∈ (Signal.ofText payload).toOption, ∀ t ∈ read.2.targets, who.Agrees t)
    (hnamed : ∀ payload ∈ payloads, ∀ read ∈ (Signal.ofText payload).toOption, ¬ who.Unnamed read.2)
    (hdone : ∃ read ∈ (Signal.ofText done).toOption, who.Done c read.2)
    (hlast : ∃ read ∈ (Signal.ofText last).toOption, who.Lists c read.2)
    (hnew : ∀ call ∈ toolCalls ((ModelStream.Decoder.responses {}).drive (payloads.map .payload)).1 ++
      toolCalls (((({} : Decoder).readAll payloads).step last).state.rescanBefore who.index), ¬ who.Own call.id) :
    let d := ({} : Decoder).readAll payloads
    let live := toolCalls (d.step done).events
    let found := (toolCalls (d.step last).state.rescan.1).filter (·.id = who.callId)
    live = [who.finished c (d.draftAt (.index who.index))] ∧
      found = [who.finished c (d.draftAt (d.foundKey c who.callId))] ∧
      (who.Placed d → live = found) := by
  intro d live found
  have htracks : who.Tracks (toolCalls ((ModelStream.Decoder.responses {}).drive (payloads.map .payload)).1) d :=
    (Tracks.start (own_ne_empty hc.full)).run payloads hagree hnamed
  have hlive : live = [who.finished c (d.draftAt (.index who.index))] :=
    htracks.step_done hc hdone fun call hcall => hnew call (List.mem_append_left _ hcall)
  have hfound : found = [who.finished c (d.draftAt (d.foundKey c who.callId))] := htracks.step_last hc hlast hnew
  refine ⟨hlive, hfound, fun hplaced => ?_⟩
  rw [hlive, hfound, htracks.found_of_placed hplaced hc]

/-- An announced call whose arguments come under its item id, and another call before it. -/
theorem completed_alike_announced :
    let who : Identifiers := { index := 1, itemId := "fc", callId := "call" }
    let c : CallItem := { id := some "fc", callId := some "call", name := some "f" }
    let payloads : List String :=
      [ "\x7b\"type\":\"response.output_item.added\",\"output_index\":1,\"item\":
          \x7b\"type\":\"function_call\",\"id\":\"fc\",\"call_id\":\"call\"\x7d\x7d",
        "\x7b\"type\":\"response.function_call_arguments.delta\",\"item_id\":\"fc\",\"delta\":\"[]\"\x7d" ]
    let done := "\x7b\"type\":\"response.output_item.done\",\"output_index\":1,\"item\":
      \x7b\"type\":\"function_call\",\"id\":\"fc\",\"call_id\":\"call\",\"name\":\"f\"\x7d\x7d"
    let last := "\x7b\"type\":\"response.completed\",\"response\":\x7b\"output\":
      [\x7b\"type\":\"function_call\",\"id\":\"other\",\"name\":\"g\"\x7d,
      \x7b\"type\":\"function_call\",\"id\":\"fc\",\"call_id\":\"call\",\"name\":\"f\"\x7d]\x7d\x7d"
    let d := ({} : Decoder).readAll payloads
    let live := toolCalls (d.step done).events
    let found := (toolCalls (d.step last).state.rescan.1).filter (·.id = "call")
    who.Finishes c ∧ who.Placed d ∧ live.map (·.rawArguments) = ["[]"] ∧ live = found := by
  intro who c payloads done last d live found
  have hc : who.Finishes c := ⟨rfl, rfl, ⟨"f", rfl, by decide⟩, by decide⟩
  have hstream : (∀ payload ∈ payloads, ∀ read ∈ (Signal.ofText payload).toOption,
        (∀ t ∈ read.2.targets, who.Agrees t) ∧ ¬ who.Unnamed read.2) ∧
      (∃ read ∈ (Signal.ofText done).toOption, who.Done c read.2) ∧
      (∃ read ∈ (Signal.ofText last).toOption, who.Lists c read.2) ∧
      (∀ call ∈ toolCalls ((ModelStream.Decoder.responses {}).drive (payloads.map .payload)).1 ++
        toolCalls ((d.step last).state.rescanBefore who.index), ¬ who.Own call.id) ∧
      who.Placed d ∧ live.map (·.rawArguments) = ["[]"] := by
    decide +kernel
  obtain ⟨hpayloads, hdone, hlast, hnew, hplaced, hlive⟩ := hstream
  obtain ⟨-, -, hsame⟩ := completed_alike hc (fun payload hp read hr => (hpayloads payload hp read hr).1)
    (fun payload hp read hr => (hpayloads payload hp read hr).2) hdone hlast hnew
  exact ⟨hc, hplaced, hlive, hsame hplaced⟩

/-- Arguments that come under the item id of a call that was not announced are drafted under that id: they
are lost when the item is done, and found when the closing response is read once more. -/
theorem completed_apart :
    let who : Identifiers := { index := 0, itemId := "fc_1", callId := "call_1" }
    let c : CallItem := { id := some "fc_1", callId := some "call_1", name := some "f" }
    let delta := "\x7b\"type\":\"response.function_call_arguments.delta\",\"item_id\":\"fc_1\",\"delta\":\"[1]\"\x7d"
    let done := "\x7b\"type\":\"response.output_item.done\",\"output_index\":0,\"item\":
      \x7b\"type\":\"function_call\",\"id\":\"fc_1\",\"call_id\":\"call_1\",\"name\":\"f\"\x7d\x7d"
    let last := "\x7b\"type\":\"response.completed\",\"response\":\x7b\"output\":
      [\x7b\"type\":\"function_call\",\"id\":\"fc_1\",\"call_id\":\"call_1\",\"name\":\"f\"\x7d]\x7d\x7d"
    let d := ({} : Decoder).readAll [delta]
    let live := toolCalls (d.step done).events
    let found := toolCalls (d.step last).state.rescan.1
    (∀ payload ∈ [delta, done, last], ∀ read ∈ (Signal.ofText payload).toOption, ∀ t ∈ read.2.targets, who.Agrees t) ∧
      (∃ read ∈ (Signal.ofText done).toOption, who.Done c read.2) ∧
      (∃ read ∈ (Signal.ofText last).toOption, who.Lists c read.2) ∧
      d.calls.given = [] ∧
      live.map (fun call => (call.id, call.rawArguments)) = [("call_1", "")] ∧
      found.map (fun call => (call.id, call.rawArguments)) = [("call_1", "[1]")] ∧
      live ≠ found := by
  intro who c delta done last d live found
  have hstream : (∀ payload ∈ [delta, done, last], ∀ read ∈ (Signal.ofText payload).toOption,
        ∀ t ∈ read.2.targets, who.Agrees t) ∧
      (∃ read ∈ (Signal.ofText done).toOption, who.Done c read.2) ∧
      (∃ read ∈ (Signal.ofText last).toOption, who.Lists c read.2) ∧
      d.calls.given = [] ∧
      live.map (fun call => (call.id, call.rawArguments)) = [("call_1", "")] ∧
      found.map (fun call => (call.id, call.rawArguments)) = [("call_1", "[1]")] := by
    decide +kernel
  obtain ⟨hagree, hdone, hlast, hgiven, hlive, hfound⟩ := hstream
  refine ⟨hagree, hdone, hlast, hgiven, hlive, hfound, fun heq => ?_⟩
  rw [heq, hfound] at hlive
  simp at hlive

end Identifiers

end Responses

end ModelStream
