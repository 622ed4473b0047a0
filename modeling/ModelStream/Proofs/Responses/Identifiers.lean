/-
The identifiers of one call of a Responses stream: its output index, its item id and its call id. As long
as whatever shares one of them with the call has no other (`Identifiers.Agrees`), every event about the
call leads to a draft of it and no other event does, whichever identifiers the events carry (`Tracks`):
the drafts under the call's keys have its ids or none, and if one of its ids counts as given out, then a
call with one of them has been.
-/
import ModelStream.Proofs.Decoder.Moves
import ModelStream.Proofs.Responses.Quiet

namespace ModelStream.Responses

/-! ## What names a call -/

namespace Target

def ids (t : Target) : List String := t.itemId.toList ++ t.callId.toList

/-- An item as a target; its place in the output may not be known. -/
def ofItem (index : Option Nat) (c : CallItem) : Target := ⟨index, c.id, c.callId⟩

end Target

/-- What a signal says of the identifiers of calls. -/
def Signal.targets : Signal → List Target
  | .itemAdded index item | .itemDone index item => (callOf item).toList.map (.ofItem (some index))
  | .argumentsDelta target _ | .argumentsDone target _ => [target]
  | .ended _ response => (response.output.filterMap callOf).map (.ofItem none)
  | _ => []

structure Identifiers where
  index : Nat
  itemId : String
  callId : String

namespace Identifiers

def Own (who : Identifiers) (id : String) : Prop := id = who.itemId ∨ id = who.callId

/-- A key under which the call may be drafted. -/
def OwnKey (who : Identifiers) : CallKey → Prop
  | .index n => n = who.index
  | .id id => who.Own id

/-- Has an identifier of the call. -/
def Shares (who : Identifiers) (t : Target) : Prop := t.index = some who.index ∨ ∃ id ∈ t.ids, who.Own id

/-- Has no identifier that is not the call's. -/
structure Fits (who : Identifiers) (t : Target) : Prop where
  index : ∀ n ∈ t.index, n = who.index
  itemId : ∀ id ∈ t.itemId, id = who.itemId
  callId : ∀ id ∈ t.callId, id = who.callId

/-- Is about the call with all its identifiers, or with none. -/
def Agrees (who : Identifiers) (t : Target) : Prop := who.Shares t → who.Fits t

instance (who : Identifiers) (id : String) : Decidable (who.Own id) := inferInstanceAs (Decidable (_ ∨ _))

instance (who : Identifiers) (t : Target) : Decidable (who.Shares t) := inferInstanceAs (Decidable (_ ∨ _))

instance (who : Identifiers) (t : Target) : Decidable (who.Fits t) :=
  decidable_of_iff ((∀ n ∈ t.index, n = who.index) ∧ (∀ id ∈ t.itemId, id = who.itemId) ∧
    ∀ id ∈ t.callId, id = who.callId) ⟨fun ⟨hn, hi, hc⟩ => ⟨hn, hi, hc⟩, fun h => ⟨h.index, h.itemId, h.callId⟩⟩

instance (who : Identifiers) (t : Target) : Decidable (who.Agrees t) := inferInstanceAs (Decidable (_ → _))

variable {who : Identifiers}

theorem own_ne_empty (h : who.itemId ≠ "" ∧ who.callId ≠ "") : ∀ id, who.Own id → id ≠ "" := by
  rintro id (rfl | rfl)
  · exact h.1
  · exact h.2

theorem Fits.own {t : Target} (h : who.Fits t) {id : String} (hid : id ∈ t.ids) : who.Own id := by
  rcases List.mem_append.1 hid with hid | hid
  · exact .inl (h.itemId id (Option.mem_toList.1 hid))
  · exact .inr (h.callId id (Option.mem_toList.1 hid))

/-- The ids of an item at an index are the call's exactly if the index is. -/
theorem Agrees.own_iff {n : Nat} {c : CallItem} (h : who.Agrees (.ofItem (some n) c)) {id : String}
    (hid : c.Carries id) : who.Own id ↔ who.OwnKey (.index n) := by
  have hmem : id ∈ (Target.ofItem (some n) c).ids := CallItem.carries_iff.1 hid
  constructor
  · intro hown
    exact (h (.inr ⟨id, hmem, hown⟩)).index n rfl
  · intro hn
    exact (h (.inl (congrArg some hn))).own hmem

/-- The ids of an item whose index is not known are all the call's, or none is. -/
theorem Agrees.own_congr {c : CallItem} {n : Option Nat} (h : who.Agrees (.ofItem n c)) {id other : String}
    (hid : c.Carries id) (hother : c.Carries other) : who.Own id ↔ who.Own other := by
  have hmem : id ∈ (Target.ofItem n c).ids := CallItem.carries_iff.1 hid
  have hmem' : other ∈ (Target.ofItem n c).ids := CallItem.carries_iff.1 hother
  exact ⟨fun hown => (h (.inr ⟨id, hmem, hown⟩)).own hmem', fun hown => (h (.inr ⟨other, hmem', hown⟩)).own hmem⟩

/-! ## What a decoder knows of the call -/

/-- The ids of a draft are the call's exactly if its key is, and a draft of the call is not left with an
empty name. -/
structure Sorted (who : Identifiers) (key : CallKey) (draft : CallDraft) : Prop where
  id : ∀ id ∈ draft.id, who.Own id ↔ who.OwnKey key
  name : who.OwnKey key → draft.name ≠ some ""

theorem Sorted.empty (who : Identifiers) (key : CallKey) : who.Sorted key {} where
  id := fun _ hid => nomatch hid
  name := fun _ h => nomatch h

/-- What a decoder knows of a call after giving out these calls. -/
structure Tracks (who : Identifiers) (told : List ToolCall) (d : Decoder) : Prop where
  full : ∀ id, who.Own id → id ≠ ""
  table : ∀ id n, Ordered.get? d.indices id = some n → (n = who.index ↔ id = who.itemId)
  drafts : ∀ p ∈ d.calls.drafts, who.Sorted p.1 p.2
  given : ∀ id ∈ d.calls.given, who.Own id → ∃ call ∈ told, who.Own call.id

namespace Tracks

variable {told : List ToolCall} {d : Decoder}

theorem start (h : ∀ id, who.Own id → id ≠ "") : who.Tracks [] {} where
  full := h
  table := fun _ _ hn => nomatch hn
  drafts := fun _ hp => nomatch hp
  given := fun _ hid => nomatch hid

theorem of_eq (h : who.Tracks told d) {e : Decoder} (hcalls : e.calls = d.calls) (hindices : e.indices = d.indices) :
    who.Tracks told e where
  full := h.full
  table := hindices ▸ h.table
  drafts := hcalls ▸ h.drafts
  given := hcalls ▸ h.given

/-- As long as no call with one of the ids was given out, neither counts as given out. -/
theorem fresh (h : who.Tracks told d) (hnew : ∀ call ∈ told, ¬ who.Own call.id) :
    ∀ id ∈ d.calls.given, ¬ who.Own id := by
  intro id hid hown
  obtain ⟨call, hmem, hcall⟩ := h.given id hid hown
  exact hnew call hmem hcall

theorem get? (h : who.Tracks told d) (key : CallKey) : who.Sorted key ((d.calls.get? key).getD {}) := by
  cases hget : d.calls.get? key with
  | none => exact .empty who key
  | some draft => exact h.drafts _ (Ordered.mem_of_get? hget)

/-- The draft found by an id is the call's exactly if the id is. -/
theorem find? (h : who.Tracks told d) {id : String} {key : CallKey} (hkey : d.calls.find? id = some key) :
    who.Own id ↔ who.OwnKey key := by
  unfold CallBoard.find? at hkey
  split at hkey
  · cases hkey
    rfl
  · obtain ⟨p, hp, rfl⟩ := Option.map_eq_some_iff.1 hkey
    have hid : p.2.id = some id := by simpa using List.find?_some hp
    exact (h.drafts p (List.mem_of_find?_eq_some hp)).id id hid

theorem ownKey_search (h : who.Tracks told d) (id : String) :
    who.OwnKey ((d.calls.find? id).getD (.id id)) ↔ who.Own id := by
  cases hfind : d.calls.find? id with
  | none => rfl
  | some key => exact (h.find? hfind).symm

/-- An event about arguments leads to a draft of the call exactly if it has an identifier of the call. -/
theorem callKey_iff (h : who.Tracks told d) {t : Target} (ht : who.Agrees t) :
    who.OwnKey (d.callKey t) ↔ who.Shares t := by
  have hempty : ¬ who.Own "" := fun hown => h.full "" hown rfl
  -- by the index, by the table of item ids, or else by searching for an id
  cases hindex : t.index with
  | some n =>
    have hkey : d.callKey t = .index n := by simp [Decoder.callKey, hindex]
    rw [hkey]
    constructor
    · intro hn
      exact .inl (by rw [hindex]; exact congrArg some hn)
    · intro hshares
      exact (ht hshares).index n hindex
  | none =>
    cases hbind : t.itemId.bind (Ordered.get? d.indices) with
    | some n =>
      obtain ⟨id, hid, hget⟩ := Option.bind_eq_some_iff.1 hbind
      have hkey : d.callKey t = .index n := by simp [Decoder.callKey, hindex, hbind]
      rw [hkey]
      constructor
      · intro hn
        have hown : id = who.itemId := (h.table id n hget).1 hn
        exact .inr ⟨id, by simp [Target.ids, hid], .inl hown⟩
      · intro hshares
        exact (h.table id n hget).2 ((ht hshares).itemId id hid)
    | none =>
      have hids : who.Shares t ↔ ∃ id ∈ t.ids, who.Own id := by simp [Shares, hindex]
      cases hsome : t.callId <|> t.itemId with
      | none =>
        have hkey : d.callKey t = .id "" := by simp [Decoder.callKey, hindex, hbind, hsome]
        have hnone : t.ids = [] := by
          cases hcall : t.callId <;> simp_all [Target.ids]
        simp [hkey, hids, hnone, OwnKey, hempty]
      | some id =>
        have hmem : id ∈ t.ids := by
          cases hcall : t.callId <;> simp_all [Target.ids]
        have hkey : d.callKey t = (d.calls.find? id).getD (.id id) := by
          simp [Decoder.callKey, hindex, hbind, hsome]
        have hown : who.OwnKey (d.callKey t) ↔ who.Own id := by
          rw [hkey, h.ownKey_search]
        rw [hown, hids]
        constructor
        · exact fun hid => ⟨id, hmem, hid⟩
        · rintro ⟨other, hother, howns⟩
          exact (ht (.inr ⟨other, hother, howns⟩)).own hmem

/-- The ids of an event about arguments are the call's exactly if it leads to the call. -/
theorem own_iff_callKey (h : who.Tracks told d) {t : Target} (ht : who.Agrees t) {id : String} (hid : id ∈ t.ids) :
    who.Own id ↔ who.OwnKey (d.callKey t) := by
  rw [h.callKey_iff ht]
  exact ⟨fun hown => .inr ⟨id, hid, hown⟩, fun hshares => (ht hshares).own hid⟩

/-! ## Operations -/

theorem update (h : who.Tracks told d) {key : CallKey} {change : CallDraft → CallDraft}
    (hchange : who.Sorted key (change ((d.calls.get? key).getD {}))) :
    who.Tracks told { d with calls := d.calls.update key change } where
  full := h.full
  table := h.table
  drafts := by
    intro p hp
    rcases Ordered.mem_of_mem_put hp with rfl | hp
    · exact hchange
    · exact h.drafts p hp
  given := h.given

theorem discard (h : who.Tracks told d) (key : CallKey) :
    who.Tracks told { d with calls := d.calls.discard key } where
  full := h.full
  table := h.table
  drafts := fun p hp => h.drafts p (Ordered.mem_of_mem_erase hp)
  given := h.given

theorem mark (h : who.Tracks told d) {id : String} (hid : who.Own id → ∃ call ∈ told, who.Own call.id) :
    who.Tracks told { d with calls := d.calls.mark id } where
  full := h.full
  table := h.table
  drafts := h.drafts
  given := by
    intro x hx hown
    rcases List.mem_cons.1 hx with rfl | hx
    · exact hid hown
    · exact h.given x hx hown

theorem foldl_mark (ids : List String) {b : CallBoard} (h : who.Tracks told { d with calls := b })
    (hids : ∀ id ∈ ids, who.Own id → ∃ call ∈ told, who.Own call.id) :
    who.Tracks told { d with calls := ids.foldl CallBoard.mark b } := by
  induction ids generalizing b with
  | nil => exact h
  | cons id ids ih =>
    exact ih (h.mark (hids id (List.mem_cons_self ..))) fun x hx => hids x (List.mem_cons_of_mem _ hx)

theorem more (h : who.Tracks told d) (later : List ToolCall) : who.Tracks (told ++ later) d where
  full := h.full
  table := h.table
  drafts := h.drafts
  given := by
    intro id hid hown
    obtain ⟨call, hcall, hids⟩ := h.given id hid hown
    exact ⟨call, List.mem_append_left _ hcall, hids⟩

/-- An id that a finished item fills in is the call's exactly if the key is. -/
theorem fill_id (h : who.Tracks told d) {key : CallKey} {c : CallItem}
    (hc : ∀ id, c.Carries id → (who.Own id ↔ who.OwnKey key)) :
    ∀ id ∈ (c.fill ((d.calls.get? key).getD {})).id, who.Own id ↔ who.OwnKey key := by
  intro id hid
  simp only [CallItem.fill] at hid
  split at hid
  · exact hc id (CallItem.carries_of_primary hid)
  · exact (h.get? key).id id hid

/-- A call of its own is given out under an id of its own, once a finished item with an id is filled in. -/
theorem own_fill_callId (h : who.Tracks told d) {key : CallKey} {c : CallItem}
    (hc : ∀ id, c.Carries id → (who.Own id ↔ who.OwnKey key)) (hkey : who.OwnKey key) {id : String}
    (hid : c.Carries id) : who.Own ((c.fill ((d.calls.get? key).getD {})).callId key) := by
  have hsome : ((c.fill ((d.calls.get? key).getD {})).id).isSome := by
    simp only [CallItem.fill]
    split
    · rcases hid with hid | hid <;> simp [hid]
    · next hkept => cases hold : ((d.calls.get? key).getD {}).id <;> simp_all
  obtain ⟨own, hown⟩ := Option.isSome_iff_exists.1 hsome
  have howns : who.Own own := (h.fill_id hc own hown).2 hkey
  rwa [CallDraft.callId, hown, CallBoard.nonEmpty_some (h.full own howns), Option.getD_some]

/-- Completing a call, of which all ids are the call's exactly if the key is. -/
theorem completeCall (h : who.Tracks told d) {key : CallKey} {c : CallItem}
    (hc : ∀ id, c.Carries id → (who.Own id ↔ who.OwnKey key)) :
    who.Tracks (told ++ toolCalls (d.completeCall key c).1) (d.completeCall key c).2 := by
  -- in every case the draft is taken off, whatever was filled in
  have hgone : who.Tracks told { d with calls := (d.calls.update key c.fill).discard key } := by
    refine ⟨h.full, h.table, fun p hp => ?_, h.given⟩
    rcases Ordered.mem_of_mem_put (Ordered.mem_of_mem_erase hp) with rfl | hold
    · simpa using (List.mem_filter.1 hp).2
    · exact h.drafts p hold
  unfold Decoder.completeCall
  split
  · rw [toolCalls_nil, List.append_nil]
    exact h.discard key
  · split
    · next call calls hcomplete =>
      obtain ⟨draft, hget, -, hcall, -, rfl⟩ := CallBoard.complete_some hcomplete
      rw [CallBoard.get?_update_self] at hget
      cases hget
      have hcallId : call.id = (c.fill ((d.calls.get? key).getD {})).callId key := by rw [hcall]
      have hmem : call ∈ told ++ toolCalls [.toolCall call] := List.mem_append_right _ (List.mem_singleton_self call)
      refine foldl_mark _ ((hgone.more _).mark fun hown => ⟨call, hmem, hown⟩) fun id hid hown => ?_
      have hcarries : c.Carries id := CallItem.carries_iff.2 hid
      exact ⟨call, hmem, hcallId ▸ h.own_fill_callId hc ((hc id hcarries).1 hown) hcarries⟩
    · next calls hcomplete =>
      rw [CallBoard.complete_none hcomplete, toolCalls_nil, List.append_nil]
      exact hgone

theorem enter (h : who.Tracks told d) {id : String} {n : Nat} (hid : n = who.index ↔ id = who.itemId) :
    who.Tracks told { d with indices := Ordered.put id n d.indices } where
  full := h.full
  table := by
    intro other m hget
    by_cases hother : other = id
    · rw [hother, Ordered.get?_put_self] at hget
      cases hget
      rwa [hother]
    · rw [Ordered.get?_put_of_ne hother] at hget
      exact h.table other m hget
  drafts := h.drafts
  given := h.given

/-- An announcement begins a draft, which has a name unless the item gives an empty one. -/
theorem announce (h : who.Tracks told d) {n : Nat} {item : Json} {c : CallItem} (hitem : callOf item = some c)
    (hc : who.Agrees (.ofItem (some n) c)) (hname : n = who.index → c.name ≠ some "") :
    who.Tracks told (d.announce n item) := by
  unfold Decoder.announce
  simp only [callOf_eq_some.1 hitem]
  split
  · exact h
  · have hdraft : who.Tracks told { d with calls := d.calls.update (.index n) fun draft =>
        { arguments := draft.arguments ++ c.arguments, id := c.callId <|> c.id, name := c.name } } := by
      exact h.update ⟨fun id hid => hc.own_iff (CallItem.carries_of_primary hid), hname⟩
    cases hid : c.id with
    | none => simpa [hid] using hdraft
    | some id =>
      have hmem : id ∈ (Target.ofItem (some n) c).ids := CallItem.carries_iff.1 (.inl hid)
      have hentry : n = who.index ↔ id = who.itemId := by
        constructor
        · rintro rfl
          exact (hc (.inl rfl)).itemId id hid
        · rintro rfl
          exact (hc (.inr ⟨_, hmem, .inl rfl⟩)).index n rfl
      simpa [hid] using hdraft.enter hentry

theorem grow (h : who.Tracks told d) {t : Target} (ht : who.Agrees t) (fragment : String) :
    who.Tracks told { d with calls := d.calls.update (d.callKey t) fun draft =>
      { draft with id := draft.id <|> t.callId, arguments := draft.arguments ++ fragment } } := by
  have hold := h.get? (d.callKey t)
  refine h.update ⟨fun id hid => ?_, hold.name⟩
  cases hdraft : ((d.calls.get? (d.callKey t)).getD {}).id with
  | none =>
    have hcall : t.callId = some id := by simpa [hdraft] using hid
    exact h.own_iff_callKey ht (by simp [Target.ids, hcall])
  | some other =>
    have hsame : other = id := by simpa [hdraft] using hid
    exact hold.id id (hsame ▸ hdraft)

theorem quiet (h : who.Tracks told d) {events : List Event} {e : Decoder} (hq : d.Quiet events e) :
    who.Tracks (told ++ toolCalls events) e := by
  rw [hq.silent, List.append_nil]
  exact h.of_eq hq.calls hq.indices

end Tracks

end Identifiers

end ModelStream.Responses
