/-
What a decoder knows of announced calls (`Follows`): the drafts of those that are open, the output index
of each that was announced, and the item ids of those given out. So whatever identifiers an event names
a call by, they lead to its draft. Every operation that a stream can ask for keeps this, and gives out
exactly the calls that it moves to the last stage, the end of the stream included.
-/
import ModelStream.Proofs.Decoder.Moves
import ModelStream.Proofs.Responses.Announced

namespace ModelStream.Responses

/-- The calls that the closing response lists are announced ones. -/
def Lists (calls : List Announced) (response : Response) : Prop :=
  ∀ item ∈ response.output, Announced.Listed calls item

instance (calls : List Announced) (response : Response) : Decidable (Lists calls response) :=
  inferInstanceAs (Decidable (∀ item ∈ response.output, _))

/-- What a decoder knows of the calls: their drafts, the index of each that was announced, and the
item ids of those given out. -/
structure Follows (calls : List Announced) (stages : Stages) (given : List Announced) (d : Decoder) : Prop where
  board : Holds calls stages given d.calls
  table : ∀ a ∈ calls, stages a ≠ .waiting → Ordered.get? d.indices a.itemId = some a.index
  recorded : ∀ a ∈ given, a.itemId ∈ d.calls.given
  unread : d.last = none

namespace Follows

variable {calls given : List Announced} {stages : Stages} {d : Decoder} {a : Announced}

theorem start {calls : List Announced} : Follows calls (fun _ => .waiting) [] {} where
  board :=
    { drafts := fun _ _ => rfl
      entries := fun _ hp => nomatch hp
      ids := fun _ hid => nomatch hid
      once := List.nodup_nil
      told := fun _ => ⟨fun ha => (nomatch ha), fun ha => (nomatch ha.2)⟩ }
  table := fun _ _ hs => (hs rfl).elim
  recorded := fun _ ha => nomatch ha
  unread := rfl

/-- What leaves calls alone leaves this as it is. -/
theorem of_eq (h : Follows calls stages given d) {e : Decoder} (hcalls : e.calls = d.calls)
    (hindices : e.indices = d.indices) (hlast : e.last = none) : Follows calls stages given e where
  board := hcalls ▸ h.board
  table := hindices ▸ h.table
  recorded := hcalls ▸ h.recorded
  unread := hlast

theorem quiet (h : Follows calls stages given d) {events : List Event} {e : Decoder} (hq : d.Quiet events e) :
    Follows calls stages given e := h.of_eq hq.calls hq.indices (hq.last.trans h.unread)

/-- An index or an item id leads to the call once it is announced. -/
theorem callKey_of_known (h : Follows calls stages given d) (ha : a ∈ calls) (hs : stages a ≠ .waiting)
    {target : Target} (hn : a.Names target) (hk : target.index.isSome ∨ target.itemId.isSome) :
    d.callKey target = .index a.index := by
  cases hindex : target.index with
  | some n => simp [Decoder.callKey, hindex, hn.index n hindex]
  | none =>
    cases hitem : target.itemId with
    | none => simp [hindex, hitem] at hk
    | some id =>
      have htable := h.table a ha hs
      rw [← hn.itemId id hitem] at htable
      simp [Decoder.callKey, hindex, hitem, htable]

/-- Any of its identifiers leads to a call that is open. -/
theorem callKey_of_open (h : Follows calls stages given d) (hd : Announced.Distinct calls) (ha : a ∈ calls)
    {text : String} (hs : stages a = .active text) {target : Target} (hn : a.Names target) :
    d.callKey target = .index a.index := by
  -- with the call id alone, the call is found by its draft
  by_cases hk : target.index.isSome ∨ target.itemId.isSome
  · exact h.callKey_of_known ha (Stage.ne_waiting_of_active hs) hn hk
  · obtain ⟨hindex, hitem⟩ : target.index = none ∧ target.itemId = none := by simpa using hk
    cases hcall : target.callId with
    | none =>
      refine (hn.some ?_).elim
      cases target
      simp_all
    | some id =>
      have hfind := h.board.find?_eq hd ha hs
      rw [← hn.callId id hcall] at hfind
      simp [Decoder.callKey, hindex, hitem, hcall, hfind]

theorem alreadyGiven_of_open (h : Follows calls stages given d) (hd : Announced.Distinct calls) (ha : a ∈ calls)
    (hs : stages a ≠ .given) {c : CallItem} (hc : a.Describes c) : d.alreadyGiven c.id c.callId = false := by
  rw [Bool.eq_false_iff]
  intro hgiven
  obtain ⟨id, hid, hwas⟩ := List.any_eq_true.1 hgiven
  exact h.board.not_given hd ha hs (hc.carries (CallItem.carries_iff.2 hid)) ((CallBoard.wasGiven_iff _ _).1 hwas)

theorem alreadyGiven_of_given (h : Follows calls stages given d) (ha : a ∈ calls) (hs : stages a = .given)
    {c : CallItem} (hc : a.Describes c) : d.alreadyGiven c.id c.callId = true := by
  refine List.any_eq_true.2 ⟨a.itemId, by simp [hc.id], ?_⟩
  rw [CallBoard.wasGiven_iff]
  exact h.recorded a ((h.board.told a).2 ⟨ha, hs⟩)

/-! ## Operations -/

theorem table_set (h : Follows calls stages given d) (hs : stages a ≠ .waiting) (stage : Stage) :
    ∀ c ∈ calls, stages.set a stage c ≠ .waiting → Ordered.get? d.indices c.itemId = some c.index := by
  intro c hc hcs
  by_cases hca : c = a
  · exact h.table c hc (hca ▸ hs)
  · rw [Stages.set_of_ne stages hca] at hcs
    exact h.table c hc hcs

/-- An announcement opens the call, and enters its item id. -/
theorem announce (h : Follows calls stages given d) (hd : Announced.Distinct calls) (ha : a ∈ calls)
    (hs : stages a = .waiting) {item : Json} (hitem : callOf item = some (a.item "")) :
    Follows calls (stages.set a (.active "")) given (d.announce a.index item) := by
  have hopen : stages a ≠ .given := by
    rw [hs]
    simp
  have hnew := h.alreadyGiven_of_open hd ha hopen a.describes_item
  have hboard : Holds calls (stages.set a (.active "")) given (d.calls.update (.index a.index) fun draft =>
      { arguments := draft.arguments ++ "", id := some a.callId, name := some a.name }) := by
    refine h.board.update hd ha hopen ?_
    rw [hs]
    rfl
  unfold Decoder.announce
  simp only [callOf_eq_some.1 hitem, hnew, Bool.false_eq_true, if_false]
  constructor
  · exact hboard
  · intro c hc hcs
    by_cases hca : c = a
    · rw [hca]
      exact Ordered.get?_put_self ..
    · rw [Stages.set_of_ne stages hca] at hcs
      have hne : c.itemId ≠ a.itemId := fun heq =>
        hca (hd.ids c hc a ha c.itemId c.itemId_mem_ids (heq ▸ a.itemId_mem_ids))
      exact (Ordered.get?_put_of_ne hne ..).trans (h.table c hc hcs)
  · exact h.recorded
  · exact h.unread

theorem grow (h : Follows calls stages given d) (hd : Announced.Distinct calls) (ha : a ∈ calls) {text : String}
    (hs : stages a = .active text) {target : Target} (hn : a.Names target) (fragment : String) (raw : Json) :
    Follows calls (stages.set a (.active (text ++ fragment))) given
      (d.apply raw (.argumentsDelta target fragment)).state := by
  have hopen : stages a ≠ .given := Stage.ne_given_of_active hs
  have hkey := h.callKey_of_open hd ha hs hn
  have hboard : Holds calls (stages.set a (.active (text ++ fragment))) given
      (d.calls.update (.index a.index) fun draft =>
        { draft with id := draft.id <|> target.callId, arguments := draft.arguments ++ fragment }) := by
    refine h.board.update hd ha hopen ?_
    rw [hs]
    rfl
  simp only [Decoder.apply, hkey]
  constructor
  · exact hboard
  · exact h.table_set (Stage.ne_waiting_of_active hs) _
  · exact h.recorded
  · exact h.unread

/-- A finished item gives out a call that is open, and nothing for one that was given out. -/
theorem completeCall (h : Follows calls stages given d) (hd : Announced.Distinct calls) (ha : a ∈ calls)
    (hs : (stages a).Settled a) {c : CallItem} (hc : a.Describes c) :
    ∃ more, toolCalls (d.completeCall (.index a.index) c).1 = more.map Announced.call ∧
      Follows calls (stages.set a .given) (given ++ more) (d.completeCall (.index a.index) c).2 := by
  unfold Decoder.completeCall
  rcases hs with hs | hs
  · have hopen : stages a ≠ .given := Stage.ne_given_of_active hs
    have hnew := h.alreadyGiven_of_open hd ha hopen hc
    -- the draft is complete, so that filling it in changes nothing
    have hfilled : Holds calls (stages.set a (.active a.arguments)) given
        (d.calls.update (.index a.index) c.fill) := by
      refine h.board.update hd ha hopen ?_
      rw [hs]
      exact hc.fill
    obtain ⟨b, hcomplete, hboard⟩ := hfilled.complete hd ha (Stages.set_self ..)
    rw [Stages.set_set] at hboard
    simp only [hnew, hcomplete, Bool.false_eq_true, if_false]
    refine ⟨[a], rfl, ?_, ?_, ?_, h.unread⟩
    · exact hboard.foldl_mark _ (by simp) fun id hid => hc.carries (CallItem.carries_iff.2 hid)
    · exact h.table_set (Stage.ne_waiting_of_active hs) _
    · intro other hother
      rcases List.mem_append.1 hother with hother | hother
      · have hkept := (CallBoard.Gives.complete hcomplete).kept (h.recorded other hother)
        exact CallBoard.foldl_mark_given _ b (.inr hkept)
      · cases List.mem_singleton.1 hother
        exact CallBoard.foldl_mark_given _ b (.inl (CallItem.carries_iff.1 (.inl hc.id)))
  · have hwas := h.alreadyGiven_of_given ha hs hc
    have hsame : d.calls.discard (.index a.index) = d.calls :=
      CallBoard.discard_of_get?_none (h.board.get?_of_given ha hs)
    refine ⟨[], ?_⟩
    rw [if_pos hwas, hsame, Stages.set_eq_self hs, List.append_nil]
    exact ⟨rfl, h⟩

/-! ## The closing response -/

theorem rescanItem (h : Follows calls stages given d) (hd : Announced.Distinct calls) (ha : a ∈ calls)
    (hs : (stages a).Settled a) {item : Json} {c : CallItem}
    (hitem : callOf item = some c) (hc : a.Describes c) (hcall : c.callId = some a.callId) (position : Nat) :
    ∃ more, toolCalls (d.rescanItem position item).1 = more.map Announced.call ∧
      Follows calls (stages.set a .given) (given ++ more) (d.rescanItem position item).2 := by
  unfold Decoder.rescanItem
  simp only [callOf_eq_some.1 hitem]
  rcases hs with hopen | hgiven
  · have hnew := h.alreadyGiven_of_open hd ha (Stage.ne_given_of_active hopen) hc
    have hfind := h.board.find?_eq hd ha hopen
    have hkey : ((c.callId.toList ++ c.id.toList).findSome? d.calls.find?).getD (.id a.callId) = .index a.index := by
      simp [hcall, hfind]
    have hid : (c.callId <|> c.id) = some a.callId := by simp [hcall]
    simp only [hnew, hid, hkey, Bool.false_eq_true, if_false]
    exact h.completeCall hd ha (.inl hopen) hc
  · have hwas := h.alreadyGiven_of_given ha hgiven hc
    refine ⟨[], ?_⟩
    rw [if_pos hwas, Stages.set_eq_self hgiven, List.append_nil]
    exact ⟨rfl, h⟩

theorem rescanItems (items : List Json) (h : Follows calls stages given d) (hd : Announced.Distinct calls)
    (hsettled : stages.Settled calls)
    (hitems : ∀ item ∈ items, Announced.Listed calls item)
    (position : Nat) :
    ∃ after more, toolCalls (d.rescanItems position items).1 = more.map Announced.call ∧
      Follows calls after (given ++ more) (d.rescanItems position items).2 ∧ after.Settled calls := by
  induction items generalizing d stages given position with
  | nil => exact ⟨stages, [], rfl, by rwa [List.append_nil], hsettled⟩
  | cons item items ih =>
    have hrest : ∀ other ∈ items, Announced.Listed calls other :=
      fun other hother => hitems other (List.mem_cons_of_mem _ hother)
    unfold Decoder.rescanItems
    cases hcall : callOf item with
    | none =>
      have hquiet := d.rescanItem_quiet position hcall
      obtain ⟨after, more, hmore, hfollows, hafter⟩ := ih (h.quiet hquiet) hsettled hrest (position + 1)
      refine ⟨after, more, ?_, hfollows, hafter⟩
      simp only [toolCalls_append, hquiet.silent, hmore, List.nil_append]
    | some c =>
      obtain ⟨a, ha, hc, hid⟩ := hitems item (List.mem_cons_self ..) c hcall
      obtain ⟨one, hone, hfirst⟩ := h.rescanItem hd ha (hsettled a ha) hcall hc hid position
      obtain ⟨after, more, hmore, hfollows, hafter⟩ := ih hfirst (hsettled.set a) hrest (position + 1)
      refine ⟨after, one ++ more, ?_, by rwa [← List.append_assoc], hafter⟩
      simp only [toolCalls_append, hone, hmore, List.map_append]

/-- What the end gives out completes the calls, after the closing response was read once more. -/
theorem finish_of_rescan {found : List Announced} (h : Follows calls stages (given ++ found) d.rescan.2)
    (hd : Announced.Distinct calls) (hsettled : stages.Settled calls)
    (hfound : toolCalls d.rescan.1 = found.map Announced.call) (hopen : d.closing.finished = false) :
    ∃ more, toolCalls d.finish.1 = more.map Announced.call ∧ (given ++ more).Perm calls := by
  obtain ⟨last, hlast, hperm⟩ := h.board.drain hd hsettled
  have hclosing : d.rescan.2.boards.closing.finished = false := d.rescan_moves.finished.trans hopen
  refine ⟨found ++ last, ?_, by rwa [← List.append_assoc]⟩
  show toolCalls (d.rescan.1 ++ d.rescan.2.boards.finish.1) = _
  rw [toolCalls_append, Boards.finish_calls hclosing, hfound, List.map_append]
  exact congrArg (_ ++ ·) hlast

theorem finish (h : Follows calls stages given d) (hd : Announced.Distinct calls) (hsettled : stages.Settled calls)
    (hopen : d.closing.finished = false) :
    ∃ more, toolCalls d.finish.1 = more.map Announced.call ∧ (given ++ more).Perm calls := by
  have hnone : d.rescan = ([], d) := by simp only [Decoder.rescan, h.unread]
  have hfollows : Follows calls stages (given ++ []) d.rescan.2 := by
    rw [hnone, List.append_nil]
    exact h
  have hfound : toolCalls d.rescan.1 = ([] : List Announced).map Announced.call := by
    rw [hnone]
    rfl
  exact finish_of_rescan hfollows hd hsettled hfound hopen

/-- The end after a closing response. -/
theorem finish_close (h : Follows calls stages given d) (hd : Announced.Distinct calls)
    (hsettled : stages.Settled calls) (outcome : Outcome) {response : Response} (hlists : Lists calls response)
    (hopen : (d.close outcome response).2.closing.finished = false) :
    ∃ more, toolCalls (d.close outcome response).2.finish.1 = more.map Announced.call ∧
      (given ++ more).Perm calls := by
  obtain ⟨-, hcalls, hindices, hlast⟩ := d.close_calls outcome response
  have hreopen : Follows calls stages given ((d.close outcome response).2.reopen response) :=
    h.of_eq hcalls hindices rfl
  obtain ⟨after, found, hfound, hfollows, hafter⟩ := hreopen.rescanItems response.output hd hsettled hlists 0
  have hrescan : (d.close outcome response).2.rescan =
      ((d.close outcome response).2.reopen response).rescanItems 0 response.output := by
    simp only [Decoder.rescan, hlast]
  rw [← hrescan] at hfound hfollows
  exact finish_of_rescan hfollows hd hafter hfound hopen

end Follows

end ModelStream.Responses
