/-
The closing response gives out what the stream did not. Take a call that the closing response lists with
a name and both its ids, and a stream in which nothing shares an identifier with the call and has another
one. Whatever the stream said of the call before, in whatever order, a call with one of its ids has been
given out at the end (`listed_given`), unless an announcement gave it an empty name: that name stays
(`listed_lost_placeholder`).
-/
import ModelStream.Proofs.Decoder.CallIds
import ModelStream.Proofs.Responses.Identifiers

namespace ModelStream.Responses

namespace Decoder

def draftAt (d : Decoder) (key : CallKey) : CallDraft := (d.calls.get? key).getD {}

/-- The key of the draft that an item of the closing response is merged into. -/
def foundKey (d : Decoder) (c : CallItem) (primary : String) : CallKey :=
  ((c.callId.toList ++ c.id.toList).findSome? d.calls.find?).getD (.id primary)

def readAll (d : Decoder) (payloads : List String) : Decoder := payloads.foldl (fun d payload => (d.step payload).state) d

theorem readAll_append (d : Decoder) (payloads later : List String) :
    d.readAll (payloads ++ later) = (d.readAll payloads).readAll later := List.foldl_append

theorem drive_payload (d : Decoder) (payload : String) (rest : List Input) :
    toolCalls ((ModelStream.Decoder.responses d).drive (.payload payload :: rest)).1 =
      toolCalls (d.step payload).events ++
        toolCalls ((ModelStream.Decoder.responses (d.step payload).state).drive rest).1 :=
  toolCalls_append ..

theorem drive_append (payloads : List String) (rest : List Input) (d : Decoder) :
    toolCalls ((ModelStream.Decoder.responses d).drive (payloads.map .payload ++ rest)).1 =
      toolCalls ((ModelStream.Decoder.responses d).drive (payloads.map .payload)).1 ++
        toolCalls ((ModelStream.Decoder.responses (d.readAll payloads)).drive rest).1 := by
  induction payloads generalizing d with
  | nil => rfl
  | cons payload payloads ih =>
    rw [List.map_cons, List.cons_append, drive_payload, drive_payload, ih, List.append_assoc]
    rfl

end Decoder

namespace Identifiers

/-- Ends the stream with a response that lists the call with both its ids and this name. -/
def Listed (who : Identifiers) (name : String) : Signal → Prop
  | .ended _ response => ∃ item ∈ response.output, ∃ c ∈ callOf item,
      c.id = some who.itemId ∧ c.callId = some who.callId ∧ c.name = some name
  | _ => False

/-- Announces the call under an empty name. -/
def Unnamed (who : Identifiers) : Signal → Prop
  | .itemAdded index item => ∃ c ∈ callOf item, who.Shares (.ofItem (some index) c) ∧ c.name = some ""
  | _ => False

instance (who : Identifiers) (name : String) : ∀ signal, Decidable (who.Listed name signal)
  | .ended .. => inferInstanceAs (Decidable (∃ item ∈ _, _))
  | .started _ | .itemAdded .. | .itemDone .. | .textDelta _ | .note | .argumentsDelta .. | .argumentsDone ..
  | .reasoningDelta .. | .error .. | .idle => isFalse id

instance (who : Identifiers) : ∀ signal, Decidable (who.Unnamed signal)
  | .itemAdded .. => inferInstanceAs (Decidable (∃ c ∈ _, _))
  | .started _ | .itemDone .. | .textDelta _ | .note | .argumentsDelta .. | .argumentsDone ..
  | .reasoningDelta .. | .ended .. | .error .. | .idle => isFalse id

/-- A finished item of the call: it has both ids of the call and a name, and none of them is empty. -/
structure Finishes (who : Identifiers) (c : CallItem) : Prop where
  id : c.id = some who.itemId
  callId : c.callId = some who.callId
  named : ∃ name ∈ c.name, name ≠ ""
  full : who.itemId ≠ "" ∧ who.callId ≠ ""

def finished (who : Identifiers) (c : CallItem) (draft : CallDraft) : ToolCall where
  id := who.callId
  name := (c.fill draft).name.getD ""
  arguments := parseArguments (c.fill draft).arguments
  rawArguments := (c.fill draft).arguments

variable {who : Identifiers}

namespace Finishes

variable {c : CallItem}

theorem agrees (h : who.Finishes c) : who.Agrees (.ofItem none c) := fun _ =>
  ⟨fun _ hn => (nomatch hn), fun _ hid => Option.some.inj (hid.symm.trans h.id),
    fun _ hid => Option.some.inj (hid.symm.trans h.callId)⟩

theorem carries_iff (h : who.Finishes c) {id : String} : c.Carries id ↔ who.Own id := by
  rw [CallItem.Carries, h.id, h.callId, Option.some_inj, Option.some_inj, Own, eq_comm, eq_comm (a := who.callId)]

/-- Once it is filled in, a draft of the call has the call id, even if it was drafted under the item id. -/
theorem fill_callId (h : who.Finishes c) {draft : CallDraft} (hdraft : ∀ id ∈ draft.id, who.Own id) (key : CallKey) :
    (c.fill draft).callId key = who.callId := by
  have hid : (c.fill draft).id = some who.callId := by
    simp only [CallItem.fill, h.id, h.callId]
    cases hold : draft.id with
    | none => simp
    | some own =>
      rcases hdraft own hold with rfl | rfl
      · simp
      · by_cases hsame : who.callId = who.itemId <;> simp [hsame]
  rw [CallDraft.callId, hid, CallBoard.nonEmpty_some h.full.2, Option.getD_some]

end Finishes

/-- An item without ids of others counts as given out only if the call does. -/
theorem not_given {c : CallItem} (h : ∀ id, c.Carries id → who.Own id) {d : Decoder}
    (hnew : ∀ id ∈ d.calls.given, ¬ who.Own id) : d.alreadyGiven c.id c.callId = false := by
  rw [Bool.eq_false_iff]
  intro hgiven
  obtain ⟨id, hmem, hwas⟩ := List.any_eq_true.1 hgiven
  exact hnew id ((CallBoard.wasGiven_iff _ _).1 hwas) (h id (CallItem.carries_iff.2 hmem))

namespace Tracks

variable {told : List ToolCall} {d : Decoder}

/-! ## The stream -/

theorem apply_apart (h : who.Tracks told d) (raw : Json) {signal : Signal} (hs : signal.Apart) :
    who.Tracks (told ++ toolCalls (d.apply raw signal).events) (d.apply raw signal).state :=
  h.quiet (d.apply_quiet raw hs).1

theorem apply (h : who.Tracks told d) (raw : Json) {signal : Signal} (hagree : ∀ t ∈ signal.targets, who.Agrees t)
    (hnamed : ¬ who.Unnamed signal) :
    who.Tracks (told ++ toolCalls (d.apply raw signal).events) (d.apply raw signal).state := by
  cases signal with
  | itemAdded n item =>
    cases hitem : callOf item with
    | none =>
      refine h.apply_apart raw ?_
      exact hitem
    | some c =>
      show who.Tracks (told ++ toolCalls []) (d.announce n item)
      rw [toolCalls_nil, List.append_nil]
      refine h.announce hitem (hagree _ (by simp [Signal.targets, hitem])) fun hn hempty => ?_
      exact hnamed ⟨c, hitem, .inl (congrArg some hn), hempty⟩
  | itemDone n item =>
    cases hitem : callOf item with
    | none =>
      refine h.apply_apart raw ?_
      exact hitem
    | some c =>
      have hc : who.Agrees (.ofItem (some n) c) := hagree _ (by simp [Signal.targets, hitem])
      have hfinish : d.finishItem n item = d.completeCall (.index n) c := by
        simp only [Decoder.finishItem, callOf_eq_some.1 hitem]
      simp only [Decoder.apply, hfinish]
      exact h.completeCall fun id hid => hc.own_iff hid
  | argumentsDelta t fragment =>
    show who.Tracks (told ++ toolCalls []) _
    rw [toolCalls_nil, List.append_nil]
    exact h.grow (hagree t (List.mem_singleton_self t)) fragment
  | argumentsDone t arguments =>
    have ht : who.Agrees t := hagree t (List.mem_singleton_self t)
    exact h.completeCall fun id hid => h.own_iff_callKey ht (CallItem.carries_iff.1 hid)
  | ended outcome response =>
    obtain ⟨hsilent, hcalls, hindices, -⟩ := d.close_calls outcome response
    show who.Tracks (told ++ toolCalls (d.close outcome response).1) (d.close outcome response).2
    rw [hsilent, List.append_nil]
    exact h.of_eq hcalls hindices
  | started | textDelta | note | reasoningDelta | error | idle =>
    refine h.apply_apart raw ?_
    trivial

theorem step (h : who.Tracks told d) {payload : String}
    (hagree : ∀ read ∈ (Signal.ofText payload).toOption, ∀ t ∈ read.2.targets, who.Agrees t)
    (hnamed : ∀ read ∈ (Signal.ofText payload).toOption, ¬ who.Unnamed read.2) :
    who.Tracks (told ++ toolCalls (d.step payload).events) (d.step payload).state := by
  unfold Decoder.step
  cases hread : Signal.ofText payload with
  | error problem =>
    show who.Tracks (told ++ []) d
    rwa [List.append_nil]
  | ok read =>
    have hmem : read ∈ (Signal.ofText payload).toOption := by rw [hread]; rfl
    exact h.apply read.1 (hagree read hmem) (hnamed read hmem)

/-! ## The closing response -/

/-- The draft that an item of the closing response is merged into is the call's exactly if the ids of the
item are. -/
theorem own_iff_foundKey (h : who.Tracks told d) {c : CallItem} (hc : who.Agrees (.ofItem none c)) {primary id : String}
    (hprimary : (c.callId <|> c.id) = some primary) (hid : c.Carries id) :
    who.Own id ↔ who.OwnKey (d.foundKey c primary) := by
  have hcarries : c.Carries primary := CallItem.carries_of_primary hprimary
  unfold Decoder.foundKey
  cases hfind : (c.callId.toList ++ c.id.toList).findSome? d.calls.find? with
  | none => exact hc.own_congr hid hcarries
  | some key =>
    obtain ⟨other, hmem, hkey⟩ := List.exists_of_findSome?_eq_some hfind
    have hother : c.Carries other := CallItem.carries_iff.2 (by simpa [or_comm] using hmem)
    exact (hc.own_congr hid hother).trans (h.find? hkey)

theorem rescanItem (h : who.Tracks told d) (position : Nat) {item : Json}
    (hagree : ∀ c ∈ callOf item, who.Agrees (.ofItem none c)) :
    who.Tracks (told ++ toolCalls (d.rescanItem position item).1) (d.rescanItem position item).2 := by
  cases hitem : callOf item with
  | none => exact h.quiet (d.rescanItem_quiet position hitem)
  | some c =>
    unfold Decoder.rescanItem
    simp only [callOf_eq_some.1 hitem]
    split
    · simpa using h
    · cases hprimary : c.callId <|> c.id with
      | none => simpa using h
      | some primary => exact h.completeCall fun id hid => h.own_iff_foundKey (hagree c hitem) hprimary hid

/-- A draft of the call has a name once an item that names the call is filled in. -/
theorem fill_name (h : who.Tracks told d) {key : CallKey} {c : CallItem} {name : String} (hkey : who.OwnKey key)
    (hname : c.name = some name) (hfull : name ≠ "") :
    ∃ final, nonEmpty (c.fill ((d.calls.get? key).getD {})).name = some final := by
  cases hold : ((d.calls.get? key).getD {}).name with
  | none => exact ⟨name, by simp [CallItem.fill, hold, hname, CallBoard.nonEmpty_some hfull]⟩
  | some old =>
    have hne : old ≠ "" := fun hempty => (h.get? key).name hkey (by rw [hold, hempty])
    exact ⟨old, by simp [CallItem.fill, hold, CallBoard.nonEmpty_some hne]⟩

/-- A finished item of the call gives out the call that it makes of the draft, if nothing of the call was
given out. -/
theorem completeCall_own (h : who.Tracks told d) {c : CallItem} (hc : who.Finishes c) {key : CallKey}
    (hkey : who.OwnKey key) (hnew : ∀ id ∈ d.calls.given, ¬ who.Own id) :
    (d.completeCall key c).1 = [.toolCall (who.finished c (d.draftAt key))] := by
  have hgiven := not_given (fun _ => hc.carries_iff.1) hnew
  have hcallId : (c.fill (d.draftAt key)).callId key = who.callId :=
    hc.fill_callId (fun id hid => ((h.get? key).id id hid).2 hkey) key
  have hfresh : (c.fill (d.draftAt key)).callId key ∉ (d.calls.update key c.fill).given := by
    rw [hcallId]
    exact fun hmem => hnew _ hmem (.inr rfl)
  obtain ⟨name, hname, hfull⟩ := hc.named
  obtain ⟨final, hfinal⟩ := h.fill_name hkey hname hfull
  have hnamed : (c.fill (d.draftAt key)).name = some final := (Option.filter_eq_some_iff.1 hfinal).1
  have hget : (d.calls.update key c.fill).get? key = some (c.fill (d.draftAt key)) := CallBoard.get?_update_self ..
  simp [Decoder.completeCall, hgiven, CallBoard.complete_of_get? hget hfresh hfinal, finished, hcallId, hnamed]

/-- An item of the closing response that finishes the call is merged into a draft of the call. -/
theorem ownKey_foundKey (h : who.Tracks told d) {c : CallItem} (hc : who.Finishes c) :
    who.OwnKey (d.foundKey c who.callId) :=
  (h.own_iff_foundKey hc.agrees (by simp [hc.callId]) (.inr hc.callId)).1 (.inr rfl)

theorem rescanItem_finished (h : who.Tracks told d) (position : Nat) {item : Json} {c : CallItem}
    (hitem : callOf item = some c) (hc : who.Finishes c) (hnew : ∀ id ∈ d.calls.given, ¬ who.Own id) :
    (d.rescanItem position item).1 = [.toolCall (who.finished c (d.draftAt (d.foundKey c who.callId)))] := by
  have hprimary : (c.callId <|> c.id) = some who.callId := by simp [hc.callId]
  simp only [Decoder.rescanItem, callOf_eq_some.1 hitem, not_given (fun _ => hc.carries_iff.1) hnew, hprimary]
  exact h.completeCall_own hc (h.ownKey_foundKey hc) hnew

/-- The item of the call itself: the call has been given out, or is given out now. -/
theorem rescanItem_own (h : who.Tracks told d) (position : Nat) {item : Json} {c : CallItem} {name : String}
    (hitem : callOf item = some c) (hid : c.id = some who.itemId) (hcall : c.callId = some who.callId)
    (hname : c.name = some name) (hfull : name ≠ "") :
    ∃ call ∈ told ++ toolCalls (d.rescanItem position item).1, who.Own call.id := by
  have hc : who.Finishes c :=
    ⟨hid, hcall, ⟨name, hname, hfull⟩, h.full who.itemId (.inl rfl), h.full who.callId (.inr rfl)⟩
  by_cases hgiven : ∃ id ∈ d.calls.given, who.Own id
  · obtain ⟨id, hmem, hown⟩ := hgiven
    obtain ⟨call, hcallMem, hcallOwn⟩ := h.given id hmem hown
    exact ⟨call, List.mem_append_left _ hcallMem, hcallOwn⟩
  · rw [h.rescanItem_finished position hitem hc (by simpa using hgiven)]
    exact ⟨_, List.mem_append_right _ (List.mem_singleton_self _), .inr rfl⟩

theorem rescanItems (items : List Json) (h : who.Tracks told d) (position : Nat)
    (hagree : ∀ item ∈ items, ∀ c ∈ callOf item, who.Agrees (.ofItem none c)) {item : Json} {c : CallItem}
    {name : String} (hmem : item ∈ items) (hitem : callOf item = some c) (hid : c.id = some who.itemId)
    (hcall : c.callId = some who.callId) (hname : c.name = some name) (hfull : name ≠ "") :
    ∃ call ∈ told ++ toolCalls (d.rescanItems position items).1, who.Own call.id := by
  induction items generalizing told d position with
  | nil => cases hmem
  | cons first items ih =>
    unfold Decoder.rescanItems
    simp only [toolCalls_append, ← List.append_assoc]
    rcases List.mem_cons.1 hmem with rfl | hmem
    · obtain ⟨call, hcallMem, hown⟩ := h.rescanItem_own position hitem hid hcall hname hfull
      exact ⟨call, List.mem_append_left _ hcallMem, hown⟩
    · have hfirst := h.rescanItem position (hagree first (List.mem_cons_self ..))
      exact ih hfirst (position + 1) (fun other hother => hagree other (List.mem_cons_of_mem _ hother)) hmem

end Tracks

/-! ## A whole stream -/

namespace Tracks

variable {told : List ToolCall} {d : Decoder}

theorem run (payloads : List String) (h : who.Tracks told d)
    (hagree : ∀ payload ∈ payloads, ∀ read ∈ (Signal.ofText payload).toOption, ∀ t ∈ read.2.targets, who.Agrees t)
    (hnamed : ∀ payload ∈ payloads, ∀ read ∈ (Signal.ofText payload).toOption, ¬ who.Unnamed read.2) :
    who.Tracks (told ++ toolCalls ((ModelStream.Decoder.responses d).drive (payloads.map .payload)).1)
      (d.readAll payloads) := by
  induction payloads generalizing told d with
  | nil => simpa [ModelStream.Decoder.drive, Decoder.readAll] using h
  | cons payload payloads ih =>
    have hstep := h.step (hagree payload (List.mem_cons_self ..)) (hnamed payload (List.mem_cons_self ..))
    have hrest := ih hstep (fun other hother => hagree other (List.mem_cons_of_mem _ hother))
      (fun other hother => hnamed other (List.mem_cons_of_mem _ hother))
    rwa [List.map_cons, Decoder.drive_payload, ← List.append_assoc]

theorem drive (payloads : List String) (h : who.Tracks told d)
    (hagree : ∀ payload ∈ payloads, ∀ read ∈ (Signal.ofText payload).toOption, ∀ t ∈ read.2.targets, who.Agrees t)
    (hnamed : ∀ payload ∈ payloads, ∀ read ∈ (Signal.ofText payload).toOption, ¬ who.Unnamed read.2)
    (rest : List Input) :
    ∃ told' d', who.Tracks (told ++ told') d' ∧
      toolCalls ((ModelStream.Decoder.responses d).drive (payloads.map .payload ++ rest)).1 =
        told' ++ toolCalls ((ModelStream.Decoder.responses d').drive rest).1 :=
  ⟨_, d.readAll payloads, h.run payloads hagree hnamed, Decoder.drive_append payloads rest d⟩

end Tracks

/-- A call that the closing response lists by name and with both its ids is given out by the end of the
stream, under one of the two, whatever was said of it before: as long as nothing else shares an identifier
with it, and no announcement gave it an empty name. -/
theorem listed_given {who : Identifiers} {name : String} {payloads : List String} {last : String}
    (hagree : ∀ payload ∈ payloads ++ [last], ∀ read ∈ (Signal.ofText payload).toOption,
      ∀ t ∈ read.2.targets, who.Agrees t)
    (hnamed : ∀ payload ∈ payloads, ∀ read ∈ (Signal.ofText payload).toOption, ¬ who.Unnamed read.2)
    (hlast : ∃ read ∈ (Signal.ofText last).toOption, who.Listed name read.2)
    (hfull : who.itemId ≠ "" ∧ who.callId ≠ "" ∧ name ≠ "") :
    ∃ call ∈ toolCalls ((ModelStream.Decoder.responses {}).drive
      (payloads.map .payload ++ [.payload last, .finish])).1, call.id = who.itemId ∨ call.id = who.callId := by
  have hids : ∀ id, who.Own id → id ≠ "" := by
    rintro id (rfl | rfl)
    · exact hfull.1
    · exact hfull.2.1
  obtain ⟨told, d, htracks, hdrive⟩ := (Tracks.start hids).drive payloads
    (fun payload hp => hagree payload (List.mem_append_left _ hp)) hnamed [.payload last, .finish]
  obtain ⟨⟨raw, signal⟩, hread, hlisted⟩ := hlast
  have hlastAgree := hagree last (List.mem_append_right _ (List.mem_singleton_self last)) _ hread
  rw [hdrive]
  cases signal with
  | ended outcome response =>
    obtain ⟨item, hmem, c, hitem, hid, hcall, hname⟩ := hlisted
    have hstep : d.step last = { state := (d.close outcome response).2, events := (d.close outcome response).1
                                 flow := .finish } := by
      simp only [Decoder.step, Signal.ofText_of_mem hread]
      rfl
    obtain ⟨hsilent, hcalls, hindices, hkept⟩ := d.close_calls outcome response
    have hreopen : who.Tracks told ((d.close outcome response).2.reopen response) := htracks.of_eq hcalls hindices
    obtain ⟨call, hcallMem, hown⟩ := hreopen.rescanItems response.output 0
      (fun other hother c' hc' => hlastAgree _ (List.mem_map.2 ⟨c', List.mem_filterMap.2 ⟨other, hother, hc'⟩, rfl⟩))
      hmem hitem hid hcall hname hfull.2.2
    refine ⟨call, ?_, hown⟩
    have hrescan : (d.step last).state.rescan =
        ((d.close outcome response).2.reopen response).rescanItems 0 response.output := by
      simp only [hstep, Decoder.rescan, hkept]
    show call ∈ told ++ toolCalls ((d.step last).events ++ ((d.step last).state.finish.1 ++ []))
    -- the end reads the closing response first
    show call ∈ told ++ toolCalls ((d.step last).events ++
      ((d.step last).state.rescan.1 ++ (d.step last).state.rescan.2.boards.finish.1 ++ []))
    rw [hrescan]
    simp only [toolCalls_append, hstep, hsilent, List.nil_append]
    rcases List.mem_append.1 hcallMem with hold | hnew
    · exact List.mem_append_left _ hold
    · exact List.mem_append_right _ (List.mem_append_left _ (List.mem_append_left _ hnew))
  | _ => exact hlisted.elim

/-- Arguments for an item id that was not announced, then an announcement without a call id and a name:
two drafts, neither of which could be given out. -/
theorem listed_given_half_open :
    let who : Identifiers := { index := 3, itemId := "fc", callId := "call" }
    let payloads : List String :=
      [ "\x7b\"type\":\"response.function_call_arguments.delta\",\"item_id\":\"fc\",\"delta\":\"[\"\x7d",
        "\x7b\"type\":\"response.output_item.added\",\"output_index\":3,\"item\":
          \x7b\"type\":\"function_call\",\"id\":\"fc\",\"name\":null\x7d\x7d" ]
    let last := "\x7b\"type\":\"response.incomplete\",\"response\":\x7b\"output\":
      [\x7b\"type\":\"function_call\",\"id\":\"fc\",\"call_id\":\"call\",\"name\":\"f\"\x7d]\x7d\x7d"
    (∀ payload ∈ payloads ++ [last], ∀ read ∈ (Signal.ofText payload).toOption,
        ∀ t ∈ read.2.targets, who.Agrees t) ∧
      (∀ payload ∈ payloads, ∀ read ∈ (Signal.ofText payload).toOption, ¬ who.Unnamed read.2) ∧
      (∃ read ∈ (Signal.ofText last).toOption, who.Listed "f" read.2) ∧
      ∃ call ∈ toolCalls ((ModelStream.Decoder.responses {}).drive
        (payloads.map .payload ++ [.payload last, .finish])).1, call.id = "fc" ∨ call.id = "call" := by
  intro who payloads last
  have hagree : ∀ payload ∈ payloads ++ [last], ∀ read ∈ (Signal.ofText payload).toOption,
      ∀ t ∈ read.2.targets, who.Agrees t := by decide +kernel
  have hnamed : ∀ payload ∈ payloads, ∀ read ∈ (Signal.ofText payload).toOption, ¬ who.Unnamed read.2 := by
    decide +kernel
  have hlast : ∃ read ∈ (Signal.ofText last).toOption, who.Listed "f" read.2 := by decide +kernel
  exact ⟨hagree, hnamed, hlast, listed_given hagree hnamed hlast (by decide)⟩

/-- A call announced under an empty name is lost: the name that the closing response has for it is not
taken over, and a draft with an empty name is not given out. -/
theorem listed_lost_placeholder :
    let who : Identifiers := { index := 0, itemId := "fc", callId := "call" }
    let added := "\x7b\"type\":\"response.output_item.added\",\"output_index\":0,\"item\":
      \x7b\"type\":\"function_call\",\"id\":\"fc\",\"call_id\":\"call\",\"name\":\"\"\x7d\x7d"
    let last := "\x7b\"type\":\"response.completed\",\"response\":\x7b\"output\":
      [\x7b\"type\":\"function_call\",\"id\":\"fc\",\"call_id\":\"call\",\"name\":\"f\"\x7d]\x7d\x7d"
    (∀ payload ∈ [added, last], ∀ read ∈ (Signal.ofText payload).toOption, ∀ t ∈ read.2.targets, who.Agrees t) ∧
      (∃ read ∈ (Signal.ofText last).toOption, who.Listed "f" read.2) ∧
      ¬ ∃ call ∈ toolCalls ((ModelStream.Decoder.responses {}).drive [.payload added, .payload last, .finish]).1,
        call.id = "fc" ∨ call.id = "call" := by
  intro who added last
  refine ⟨by decide +kernel, by decide +kernel, by decide +kernel⟩

end Identifiers

end ModelStream.Responses
