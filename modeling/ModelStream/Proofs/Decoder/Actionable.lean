/-
Calls that can be acted on. Whatever the backend and the inputs, a call that is given out has a name, and
its arguments are the value of its argument text (`Boards.Moves.formed`). It also has an id, since a draft
without one goes out under the text of its key, and that is empty for the empty id alone. Only Responses
streams file calls under ids. There a call goes out without an id where a completion by name, which has no
id but perhaps the empty one, is filed under the empty id (`calls_actionable`, `calls_without_id`); an index,
or an item id that was announced, files it elsewhere.

`CallBoard.Addressed` is what every operation keeps: no draft under the empty id has a name or an id, since
whatever names it also takes it off the board.
-/
import ModelStream.Proofs.Anthropic.Signals
import ModelStream.Proofs.Chat.Channels
import ModelStream.Proofs.Responses.Rescan

namespace ModelStream

/-! ## Name and arguments -/

/-- Has a name, and the value of its argument text as its arguments. -/
structure ToolCall.Formed (call : ToolCall) : Prop where
  name : call.name ≠ ""
  arguments : call.arguments = parseArguments call.rawArguments

theorem CallBoard.complete_formed {b c : CallBoard} {key : CallKey} {call : ToolCall}
    (h : b.complete key = (some call, c)) : call.Formed := by
  obtain ⟨d, -, hname, hcall, -, -⟩ := complete_some h
  refine ⟨fun hempty => ?_, by rw [hcall]⟩
  rw [hempty] at hname
  simpa using (Option.filter_eq_some_iff.1 hname).2

namespace Boards

theorem Move.formed {b c : Boards} {events : List Event} (h : Move b events c) :
    ∀ call ∈ toolCalls events, call.Formed := by
  cases h with
  | tell h => simp [toolCalls_cons, h.call?]
  | learn | draft | discard | mark | begin | annotate => simp
  | @complete key call calls h =>
    rw [toolCalls_map]
    intro given hgiven
    cases Option.mem_toList.1 hgiven
    exact CallBoard.complete_formed h
  | @push key segment event reasoning h =>
    have hpush := b.reasoning.push_calls key segment
    rw [h] at hpush
    simp [hpush]
  | @finish key payload event reasoning h =>
    have hfinish := b.reasoning.finish_calls key payload
    rw [h] at hfinish
    simp [hfinish]

theorem Moves.formed {b c : Boards} {events : List Event} (h : Moves b events c) :
    ∀ call ∈ toolCalls events, call.Formed := by
  induction h with
  | nil => simp
  | cons move _ ih =>
    rw [toolCalls_append]
    exact List.forall_mem_append.2 ⟨move.formed, ih⟩

theorem finish_formed (b : Boards) : ∀ call ∈ toolCalls b.finish.1, call.Formed := by
  cases h : b.closing.finished with
  | true => simp [finish_of_finished h]
  | false =>
    obtain ⟨events, c, hmoves, hevents, -⟩ := finish_of_open h
    rw [hevents, toolCalls_append]
    exact List.forall_mem_append.2 ⟨hmoves.formed, by simp [toolCalls_cons, Event.call?]⟩

end Boards

namespace Decoder

theorem take_formed (d : Decoder) (input : Input) : ∀ call ∈ toolCalls (d.take input).1, call.Formed := by
  cases input with
  | payload text => exact (d.step_moves text).formed
  | finish =>
    obtain ⟨events, b, hmoves, hevents, -⟩ := d.finish_moves
    show ∀ call ∈ toolCalls d.finish.1, call.Formed
    rw [hevents, toolCalls_append]
    exact List.forall_mem_append.2 ⟨hmoves.formed, b.finish_formed⟩

theorem drive_formed (inputs : List Input) (d : Decoder) : ∀ call ∈ toolCalls (d.drive inputs).1, call.Formed := by
  induction inputs generalizing d with
  | nil => simp [drive]
  | cons input more ih =>
    show ∀ call ∈ toolCalls ((d.take input).1 ++ ((d.take input).2.drive more).1), call.Formed
    rw [toolCalls_append]
    exact List.forall_mem_append.2 ⟨d.take_formed input, ih _⟩

end Decoder

/-! ## Ids -/

/-- Only the empty id has no text. -/
theorem CallKey.text_eq_empty {key : CallKey} : key.text = "" ↔ key = .id "" := by
  cases key with
  | index n => simp [text]
  | id s => simp [text]

/-- A draft goes out without an id only under the empty id. -/
theorem CallDraft.callId_eq_empty {d : CallDraft} {key : CallKey} :
    d.callId key = "" ↔ nonEmpty d.id = none ∧ key = .id "" := by
  unfold callId
  cases h : nonEmpty d.id with
  | none => simp [CallKey.text_eq_empty]
  | some id =>
    have hne : id ≠ "" := by simpa using (Option.filter_eq_some_iff.1 h).2
    simp [hne]

namespace CallBoard

/-- Drafts under the empty id have neither a name nor an id. -/
def Addressed (b : CallBoard) : Prop :=
  ∀ draft, (.id "", draft) ∈ b.drafts → draft.name = none ∧ nonEmpty draft.id = none

/-- A board where every draft with a name has an address is left as such a board, and the calls given out
have ids, unless this is `stray`. -/
structure Delivers (stray : Prop) (b : CallBoard) (events : List Event) (c : CallBoard) : Prop where
  addressed : b.Addressed → c.Addressed
  ids : b.Addressed → ∀ call ∈ toolCalls events, call.id = "" → stray

variable {stray other : Prop} {b c d : CallBoard} {events later : List Event} {key : CallKey}

theorem Addressed.empty : ({} : CallBoard).Addressed := by
  intro draft h
  cases h

/-- What a draft under the empty id says, if there is one. -/
theorem Addressed.getD (h : b.Addressed) :
    ((b.get? (.id "")).getD {}).name = none ∧ nonEmpty ((b.get? (.id "")).getD {}).id = none := by
  cases hget : b.get? (.id "") with
  | none => exact ⟨rfl, rfl⟩
  | some draft => exact h draft (Ordered.mem_of_get? hget)

/-- A search by an id that is not empty does not lead to the empty id. -/
theorem Addressed.find? (h : b.Addressed) {id : String} (hfind : b.find? id = some (.id "")) : id = "" := by
  unfold CallBoard.find? at hfind
  split at hfind
  · exact CallKey.id.inj (Option.some.inj hfind)
  · obtain ⟨⟨found, draft⟩, hdraft, hkey⟩ := Option.map_eq_some_iff.1 hfind
    subst hkey
    have hid : draft.id = some id := by simpa using List.find?_some hdraft
    have hempty := (h draft (List.mem_of_find?_eq_some hdraft)).2
    rw [hid] at hempty
    by_contra hne
    rw [nonEmpty_some hne] at hempty
    cases hempty

/-- Completing a key leaves the drafts of the others. -/
theorem mem_complete {p : CallKey × CallDraft} (h : p ∈ (b.complete key).2.drafts) : p ∈ b.drafts ∧ p.1 ≠ key := by
  have hdrafts : (b.complete key).2.drafts = Ordered.erase b.drafts key := by
    rcases hcomplete : b.complete key with ⟨_ | call, c⟩
    · rw [complete_none hcomplete]
      rfl
    · obtain ⟨d, -, -, -, -, rfl⟩ := complete_some hcomplete
      rfl
  rw [hdrafts] at h
  exact ⟨Ordered.mem_of_mem_erase h, by simpa using (List.mem_filter.1 h).2⟩

namespace Delivers

theorem trans (h : Delivers stray b events c) (k : Delivers stray c later d) : Delivers stray b (events ++ later) d where
  addressed hb := k.addressed (h.addressed hb)
  ids hb := by
    rw [toolCalls_append]
    exact List.forall_mem_append.2 ⟨h.ids hb, k.ids (h.addressed hb)⟩

theorem mono (h : Delivers stray b events c) (hother : stray → other) : Delivers other b events c where
  addressed := h.addressed
  ids hb call hcall hempty := hother (h.ids hb call hcall hempty)

theorem quiet (hcalls : c = b) (hsilent : toolCalls events = []) : Delivers stray b events c where
  addressed hb := hcalls ▸ hb
  ids _ := by simp [hsilent]

/-- A draft under the empty id is given neither a name nor an id. -/
theorem update {change : CallDraft → CallDraft}
    (h : key = .id "" → ∀ draft, draft.name = none ∧ nonEmpty draft.id = none →
      (change draft).name = none ∧ nonEmpty (change draft).id = none) : Delivers stray b [] (b.update key change) where
  addressed hb draft hdraft := by
    rcases Ordered.mem_of_mem_put hdraft with heq | hold
    · obtain ⟨hkey, rfl⟩ := Prod.mk.inj heq
      subst hkey
      exact h rfl _ hb.getD
    · exact hb draft hold
  ids _ := by simp

theorem index (b : CallBoard) (n : Nat) (change : CallDraft → CallDraft) : Delivers stray b [] (b.update (.index n) change) :=
  update nofun

theorem discard (b : CallBoard) (key : CallKey) : Delivers stray b [] (b.discard key) where
  addressed hb draft hdraft := hb draft (Ordered.mem_of_mem_erase hdraft)
  ids _ := by simp

theorem foldl_mark (ids : List String) (b : CallBoard) : Delivers stray b [] (ids.foldl mark b) := by
  induction ids generalizing b with
  | nil => exact quiet rfl rfl
  | cons id ids ih => exact ⟨fun hb => (ih (b.mark id)).addressed hb, fun hb => (ih (b.mark id)).ids hb⟩

theorem complete (b : CallBoard) (key : CallKey) :
    Delivers stray b ((b.complete key).1.toList.map .toolCall) (b.complete key).2 where
  addressed hb draft hdraft := hb draft (mem_complete hdraft).1
  ids hb := by
    rw [toolCalls_map]
    intro call hcall hempty
    obtain ⟨draft, hdraft, hname, heq, -, -⟩ := complete_some (Prod.ext (Option.mem_toList.1 hcall) rfl)
    rw [heq] at hempty
    obtain ⟨-, rfl⟩ := CallDraft.callId_eq_empty.1 hempty
    rw [(hb draft (Ordered.mem_of_get? hdraft)).1] at hname
    cases hname

theorem completeAll (keys : List CallKey) (b : CallBoard) :
    Delivers stray b ((completeAll keys b).1.map .toolCall) (completeAll keys b).2 := by
  induction keys generalizing b with
  | nil => exact quiet rfl rfl
  | cons key keys ih =>
    show Delivers stray b (((b.complete key).1.toList ++ _).map .toolCall) _
    rw [List.map_append]
    exact (complete b key).trans (ih _)

theorem drain (b : CallBoard) : Delivers stray b (b.drain.1.map .toolCall) b.drain.2 := completeAll _ b

end Delivers

end CallBoard

open CallBoard (Addressed Delivers)

theorem Boards.finish_delivers (b : Boards) : Delivers False b.calls b.finish.1 b.finish.2.calls := by
  cases h : b.closing.finished with
  | true =>
    rw [finish_of_finished h]
    exact .quiet rfl rfl
  | false =>
    have hcalls : b.finish.2.calls = b.calls.drain.2 := by simp [finish, Closing.finish, h]
    have hdrain : Delivers False b.calls (b.calls.drain.1.map .toolCall) b.calls.drain.2 := .drain b.calls
    rw [hcalls]
    exact ⟨hdrain.addressed, by simpa [finish_calls h] using hdrain.ids⟩

/-! ## Streams that file calls under indices -/

theorem Anthropic.Decoder.apply_delivers (d : Anthropic.Decoder) (s : Anthropic.Signal) :
    Delivers False d.calls (d.apply s).events (d.apply s).state.calls := by
  cases hbegins : s.begins? with
  | some block =>
    rw [apply_of_begins hbegins]
    dsimp only
    exact .index d.calls block.index _
  | none =>
    cases hfragment : s.fragment? with
    | some f =>
      rw [apply_of_fragment hfragment]
      dsimp only [CallBoard.append]
      exact .index d.calls f.1 _
    | none =>
      by_cases hstop : ∀ index, s = .blockStop index → d.calls.get? (.index index) = none
      · obtain ⟨hcalls, hsilent, -⟩ := d.apply_aside hbegins hfragment hstop
        exact .quiet hcalls hsilent
      · push Not at hstop
        obtain ⟨index, rfl, hopen⟩ := hstop
        have hhas : Ordered.has d.calls.drafts (.index index) = true := Option.isSome_iff_ne_none.2 hopen
        simp only [apply, stopBlock, hhas, if_true]
        split <;> exact .complete d.calls (.index index)

theorem Anthropic.Decoder.step_delivers (d : Anthropic.Decoder) (payload : String) :
    Delivers False d.calls (d.step payload).events (d.step payload).state.calls := by
  unfold step
  split
  · exact apply_delivers d _
  · exact .quiet rfl rfl

namespace Chat.Decoder

theorem think?_delivers (d : Decoder) (text : Option String) :
    Delivers False d.calls (d.think? text).1 (d.think? text).2.calls := by
  cases text with
  | none => exact .quiet rfl rfl
  | some text =>
    obtain ⟨-, hcalls, hmute⟩ := d.think_mute text
    exact .quiet hcalls (toolCalls_of_mute hmute)

theorem read?_delivers (d : Decoder) (content : Option String) :
    Delivers False d.calls (d.read? content).1 (d.read? content).2.calls := by
  unfold read?
  split
  · next text _ =>
    obtain ⟨-, hcalls, hsilent, -⟩ := tell_channels (d.tags.push text).1 { d with tags := (d.tags.push text).2 }
    exact .quiet hcalls hsilent
  · exact .quiet rfl rfl

theorem addFragment_delivers (d : Decoder) (index : Nat) (id : Option String) (function : Option FunctionDelta) :
    Delivers False d.calls [] (d.addFragment (.index index) id function).calls := by
  dsimp only [addFragment]
  exact .index d.calls index _

theorem addFragments_delivers (deltas : List CallDelta) (d : Decoder) (position : Nat) :
    Delivers False d.calls [] (d.addFragments position deltas).calls := by
  induction deltas generalizing d position with
  | nil => exact .quiet rfl rfl
  | cons c more ih =>
    exact (addFragment_delivers d (c.index.getD position) c.id c.function).trans (ih _ _)

theorem addFunction?_delivers (d : Decoder) (function : Option FunctionDelta) :
    Delivers False d.calls [] (d.addFunction? function).calls := by
  cases function with
  | none => exact .quiet rfl rfl
  | some function => exact addFragment_delivers d 0 none (some function)

theorem applyDelta?_delivers (d : Decoder) (delta : Option Delta) :
    Delivers False d.calls (d.applyDelta? delta).1 (d.applyDelta? delta).2.calls := by
  cases delta with
  | none => exact .quiet rfl rfl
  | some delta =>
    have hfirst := think?_delivers d delta.reasoningContent
    rcases h₁ : d.think? delta.reasoningContent with ⟨first, d₁⟩
    have hsecond := think?_delivers d₁ delta.reasoning
    rcases h₂ : d₁.think? delta.reasoning with ⟨second, d₂⟩
    have hthird := read?_delivers d₂ delta.content
    rcases h₃ : d₂.read? delta.content with ⟨third, d₃⟩
    rw [h₁] at hfirst
    rw [h₂] at hsecond
    rw [h₃] at hthird
    have hcalls := (addFragments_delivers (delta.toolCalls.getD []) d₃ 0).trans
      (addFunction?_delivers _ delta.functionCall)
    simp only [applyDelta?, applyDelta, h₁, h₂, h₃]
    simpa using ((hfirst.trans hsecond).trans hthird).trans hcalls

theorem applyReason?_delivers (d : Decoder) (reason : Option String) :
    Delivers False d.calls (d.applyReason? reason).events (d.applyReason? reason).state.calls := by
  cases reason with
  | none => exact .quiet rfl rfl
  | some reason =>
    simp only [applyReason?, applyReason]
    split
    · exact .drain d.calls
    · split <;> exact .quiet rfl rfl

theorem applyChoices_delivers (choices : List Choice) (d : Decoder) :
    Delivers False d.calls (d.applyChoices choices).events (d.applyChoices choices).state.calls := by
  induction choices generalizing d with
  | nil => exact .quiet rfl rfl
  | cons choice more ih =>
    have hdelta := applyDelta?_delivers d choice.delta
    have hchoice : Delivers False d.calls (d.applyChoice choice).events (d.applyChoice choice).state.calls :=
      hdelta.trans (applyReason?_delivers _ choice.finishReason)
    exact hchoice.trans (ih _)

theorem step_delivers (d : Decoder) (payload : String) :
    Delivers False d.calls (d.step payload).events (d.step payload).state.calls := by
  unfold step
  split
  · next chunk _ =>
    have herror : toolCalls (chunk.error.map errorEvent).toList = [] := by cases chunk.error <;> rfl
    have hlearn : ∀ closing : Closing, Delivers False d.calls (chunk.error.map errorEvent).toList { d with closing }.calls :=
      fun _ => .quiet rfl herror
    exact (hlearn _).trans (applyChoices_delivers (chunk.choices.getD []) _)
  · exact .quiet rfl rfl

theorem finish_delivers (d : Decoder) : Delivers False d.calls d.finish.1 d.finish.2.calls := by
  obtain ⟨-, hcalls, hsilent, -⟩ := tell_channels d.tags.finish.1 { d with tags := d.tags.finish.2 }
  exact (Delivers.quiet hcalls hsilent).trans (Boards.finish_delivers (tell { d with tags := d.tags.finish.2 } _).2.boards)

end Chat.Decoder

/-! ## Streams that file calls under ids -/

namespace Responses

/-- Names a call whose call id, or item id where there is none, is empty. -/
def CallItem.Stray (c : CallItem) : Prop := (c.callId <|> c.id) = some "" ∧ (nonEmpty c.name).isSome

/-- Lists a stray call. -/
def Response.Stray (response : Response) : Prop := ∃ item ∈ response.output, ∃ c ∈ callOf item, c.Stray

/-- Completes a call by name that has no index and whose call id, or item id where there is none, is
missing or empty; or ends the stream with a response that lists a stray call. -/
def Signal.Stray : Signal → Prop
  | .argumentsDone target arguments =>
    target.index = none ∧ nonEmpty (target.callId <|> target.itemId) = none ∧ (nonEmpty arguments.name).isSome
  | .ended _ response => response.Stray
  | _ => False

/-- Spells a stray signal. -/
def Stray (payload : String) : Prop := ∃ read ∈ (Signal.ofText payload).toOption, read.2.Stray

namespace Decoder

/-- Completes a call by name that is filed under the empty id here, and brings no other id. -/
def StraySignal (d : Decoder) (signal : Signal) : Prop :=
  ∃ c, d.completion signal = some (.id "", c) ∧ nonEmpty (c.callId <|> c.id) = none ∧ (nonEmpty c.name).isSome

/-- Lists a stray call that is filed under the empty id here. -/
def StrayItem (d : Decoder) (item : Json) : Prop := ∃ c ∈ callOf item, c.Stray ∧ d.foundKey c "" = .id ""

/-- Completes a call under the empty id: a payload by its signal, the end by an item of the closing response. -/
def Strays (d : Decoder) : Input → Prop
  | .payload text => ∃ read ∈ (Signal.ofText text).toOption, d.StraySignal read.2
  | .finish => ∃ response ∈ d.last, ∃ before item after, response.output = before ++ item :: after ∧
      ((d.reopen response).rescanItems 0 before).2.StrayItem item

variable {stray : Prop} {d : Decoder} {key : CallKey} {c : CallItem}

/-- A completion gives out calls with ids only, unless it is filed under the empty id with a name, and leaves
the draft there without an id. -/
theorem completeCall_delivers (d : Decoder) (key : CallKey) (c : CallItem)
    (h : key = .id "" → (nonEmpty c.name).isSome → d.calls.Addressed →
      nonEmpty (c.fill ((d.calls.get? key).getD {})).id = none → stray) :
    Delivers stray d.calls (d.completeCall key c).1 (d.completeCall key c).2.calls := by
  have hcomplete : Delivers stray d.calls (((d.calls.update key c.fill).complete key).1.toList.map .toolCall)
      ((d.calls.update key c.fill).complete key).2 := by
    refine ⟨fun hb draft hdraft => ?_, fun hb => ?_⟩
    · -- the draft that was filled in is off the board again
      obtain ⟨hmem, hne⟩ := CallBoard.mem_complete hdraft
      rcases Ordered.mem_of_mem_put hmem with heq | hold
      · exact (hne (congrArg Prod.fst heq)).elim
      · exact hb draft hold
    · rw [toolCalls_map]
      intro call hcall hempty
      obtain ⟨draft, hdraft, hname, heq, -, -⟩ := CallBoard.complete_some (Prod.ext (Option.mem_toList.1 hcall) rfl)
      rw [CallBoard.get?_update_self, Option.some.injEq] at hdraft
      subst hdraft
      rw [heq] at hempty
      obtain ⟨hid, rfl⟩ := CallDraft.callId_eq_empty.1 hempty
      -- the draft has no name of its own, so the name is that of the completion
      have hfill : (c.fill ((d.calls.get? (.id "")).getD {})).name = c.name := by simp [CallItem.fill, hb.getD.1]
      refine h rfl ?_ hb hid
      rw [← hfill, hname]
      rfl
  unfold completeCall
  split
  · exact .discard d.calls key
  · split
    · next call calls hgiven =>
      rw [hgiven] at hcomplete
      simpa using hcomplete.trans (.foldl_mark (c.id.toList ++ c.callId.toList) calls)
    · next calls hgiven =>
      rw [hgiven] at hcomplete
      exact hcomplete

/-- An event about arguments is filed under the empty id only if it has no index, and its id is missing or
empty. -/
theorem of_callKey_empty (hb : d.calls.Addressed) {target : Target} (h : d.callKey target = .id "") :
    target.index = none ∧ nonEmpty (target.callId <|> target.itemId) = none := by
  unfold callKey at h
  simp only at h
  split at h
  · cases h
  · cases h
  · next hindex _ =>
    refine ⟨hindex, ?_⟩
    cases hid : target.callId <|> target.itemId with
    | none => rfl
    | some id =>
      have hkey : (d.calls.find? id).getD (.id id) = .id "" := by simpa only [hid] using h
      cases hfind : d.calls.find? id with
      | none =>
        rw [hfind] at hkey
        rw [CallKey.id.inj hkey]
        rfl
      | some key =>
        rw [hfind] at hkey
        rw [hb.find? (hfind.trans (congrArg some hkey))]
        rfl

/-- A piece of arguments leaves a draft under the empty id without an id. -/
theorem grow_delivers (hb : d.calls.Addressed) (target : Target) (fragment : String) :
    Delivers False d.calls [] (d.calls.update (d.callKey target) fun draft =>
      { draft with id := draft.id <|> target.callId, arguments := draft.arguments ++ fragment }) := by
  refine .update fun hkey draft hdraft => ⟨hdraft.1, ?_⟩
  have htarget := (of_callKey_empty hb hkey).2
  cases hid : draft.id with
  | some id => simpa [hid] using hdraft.2
  | none =>
    cases hcall : target.callId with
    | none => rfl
    | some call => simpa [hcall] using htarget

theorem apply_apart_delivers (d : Decoder) (raw : Json) {signal : Signal} (h : signal.Apart) :
    Delivers stray d.calls (d.apply raw signal).events (d.apply raw signal).state.calls :=
  .quiet (d.apply_quiet raw h).1.calls (d.apply_quiet raw h).1.silent

theorem apply_delivers (d : Decoder) (raw : Json) (signal : Signal) :
    Delivers (d.StraySignal signal) d.calls (d.apply raw signal).events (d.apply raw signal).state.calls := by
  cases signal with
  | itemAdded index item =>
    simp only [apply, announce]
    split
    · split
      · exact .quiet rfl rfl
      · dsimp only
        exact .index d.calls index _
    · exact .quiet rfl rfl
  | itemDone index item =>
    cases hitem : callOf item with
    | none => exact .quiet (d.finishItem_quiet index hitem).calls (d.finishItem_quiet index hitem).silent
    | some c =>
      simp only [apply, finishItem, callOf_eq_some.1 hitem]
      exact completeCall_delivers d (.index index) c fun hkey => by cases hkey
  | argumentsDelta target fragment =>
    dsimp only [apply]
    exact ⟨fun hb => (grow_delivers hb target fragment).addressed hb, fun _ => by simp⟩
  | argumentsDone target arguments =>
    refine completeCall_delivers d (d.callKey target) _ fun hkey hname hb _ => ?_
    obtain ⟨-, hid⟩ := of_callKey_empty hb hkey
    exact ⟨_, congrArg (fun key => some (key, _)) hkey, hid, hname⟩
  | ended outcome response =>
    obtain ⟨hsilent, hcalls, -⟩ := d.close_calls outcome response
    exact .quiet hcalls hsilent
  | started | textDelta | note | reasoningDelta | error | idle =>
    refine apply_apart_delivers d raw ?_
    trivial

theorem step_delivers (d : Decoder) (payload : String) :
    Delivers (d.Strays (.payload payload)) d.calls (d.step payload).events (d.step payload).state.calls := by
  unfold step
  cases hread : Signal.ofText payload with
  | error problem => exact .quiet rfl rfl
  | ok read =>
    have hmem : read ∈ (Signal.ofText payload).toOption := by rw [hread]; rfl
    exact (apply_delivers d read.1 read.2).mono fun hstray => ⟨read, hmem, hstray⟩

/-! ### The closing response -/

/-- Merged into the draft under the empty id, an item of the closing response leaves that draft without an id
only if its own is empty: else the draft takes the call id of the item. -/
theorem fill_id_of_found (hb : d.calls.Addressed) {primary : String} (hprimary : (c.callId <|> c.id) = some primary)
    (hkey : d.foundKey c primary = .id "")
    (hid : nonEmpty (c.fill ((d.calls.get? (.id "")).getD {})).id = none) : primary = "" := by
  by_contra hne
  -- so the empty id is the item's own id, and the call id is another
  have hfound : ∃ id ∈ c.callId.toList ++ c.id.toList, id = "" := by
    unfold foundKey at hkey
    cases hfind : (c.callId.toList ++ c.id.toList).findSome? d.calls.find? with
    | none =>
      rw [hfind] at hkey
      exact (hne (CallKey.id.inj hkey)).elim
    | some key =>
      rw [hfind] at hkey
      obtain ⟨id, hmem, hid⟩ := List.exists_of_findSome?_eq_some hfind
      exact ⟨id, hmem, hb.find? (hid.trans (congrArg some hkey))⟩
  obtain ⟨id, hmem, rfl⟩ := hfound
  have hcall : c.callId = some primary := by
    cases hcallId : c.callId with
    | none =>
      have hown : c.id = some "" := by simpa [hcallId] using hmem
      rw [hcallId, hown] at hprimary
      exact (hne (Option.some.inj hprimary).symm).elim
    | some other => rwa [hcallId] at hprimary
  have hown : c.id = some "" := by simpa [hcall, Ne.symm hne] using hmem
  have hdraft := hb.getD.2
  have hfill : (c.fill ((d.calls.get? (.id "")).getD {})).id = some primary := by
    cases hold : ((d.calls.get? (.id "")).getD {}).id with
    | none => simp [CallItem.fill, hold, hcall]
    | some old =>
      have hempty : old = "" := by
        by_contra hold'
        rw [hold, CallBoard.nonEmpty_some hold'] at hdraft
        cases hdraft
      simp [CallItem.fill, hold, hcall, hown, hempty]
  rw [hfill, CallBoard.nonEmpty_some hne] at hid
  cases hid

theorem rescanItem_delivers (d : Decoder) (position : Nat) (item : Json) :
    Delivers (d.StrayItem item) d.calls (d.rescanItem position item).1 (d.rescanItem position item).2.calls := by
  cases hitem : callOf item with
  | none => exact .quiet (d.rescanItem_quiet position hitem).calls (d.rescanItem_quiet position hitem).silent
  | some c =>
    unfold rescanItem
    simp only [callOf_eq_some.1 hitem]
    split
    · exact .quiet rfl rfl
    · cases hprimary : c.callId <|> c.id with
      | none => exact .quiet rfl rfl
      | some primary =>
        refine completeCall_delivers d (d.foundKey c primary) c fun hkey hname hb hid => ?_
        rw [hkey] at hid
        obtain rfl := fill_id_of_found hb hprimary hkey hid
        exact ⟨c, hitem, ⟨hprimary, hname⟩, hkey⟩

theorem rescanItems_delivers (items : List Json) (d : Decoder) (position : Nat) :
    Delivers (∃ before item after, items = before ++ item :: after ∧ (d.rescanItems position before).2.StrayItem item)
      d.calls (d.rescanItems position items).1 (d.rescanItems position items).2.calls := by
  induction items generalizing d position with
  | nil => exact .quiet rfl rfl
  | cons item more ih =>
    refine ((d.rescanItem_delivers position item).mono fun hstray => ?_).trans ((ih _ _).mono ?_)
    · exact ⟨[], item, more, rfl, hstray⟩
    · rintro ⟨before, other, after, rfl, hstray⟩
      exact ⟨item :: before, other, after, rfl, hstray⟩

theorem finish_delivers (d : Decoder) : Delivers (d.Strays .finish) d.calls d.finish.1 d.finish.2.calls := by
  have hrescan : Delivers (d.Strays .finish) d.calls d.rescan.1 d.rescan.2.calls := by
    unfold rescan
    cases hlast : d.last with
    | none => exact .quiet rfl rfl
    | some response =>
      exact (rescanItems_delivers response.output (d.reopen response) 0).mono fun hstray => ⟨response, hlast, hstray⟩
  exact hrescan.trans (d.rescan.2.boards.finish_delivers.mono False.elim)

theorem completeCall_last (d : Decoder) (key : CallKey) (c : CallItem) : (d.completeCall key c).2.last = d.last := by
  unfold completeCall
  split
  · rfl
  · split <;> rfl

theorem rescanItem_last (d : Decoder) (position : Nat) (item : Json) :
    (d.rescanItem position item).2.last = d.last := by
  cases hitem : callOf item with
  | none => exact (d.rescanItem_quiet position hitem).last
  | some c =>
    unfold rescanItem
    simp only [callOf_eq_some.1 hitem]
    split
    · rfl
    · split
      · rfl
      · exact completeCall_last d _ c

theorem rescanItems_last (items : List Json) (d : Decoder) (position : Nat) :
    (d.rescanItems position items).2.last = d.last := by
  induction items generalizing d position with
  | nil => rfl
  | cons item more ih => exact (ih _ _).trans (rescanItem_last d position item)

/-- The closing response is read once more at the first end only. -/
theorem finish_last (d : Decoder) : d.finish.2.last = none := by
  show d.rescan.2.last = none
  unfold rescan
  cases hlast : d.last with
  | none => exact hlast
  | some response => exact rescanItems_last ..

/-- The closing response is the one of the last payload that ended the stream. -/
theorem apply_last (d : Decoder) (raw : Json) (signal : Signal) :
    (d.apply raw signal).state.last = d.last ∨
      ∃ outcome response, signal = .ended outcome response ∧ (d.apply raw signal).state.last = some response := by
  cases signal with
  | ended outcome response => exact .inr ⟨outcome, response, rfl, rfl⟩
  | itemAdded index item =>
    refine .inl ?_
    simp only [apply, announce]
    split
    · split <;> rfl
    · rfl
  | itemDone index item =>
    refine .inl ?_
    cases hitem : callOf item with
    | none => exact (d.finishItem_quiet index hitem).last
    | some c =>
      simp only [apply, finishItem, callOf_eq_some.1 hitem]
      exact completeCall_last d _ c
  | argumentsDelta => exact .inl rfl
  | argumentsDone target arguments => exact .inl (completeCall_last d _ _)
  | started | textDelta | note | reasoningDelta | error | idle =>
    refine .inl (d.apply_quiet raw ?_).1.last
    trivial

theorem step_last (d : Decoder) {payload : String} {response : Response} (h : response ∈ (d.step payload).state.last) :
    response ∈ d.last ∨ (response.Stray → Responses.Stray payload) := by
  unfold step at h
  cases hread : Signal.ofText payload with
  | error problem =>
    rw [hread] at h
    exact .inl h
  | ok read =>
    rw [hread] at h
    have hmem : read ∈ (Signal.ofText payload).toOption := by rw [hread]; rfl
    rcases d.apply_last read.1 read.2 with hsame | ⟨outcome, closing, hsignal, hnew⟩
    · exact .inl (hsame ▸ h)
    · obtain rfl : closing = response := Option.some.inj (hnew.symm.trans h)
      refine .inr fun hstray => ⟨read, hmem, ?_⟩
      rw [hsignal]
      exact hstray

/-- What completes a call under the empty id is stray as it stands: the payload, or the closing response. -/
theorem Strays.spelled (hb : d.calls.Addressed) {input : Input} (h : d.Strays input) :
    (∃ payload, input = .payload payload ∧ Responses.Stray payload) ∨ ∃ response ∈ d.last, response.Stray := by
  cases input with
  | finish =>
    obtain ⟨response, hlast, before, item, after, houtput, c, hitem, hstray, -⟩ := h
    exact .inr ⟨response, hlast, item, by simp [houtput], c, hitem, hstray⟩
  | payload text =>
    obtain ⟨read, hmem, c, hcompletion, hid, hname⟩ := h
    refine .inl ⟨text, rfl, read, hmem, ?_⟩
    revert hcompletion
    cases read.2 with
    | argumentsDone target arguments =>
      intro hcompletion
      obtain ⟨hkey, rfl⟩ := Prod.mk.inj (Option.some.inj hcompletion)
      exact ⟨(of_callKey_empty hb hkey).1, hid, hname⟩
    | itemDone index item =>
      intro hcompletion
      obtain ⟨call, -, hpair⟩ := Option.map_eq_some_iff.1 hcompletion
      cases hpair
    | _ =>
      intro hcompletion
      cases hcompletion

end Decoder

end Responses

/-! ## Every stream -/

namespace Decoder

/-- The closing response of a Responses stream, until the end. -/
def last : Decoder → Option Responses.Response
  | .responses d => d.last
  | _ => none

/-- Completes a call of a Responses stream under the empty id. -/
def Strays : Decoder → Input → Prop
  | .responses d, input => d.Strays input
  | _, _ => False

theorem take_backend (d : Decoder) (input : Input) : (d.take input).2.backend = d.backend := by
  cases d <;> cases input <;> rfl

theorem drive_backend (inputs : List Input) (d : Decoder) : (d.drive inputs).2.backend = d.backend := by
  induction inputs generalizing d with
  | nil => rfl
  | cons input more ih => exact (ih _).trans (d.take_backend input)

theorem take_delivers (d : Decoder) (input : Input) :
    Delivers (d.Strays input) d.boards.calls (d.take input).1 (d.take input).2.boards.calls := by
  cases d with
  | anthropic d =>
    cases input with
    | payload text => exact d.step_delivers text
    | finish => exact d.boards.finish_delivers
  | chat d =>
    cases input with
    | payload text => exact d.step_delivers text
    | finish => exact d.finish_delivers
  | responses d =>
    cases input with
    | payload text => exact d.step_delivers text
    | finish => exact d.finish_delivers

theorem drive_addressed (inputs : List Input) {d : Decoder} (h : d.boards.calls.Addressed) :
    (d.drive inputs).2.boards.calls.Addressed := by
  induction inputs generalizing d with
  | nil => exact h
  | cons input more ih => exact ih ((d.take_delivers input).addressed h)

/-- What completes a call under the empty id is stray as it stands. -/
theorem Strays.spelled {d : Decoder} (hb : d.boards.calls.Addressed) {input : Input} (h : d.Strays input) :
    d.backend = .responses ∧
      ((∃ payload, input = .payload payload ∧ Responses.Stray payload) ∨ ∃ response ∈ d.last, response.Stray) := by
  cases d with
  | responses d => exact ⟨rfl, Responses.Decoder.Strays.spelled hb h⟩
  | anthropic d | chat d => exact h.elim

/-- A closing response that lists a stray call comes from a stray payload. -/
theorem drive_last (inputs : List Input) {d : Decoder} {response : Responses.Response} (hstray : response.Stray)
    (h : response ∈ (d.drive inputs).2.last) :
    response ∈ d.last ∨ ∃ payload, .payload payload ∈ inputs ∧ Responses.Stray payload := by
  induction inputs generalizing d with
  | nil => exact .inl h
  | cons input more ih =>
    rcases ih h with hlast | ⟨payload, hmem, hpayload⟩
    · cases d with
      | anthropic d => cases input <;> cases hlast
      | chat d => cases input <;> cases hlast
      | responses d =>
        cases input with
        | payload text =>
          refine (d.step_last hlast).imp_right fun hspells => ⟨text, List.mem_cons_self .., hspells hstray⟩
        | finish =>
          have hnone : response ∈ d.finish.2.last := hlast
          rw [d.finish_last] at hnone
          cases hnone
    · exact .inr ⟨payload, List.mem_cons_of_mem _ hmem, hpayload⟩

/-- A call of a stream is given out by one of the inputs. -/
theorem exists_input_of_mem {call : ToolCall} {inputs : List Input} {d : Decoder}
    (h : call ∈ toolCalls (d.drive inputs).1) : ∃ before input after, inputs = before ++ input :: after ∧
      call ∈ toolCalls ((d.drive before).2.take input).1 := by
  induction inputs generalizing d with
  | nil => simp [drive] at h
  | cons input more ih =>
    have hall : call ∈ toolCalls ((d.take input).1 ++ ((d.take input).2.drive more).1) := h
    rw [toolCalls_append] at hall
    rcases List.mem_append.1 hall with hfirst | hlater
    · exact ⟨[], input, more, rfl, hfirst⟩
    · obtain ⟨before, other, after, rfl, hcall⟩ := ih hlater
      exact ⟨input :: before, other, after, rfl, hcall⟩

theorem addressed_of_create {backend : Backend} {tags : List String} {d : Decoder} (h : create backend tags = .ok d) :
    d.boards.calls.Addressed ∧ d.last = none ∧ d.backend = backend := by
  have haddressed : d.boards.calls.Addressed := by
    rw [boards_of_create h]
    exact .empty
  refine ⟨haddressed, ?_⟩
  cases backend with
  | anthropic | responses =>
    cases h
    exact ⟨rfl, rfl⟩
  | chat =>
    cases d with
    | chat d => exact ⟨rfl, rfl⟩
    | _ => cases hofTags : Chat.Decoder.ofTags tags <;> simp [create, hofTags] at h

/-- Every call of a stream has a name, and the value of its argument text as its arguments. It has an id too,
unless the stream is a Responses stream and the input that gives the call out completes it under the empty id;
then that input, or the payload whose response it reads once more, is stray. -/
theorem calls_actionable {backend : Backend} {tags : List String} {d : Decoder} (hd : create backend tags = .ok d)
    (inputs : List Input) : ∀ call ∈ toolCalls (d.drive inputs).1,
      call.name ≠ "" ∧ call.arguments = parseArguments call.rawArguments ∧
      (call.id = "" → backend = .responses ∧ ∃ before input after, inputs = before ++ input :: after ∧
        call ∈ toolCalls ((d.drive before).2.take input).1 ∧ (d.drive before).2.Strays input ∧
        ∃ payload, .payload payload ∈ before ++ [input] ∧ Responses.Stray payload) := by
  obtain ⟨haddressed, hlast, rfl⟩ := addressed_of_create hd
  intro call hcall
  obtain ⟨hname, harguments⟩ := d.drive_formed inputs call hcall
  refine ⟨hname, harguments, fun hempty => ?_⟩
  obtain ⟨before, input, after, hinputs, hgiven⟩ := exists_input_of_mem hcall
  have hreached := drive_addressed before haddressed
  have hstrays := ((d.drive before).2.take_delivers input).ids hreached call hgiven hempty
  obtain ⟨hbackend, hspelled⟩ := hstrays.spelled hreached
  refine ⟨(drive_backend before d).symm.trans hbackend, before, input, after, hinputs, hgiven, hstrays, ?_⟩
  rcases hspelled with ⟨payload, rfl, hpayload⟩ | ⟨response, hresponse, hstray⟩
  · exact ⟨payload, by simp, hpayload⟩
  · rcases drive_last before hstray hresponse with hnone | ⟨payload, hmem, hpayload⟩
    · rw [hlast] at hnone
      cases hnone
    · exact ⟨payload, List.mem_append_left _ hmem, hpayload⟩

/-- A payload that is stray as it stands, with an empty call id and arguments that break off, completes a call
that was announced: the item id files it under an index. -/
theorem calls_actionable_by_index :
    let added := "\x7b\"type\":\"response.output_item.added\",\"output_index\":3,\"item\":
      \x7b\"type\":\"function_call\",\"id\":\"fc\",\"name\":\"f\",\"arguments\":\"\"\x7d\x7d"
    let done := "\x7b\"type\":\"response.function_call_arguments.done\",\"item_id\":\"fc\",\"call_id\":\"\",
      \"name\":\"f\",\"arguments\":\"[\"\x7d"
    let inputs : List Input := [.payload added, .payload done, .finish]
    create .responses [] = .ok (.responses {}) ∧
      ∃ call, toolCalls ((Decoder.responses {}).drive inputs).1 = [call] ∧ call.id = "3" ∧ call.rawArguments = "[" ∧
        call.name ≠ "" ∧ call.arguments = parseArguments call.rawArguments ∧
        (call.id = "" → Backend.responses = .responses ∧ ∃ before input after, inputs = before ++ input :: after ∧
          call ∈ toolCalls (((Decoder.responses {}).drive before).2.take input).1 ∧
          ((Decoder.responses {}).drive before).2.Strays input ∧
          ∃ payload, .payload payload ∈ before ++ [input] ∧ Responses.Stray payload) := by
  intro added done inputs
  have hcreate : create .responses [] = .ok (.responses {}) := rfl
  have hcalls : (toolCalls ((Decoder.responses {}).drive inputs).1).map
      (fun call => (call.id, call.rawArguments)) = [("3", "[")] := by decide +kernel
  obtain ⟨call, hcall, hfields⟩ := List.map_eq_singleton_iff.1 hcalls
  obtain ⟨hid, hraw⟩ := Prod.mk.inj hfields
  have hmem : call ∈ toolCalls ((Decoder.responses {}).drive inputs).1 := by simp [hcall]
  exact ⟨hcreate, call, hcall, hid, hraw, calls_actionable hcreate inputs call hmem⟩

/-- A completion by name whose call id is empty: the call goes out without an id, though the payload has an
item id. -/
theorem calls_without_id :
    let done := "\x7b\"type\":\"response.function_call_arguments.done\",\"item_id\":\"fc_1\",\"call_id\":\"\",
      \"name\":\"f\",\"arguments\":\"\x7b\x7d\"\x7d"
    (toolCalls ((Decoder.responses {}).drive [.payload done, .finish]).1).map (fun call => (call.id, call.name)) =
      [("", "f")] := by
  decide +kernel

end Decoder

end ModelStream
