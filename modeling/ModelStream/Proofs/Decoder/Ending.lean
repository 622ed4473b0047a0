/-
What the closing event of a stream reports. A decoder is given payloads up to the first one that ends the
stream, and then the end. Each payload reports something about the end, or nothing (`Decoder.reports`); a step
learns what its payload reports (`Decoder.step_learns`), a run what all its payloads report
(`Decoder.run_learns`), and the end gives out what is known (`Decoder.finish_ending`). So the closing event can
be told from the reports: the first id, the last reason, and the last usage object or all of them laid over
each other (`Decoder.closing_reported`).

What the closing response of a Responses stream says of its status is offered as a reason when the response is
read once more. By then the response has given a reason that outranks it.
-/
import ModelStream.Proofs.Closing
import ModelStream.Proofs.Decoder.CallIds

namespace ModelStream

open Boards (Moves)
open Json (Fields)

/-- Joins a usage object to what is known of the usage: the older entries stay, or the older object goes. -/
def Backend.merge : Backend → Fields → Fields → Fields
  | .anthropic => Fields.overlay
  | .responses | .chat => fun _ usage => usage

/-! ## Chat -/

namespace Chat

/-- What a chunk reports about the end; the reasons are those of its choices. -/
def Chunk.report (chunk : Chunk) : Closing.Report where
  id := nonEmpty chunk.id
  usage := chunk.usage
  reasons := (chunk.choices.getD []).filterMap (·.finishReason)

namespace Decoder

theorem think_closing (d : Decoder) (text : String) : (d.think text).2.closing = d.closing := by
  rcases h : d.reasoning.push .unnamed text with ⟨event, reasoning⟩
  simp only [think, h]

theorem think?_closing (d : Decoder) (text : Option String) : (d.think? text).2.closing = d.closing := by
  cases text with
  | none => rfl
  | some text =>
    rw [think?]
    exact think_closing d text

theorem tell_closing (segments : List InlineTag.Segment) (d : Decoder) : (d.tell segments).2.closing = d.closing := by
  induction segments generalizing d with
  | nil => rfl
  | cons segment more ih =>
    cases segment with
    | visible text => exact ih d
    | reasoning text =>
      rw [tell, ih, think_closing]

theorem read?_closing (d : Decoder) (content : Option String) : (d.read? content).2.closing = d.closing := by
  unfold read?
  split
  · exact tell_closing _ _
  · rfl

theorem addFragments_closing (deltas : List CallDelta) (d : Decoder) (position : Nat) :
    (d.addFragments position deltas).closing = d.closing := by
  induction deltas generalizing d position with
  | nil => rfl
  | cons c more ih => exact ih _ _

theorem addFunction?_closing (d : Decoder) (function : Option FunctionDelta) :
    (d.addFunction? function).closing = d.closing := by
  cases function <;> rfl

theorem applyDelta?_closing (d : Decoder) (delta : Option Delta) : (d.applyDelta? delta).2.closing = d.closing := by
  cases delta with
  | none => rfl
  | some delta =>
    show (addFunction? (addFragments (read? (think? (d.think? _).2 _).2 _).2 0 _) _).closing = d.closing
    rw [addFunction?_closing, addFragments_closing, read?_closing, think?_closing, think?_closing]

theorem applyReason?_learns (d : Decoder) (reason : Option String) :
    (d.applyReason? reason).state.closing = d.closing.learn Backend.chat.merge { reasons := reason.toList } := by
  cases reason with
  | none => exact (Closing.learn_nothing _ d.closing).symm
  | some reason =>
    have hoffer := Closing.offer_live Backend.chat.merge d.closing reason
    unfold applyReason? applyReason
    simp only
    split
    · exact hoffer
    · split <;> exact hoffer

theorem applyChoices_learns (choices : List Choice) (d : Decoder) :
    (d.applyChoices choices).state.closing =
      d.closing.learn Backend.chat.merge { reasons := choices.filterMap (·.finishReason) } := by
  induction choices generalizing d with
  | nil => exact (Closing.learn_nothing _ d.closing).symm
  | cons choice more ih =>
    have hfirst : (d.applyChoice choice).state.closing =
        d.closing.learn Backend.chat.merge { reasons := choice.finishReason.toList } := by
      show ((d.applyDelta? choice.delta).2.applyReason? choice.finishReason).state.closing = _
      rw [applyReason?_learns, applyDelta?_closing]
    show ((d.applyChoice choice).state.applyChoices more).state.closing = _
    rw [ih, hfirst, Closing.learn_reasons, List.filterMap_cons]
    cases choice.finishReason <;> rfl

theorem applyChunk_learns (d : Decoder) (chunk : Chunk) :
    (d.applyChunk chunk).state.closing = d.closing.learn Backend.chat.merge chunk.report := by
  show (applyChoices _ (chunk.choices.getD [])).state.closing = _
  rw [applyChoices_learns]
  unfold Chunk.report
  cases nonEmpty chunk.id <;> cases chunk.usage <;> cases h : d.closing.responseId <;>
    simp [Closing.learn, Closing.setResponseId, Closing.setUsage, Backend.merge, h]

theorem step_learns (d : Decoder) (payload : String) :
    (d.step payload).state.closing = d.closing.learnAll Backend.chat.merge
      ((Chunk.ofText payload).toOption.map Chunk.report).toList := by
  unfold step
  split
  · next chunk h => rw [h]; exact applyChunk_learns d chunk
  · next problem h => rw [h]; rfl

end Decoder

end Chat

/-! ## Anthropic -/

namespace Anthropic

/-- What a signal reports about the end. The end of a block is a reason where it ends the stream. -/
def Signal.report (flow : Flow) : Signal → Closing.Report
  | .messageStart id usage => { id, usage }
  | .messageDelta reason usage => { usage, reasons := reason.toList }
  | .blockStop _ => { reasons := if flow = .finish then [Decoder.toolUse] else [] }
  | .error .. => { reasons := ["error"] }
  | _ => {}

namespace Decoder

/-- The usage that is kept is the one that the closing event would report. -/
def UsageKnown (d : Decoder) : Prop := d.usage = d.closing.usage.getD []

theorem addUsage_learns {d : Decoder} (h : d.UsageKnown) (usage : Option Fields) :
    (d.addUsage usage).UsageKnown ∧ (d.addUsage usage).closing = d.closing.learn Fields.overlay { usage } := by
  cases usage with
  | none => exact ⟨h, (Closing.learn_nothing _ d.closing).symm⟩
  | some usage =>
    refine ⟨rfl, ?_⟩
    rw [UsageKnown] at h
    cases hid : d.closing.responseId <;> simp [addUsage, Closing.learn, Closing.setUsage, h, hid]

theorem startBlock_kept (d : Decoder) (index : Nat) (block : Json) :
    (d.startBlock index block).state.usage = d.usage ∧ (d.startBlock index block).state.closing = d.closing := by
  cases h : Block.ofValue block with
  | error problem => simp only [startBlock, h, Step.unread, and_self]
  | ok b => cases b <;> simp only [startBlock, h, and_self]

theorem extendBlock_kept (d : Decoder) (index : Nat) (delta : BlockDelta) :
    (d.extendBlock index delta).state.usage = d.usage ∧ (d.extendBlock index delta).state.closing = d.closing := by
  cases delta with
  | thinking text =>
    rcases h : d.reasoning.push (reasoningKey index) text with ⟨event, reasoning⟩
    simp only [extendBlock, h, and_self]
  | text | arguments | signature | unknown => exact ⟨rfl, rfl⟩

theorem stopBlock_learns (d : Decoder) (index : Nat) :
    (d.stopBlock index).state.usage = d.usage ∧
      (d.stopBlock index).state.closing = d.closing.learn Fields.overlay
        { reasons := if (d.stopBlock index).flow = .finish then [toolUse] else [] } := by
  unfold stopBlock
  split
  · simp only
    split
    · exact ⟨rfl, Closing.offer_live _ d.closing toolUse⟩
    · exact ⟨rfl, (Closing.learn_nothing _ d.closing).symm⟩
  · exact ⟨rfl, (Closing.learn_nothing _ d.closing).symm⟩

/-- A signal keeps the usage that is known, and what it reports is learned. -/
theorem apply_learns {d : Decoder} (h : d.UsageKnown) (signal : Signal) :
    (d.apply signal).state.UsageKnown ∧ (d.apply signal).state.closing =
      d.closing.learn Fields.overlay (signal.report (d.apply signal).flow) := by
  have nothing : ∀ e : Decoder, e.usage = d.usage ∧ e.closing = d.closing →
      e.UsageKnown ∧ e.closing = d.closing.learn Fields.overlay {} := by
    rintro e ⟨husage, hclosing⟩
    rw [Closing.learn_nothing, UsageKnown, husage, hclosing]
    exact ⟨h, rfl⟩
  cases signal with
  | messageStart id usage =>
    cases id with
    | none => exact addUsage_learns h usage
    | some id =>
      obtain ⟨hkept, hlearn⟩ := addUsage_learns (d := { d with closing := d.closing.setResponseId id }) h usage
      refine ⟨hkept, hlearn.trans ?_⟩
      rw [Closing.setResponseId_eq Fields.overlay, Closing.learn_id]
      rfl
  | blockStart index block => exact nothing _ (startBlock_kept d index block)
  | blockDelta index delta => exact nothing _ (extendBlock_kept d index delta)
  | blockStop index =>
    obtain ⟨husage, hlearn⟩ := stopBlock_learns d index
    refine ⟨?_, hlearn⟩
    rw [UsageKnown] at h ⊢
    exact husage.trans (h.trans (congrArg (·.usage.getD []) hlearn).symm)
  | messageDelta reason usage =>
    obtain ⟨hkept, hlearn⟩ := addUsage_learns h usage
    cases reason with
    | none => exact ⟨hkept, hlearn⟩
    | some reason =>
      have hoffer := Closing.offer_live Fields.overlay (d.addUsage usage).closing reason
      refine ⟨?_, ?_⟩
      · show (d.addUsage usage).usage = ((d.addUsage usage).closing.offer .live reason).usage.getD []
        rw [hoffer]
        exact hkept
      · show (d.addUsage usage).closing.offer .live reason = _
        rw [hoffer, hlearn, Closing.learn_reasons]
        rfl
  | messageStop => exact nothing d ⟨rfl, rfl⟩
  | error kind detail =>
    have hoffer := Closing.offer_live Fields.overlay d.closing "error"
    refine ⟨?_, hoffer⟩
    show d.usage = (d.closing.offer .live "error").usage.getD []
    rw [hoffer]
    exact h
  | idle => exact nothing d ⟨rfl, rfl⟩

theorem step_learns {d : Decoder} (h : d.UsageKnown) (payload : String) :
    (d.step payload).state.UsageKnown ∧ (d.step payload).state.closing = d.closing.learnAll Fields.overlay
      ((Signal.ofText payload).toOption.map (Signal.report (d.step payload).flow)).toList := by
  unfold step
  split
  · next signal hread => rw [hread]; exact apply_learns h signal
  · next problem hread => rw [hread]; exact ⟨h, rfl⟩

end Decoder

end Anthropic

/-! ## Responses -/

namespace Responses

/-- What a signal reports about the end. -/
def Signal.report : Signal → Closing.Report
  | .started response => { id := response.id }
  | .ended outcome response => { id := response.id, usage := response.usage, reasons := [outcome.reason] }
  | .error .. => { reasons := ["error"] }
  | _ => {}

namespace Decoder

/-- Once the closing response is known, so is a reason that outranks its status. -/
def Outranked (d : Decoder) : Prop := d.last.isSome → ∃ reason, d.closing.reason = some (.live, reason)

theorem announce_kept (d : Decoder) (index : Nat) (item : Json) :
    (d.announce index item).last = d.last ∧ (d.announce index item).closing = d.closing := by
  unfold announce
  split
  · split <;> exact ⟨rfl, rfl⟩
  · exact ⟨rfl, rfl⟩

theorem completeCall_kept (d : Decoder) (key : CallKey) (c : CallItem) :
    (d.completeCall key c).2.last = d.last ∧ (d.completeCall key c).2.closing = d.closing := by
  unfold completeCall
  split
  · exact ⟨rfl, rfl⟩
  · split <;> exact ⟨rfl, rfl⟩

theorem finishReasoning_kept (d : Decoder) (key : ReasoningKey) (summary : List Json) (item : Json) :
    (d.finishReasoning key summary item).2.last = d.last ∧
      (d.finishReasoning key summary item).2.closing = d.closing := by
  unfold finishReasoning
  split <;> exact ⟨rfl, rfl⟩

theorem finishItem_kept (d : Decoder) (index : Nat) (item : Json) :
    (d.finishItem index item).2.last = d.last ∧ (d.finishItem index item).2.closing = d.closing := by
  unfold finishItem
  split
  · exact ⟨rfl, rfl⟩
  · exact completeCall_kept d _ _
  · exact finishReasoning_kept d _ _ item
  · exact ⟨rfl, rfl⟩

theorem rescanItem_closing (d : Decoder) (position : Nat) (item : Json) :
    (d.rescanItem position item).2.closing = d.closing := by
  unfold rescanItem
  split
  · split
    · rfl
    · split
      · rfl
      · exact (completeCall_kept d _ _).2
  · exact (finishReasoning_kept d _ _ item).2
  · rfl

theorem rescanItems_closing (items : List Json) (d : Decoder) (position : Nat) :
    (d.rescanItems position items).2.closing = d.closing := by
  induction items generalizing d position with
  | nil => rfl
  | cons item more ih => exact (ih _ _).trans (rescanItem_closing d position item)

/-- Reading the closing response once more teaches nothing about the end: its status is outranked. -/
theorem rescan_closing {d : Decoder} (h : d.Outranked) : d.rescan.2.closing = d.closing := by
  unfold rescan
  split
  · rfl
  · next response hlast =>
    obtain ⟨reason, hreason⟩ := h (hlast ▸ rfl)
    rw [rescanItems_closing]
    unfold reopen
    cases response.status with
    | none => rfl
    | some status => simp [Closing.offer, hreason]

/-- A signal keeps the rank of the reason, and what it reports is learned. -/
theorem apply_learns {d : Decoder} (h : d.Outranked) (raw : Json) (signal : Signal) :
    (d.apply raw signal).state.Outranked ∧
      (d.apply raw signal).state.closing = d.closing.learn Backend.responses.merge signal.report := by
  have nothing : ∀ e : Decoder, e.last = d.last ∧ e.closing = d.closing →
      e.Outranked ∧ e.closing = d.closing.learn Backend.responses.merge {} := by
    rintro e ⟨hlast, hclosing⟩
    rw [Closing.learn_nothing, Outranked, hlast, hclosing]
    exact ⟨h, rfl⟩
  cases signal with
  | started response =>
    simp only [apply]
    cases hid : response.id with
    | none => simpa [Signal.report, hid] using nothing d ⟨rfl, rfl⟩
    | some id =>
      refine ⟨h, ?_⟩
      rw [Signal.report, hid]
      exact Closing.setResponseId_eq _ d.closing id
  | itemAdded index item => exact nothing _ (announce_kept d index item)
  | itemDone index item => exact nothing _ (finishItem_kept d index item)
  | argumentsDone target arguments => exact nothing _ (completeCall_kept d _ _)
  | ended outcome response =>
    have hclosing : (d.close outcome response).2.closing =
        d.closing.learn Backend.responses.merge (Signal.ended outcome response).report := by
      obtain ⟨id, status, output, usage, failure⟩ := response
      cases id <;> cases usage <;> cases hid : d.closing.responseId <;>
        simp [close, Closing.offer_live Backend.responses.merge, Signal.report, Closing.learn,
          Closing.setResponseId, Closing.setUsage, Backend.merge, hid]
    exact ⟨fun _ => ⟨outcome.reason, congrArg (·.reason) hclosing⟩, hclosing⟩
  | error code detail =>
    have hoffer := Closing.offer_live Backend.responses.merge d.closing "error"
    exact ⟨fun _ => ⟨"error", congrArg (·.reason) hoffer⟩, hoffer⟩
  | reasoningDelta itemId text =>
    rcases hpush : d.reasoning.push (.ofId itemId) text with ⟨event, reasoning⟩
    simp only [apply, hpush]
    exact nothing { d with reasoning } ⟨rfl, rfl⟩
  | textDelta | note | argumentsDelta | idle => exact nothing _ ⟨rfl, rfl⟩

theorem step_learns {d : Decoder} (h : d.Outranked) (payload : String) :
    (d.step payload).state.Outranked ∧ (d.step payload).state.closing =
      d.closing.learnAll Backend.responses.merge ((Signal.ofText payload).toOption.map (·.2.report)).toList := by
  unfold step
  split
  · next raw signal hread => rw [hread]; exact apply_learns h raw signal
  · next problem hread => rw [hread]; exact ⟨h, rfl⟩

end Decoder

/-! ## What the signals of a Responses stream report -/

/-- The end that a signal announces. -/
def Signal.final? : Signal → Option (Outcome × Response)
  | .ended outcome response => some (outcome, response)
  | _ => none

def Signal.isError : Signal → Bool
  | .error .. => true
  | _ => false

/-- A signal without the status of its response. -/
def Signal.withoutStatus : Signal → Signal
  | .started response => .started { response with status := none }
  | .ended outcome response => .ended outcome { response with status := none }
  | signal => signal

theorem Signal.report_withoutStatus (signal : Signal) : signal.withoutStatus.report = signal.report := by
  cases signal <;> rfl

/-- The signals of these payloads, up to the first that ends the stream. -/
def signals : List String → List Signal
  | [] => []
  | payload :: more =>
    match Signal.ofText payload with
    | .ok (_, signal) => signal :: if signal.final?.isSome then [] else signals more
    | .error _ => signals more

/-- What the closing event says of signals of which only the last may end the stream. -/
structure Concludes (signals : List Signal) (e : Ending) : Prop where
  /-- The outcome of the stream, or else that there was an error. -/
  reason : e.reason =
    ((signals.findSome? Signal.final?).map (·.1.reason) <|> if signals.any Signal.isError then some "error" else none)
  usage : e.usage = (signals.findSome? Signal.final?).bind (·.2.usage)

theorem Signal.report_reasons (signal : Signal) : signal.report.reasons =
    (signal.final?.map (·.1.reason) <|> if signal.isError then some "error" else none).toList := by
  cases signal <;> rfl

theorem Signal.report_usage (signal : Signal) : signal.report.usage = signal.final?.bind (·.2.usage) := by
  cases signal <;> rfl

theorem signals_cases (payload : String) (more : List String) :
    signals (payload :: more) = signals more ∨
      (∃ signal, signal.final? = none ∧ signals (payload :: more) = signal :: signals more) ∨
      ∃ signal final, signal.final? = some final ∧ signals (payload :: more) = [signal] := by
  cases hread : Signal.ofText payload with
  | error problem => exact .inl (by simp only [signals, hread])
  | ok read =>
    rcases Option.eq_none_or_eq_some read.2.final? with hfinal | ⟨final, hfinal⟩
    · exact .inr (.inl ⟨read.2, hfinal, by simp [signals, hread, hfinal]⟩)
    · exact .inr (.inr ⟨read.2, final, hfinal, by simp [signals, hread, hfinal]⟩)

/-- Every reason but the one of the outcome, which is the last, is that there was an error. -/
theorem signals_reason (payloads : List String) :
    ((signals payloads).flatMap (·.report.reasons)).getLast? =
      (((signals payloads).findSome? Signal.final?).map (·.1.reason) <|>
        if (signals payloads).any Signal.isError then some "error" else none) := by
  induction payloads with
  | nil => rfl
  | cons payload more ih =>
    obtain h | ⟨signal, hfinal, h⟩ | ⟨signal, final, hfinal, h⟩ := signals_cases payload more <;> rw [h]
    · exact ih
    · rw [List.flatMap_cons, List.getLast?_append, ih, Signal.report_reasons, List.findSome?_cons, hfinal,
        List.any_cons]
      cases (signals more).findSome? Signal.final? <;> cases (signals more).any Signal.isError <;>
        cases signal.isError <;> rfl
    · simp [Signal.report_reasons, hfinal]

theorem signals_usage (payloads : List String) :
    ((signals payloads).filterMap (·.report.usage)).getLast? =
      ((signals payloads).findSome? Signal.final?).bind (·.2.usage) := by
  induction payloads with
  | nil => rfl
  | cons payload more ih =>
    obtain h | ⟨signal, hfinal, h⟩ | ⟨signal, final, hfinal, h⟩ := signals_cases payload more <;> rw [h]
    · exact ih
    · simpa [Signal.report_usage, hfinal] using ih
    · cases husage : final.2.usage <;> simp [Signal.report_usage, hfinal, husage]

/-- A payload ends the stream if its signal does. -/
theorem Decoder.apply_flow (d : Decoder) (raw : Json) (signal : Signal) :
    (d.apply raw signal).flow = if signal.final?.isSome then .finish else .more := by
  cases signal with
  | started response => simp only [apply]; split <;> rfl
  | _ => rfl

end Responses

/-! ## All backends -/

namespace Decoder

/-- What a payload reports about the end, if it can be read. -/
def report? (backend : Backend) (payload : String) (flow : Flow) : Option Closing.Report :=
  match backend with
  | .anthropic => (Anthropic.Signal.ofText payload).toOption.map (Anthropic.Signal.report flow)
  | .responses => (Responses.Signal.ofText payload).toOption.map (·.2.report)
  | .chat => (Chat.Chunk.ofText payload).toOption.map Chat.Chunk.report

/-- These payloads up to the first that ends the stream, each with whether it does. -/
def consumed (d : Decoder) : List String → List (String × Flow)
  | [] => []
  | payload :: more =>
    (payload, (d.step payload).flow) ::
      if (d.step payload).flow = .finish then [] else (d.step payload).state.consumed more

/-- What the payloads that are decoded report. -/
def reports (d : Decoder) (payloads : List String) : List Closing.Report :=
  (d.consumed payloads).filterMap fun p => report? d.backend p.1 p.2

/-- Decodes payloads up to the first that ends the stream, and ends it. -/
def run (d : Decoder) (payloads : List String) : List Event × Decoder :=
  d.drive ((d.consumed payloads).map (fun p => .payload p.1) ++ [.finish])

/-- Keeps of the usage and of the closing response what the end relies on. -/
def Tallied : Decoder → Prop
  | .anthropic d => d.UsageKnown
  | .responses d => d.Outranked
  | .chat _ => True

theorem step_backend (d : Decoder) (payload : String) : (d.step payload).state.backend = d.backend := by
  cases d <;> rfl

/-- A step learns what its payload reports. -/
theorem step_learns {d : Decoder} (h : d.Tallied) (payload : String) :
    (d.step payload).state.Tallied ∧ (d.step payload).state.boards.closing =
      d.boards.closing.learnAll d.backend.merge (report? d.backend payload (d.step payload).flow).toList := by
  cases d with
  | anthropic d => exact Anthropic.Decoder.step_learns h payload
  | responses d => exact Responses.Decoder.step_learns h payload
  | chat d => exact ⟨trivial, d.step_learns payload⟩

/-- The end gives out what is known, last of all. -/
theorem finish_ending {d : Decoder} (h : d.Tallied) (hopen : d.boards.closing.finished = false) :
    ∃ before, d.finish.1 = before ++ [.ending d.boards.closing.ending] ∧ Unending before := by
  have ends : ∀ {events : List Event} {b : Boards}, Moves d.boards events b → b.closing = d.boards.closing →
      ∃ before, events ++ b.finish.1 = before ++ [.ending d.boards.closing.ending] ∧ Unending before := by
    intro events b hmoves hclosing
    obtain ⟨given, c, hgiven, hevents, -⟩ := Boards.finish_of_open (hmoves.finished.trans hopen)
    refine ⟨events ++ given, ?_, (hmoves.trans hgiven).unending⟩
    rw [hevents, hclosing, List.append_assoc]
    rfl
  cases d with
  | anthropic d => exact ends (.nil _) rfl
  | responses d => exact ends d.rescan_moves (Responses.Decoder.rescan_closing h)
  | chat d =>
    exact ends (Chat.Decoder.tell_moves d.tags.finish.1 { d with tags := d.tags.finish.2 })
      (Chat.Decoder.tell_closing d.tags.finish.1 _)

theorem run_cons (d : Decoder) (payload : String) (more : List String) :
    (d.run (payload :: more)).1 = (d.step payload).events ++
      if (d.step payload).flow = .finish then (d.step payload).state.finish.1
      else ((d.step payload).state.run more).1 := by
  by_cases h : (d.step payload).flow = .finish
  · simp [run, consumed, drive, take, h]
  · simp [run, consumed, drive, take, h]

theorem reports_cons (d : Decoder) (payload : String) (more : List String) :
    d.reports (payload :: more) = (report? d.backend payload (d.step payload).flow).toList ++
      if (d.step payload).flow = .finish then [] else (d.step payload).state.reports more := by
  rw [reports, consumed, List.filterMap_cons]
  by_cases h : (d.step payload).flow = .finish <;>
    cases report? d.backend payload (d.step payload).flow <;> simp [reports, h, step_backend]

/-- A run learns what its payloads report, and its end gives that out. -/
theorem run_learns (payloads : List String) {d : Decoder} (h : d.Tallied) (hopen : d.boards.closing.finished = false) :
    ∃ before, (d.run payloads).1 = before ++
      [.ending (d.boards.closing.learnAll d.backend.merge (d.reports payloads)).ending] ∧ Unending before := by
  induction payloads generalizing d with
  | nil =>
    obtain ⟨before, hend, hbefore⟩ := finish_ending h hopen
    exact ⟨before, (List.append_nil _).trans hend, hbefore⟩
  | cons payload more ih =>
    obtain ⟨hkept, hlearn⟩ := step_learns h payload
    have hmoves := d.step_moves payload
    have hopen' := hmoves.finished.trans hopen
    rw [run_cons, reports_cons, Closing.learnAll_append, ← hlearn]
    split
    · obtain ⟨before, hend, hbefore⟩ := finish_ending hkept hopen'
      refine ⟨(d.step payload).events ++ before, ?_, hmoves.unending.append hbefore⟩
      rw [hend, List.append_assoc]
      rfl
    · obtain ⟨before, hend, hbefore⟩ := ih hkept hopen'
      refine ⟨(d.step payload).events ++ before, ?_, hmoves.unending.append hbefore⟩
      rw [hend, List.append_assoc, step_backend]

theorem tallied_of_create {backend : Backend} {tags : List String} {d : Decoder} (h : create backend tags = .ok d) :
    d.Tallied ∧ d.backend = backend := by
  cases backend with
  | anthropic => cases h; exact ⟨rfl, rfl⟩
  | responses => cases h; exact ⟨fun hlast => (nomatch hlast), rfl⟩
  | chat =>
    cases hscanner : Chat.Decoder.ofTags tags with
    | error fault => rw [create, hscanner] at h; cases h
    | ok scanner => rw [create, hscanner] at h; cases h; exact ⟨trivial, rfl⟩

/-- The reports of a Responses stream are those of its signals. -/
theorem reports_responses (payloads : List String) (d : Responses.Decoder) :
    (Decoder.responses d).reports payloads = (Responses.signals payloads).map (·.report) := by
  induction payloads generalizing d with
  | nil => rfl
  | cons payload more ih =>
    rw [reports_cons, Responses.signals]
    cases hread : Responses.Signal.ofText payload with
    | error problem => simpa [report?, backend, step, Responses.Decoder.step, hread, Step.unread, Except.toOption] using ih d
    | ok read =>
      have hflow : ((Decoder.responses d).step payload).flow = if read.2.final?.isSome then .finish else .more := by
        simpa [step, Responses.Decoder.step, hread] using d.apply_flow read.1 read.2
      rw [hflow]
      rcases Option.eq_none_or_eq_some read.2.final? with hfinal | ⟨final, hfinal⟩ <;>
        simp [report?, backend, step, hread, Except.toOption, hfinal, ih]

/-- What the closing event says, given what the payloads of a stream report. -/
structure Reported (backend : Backend) (reports : List Closing.Report) (e : Ending) : Prop where
  /-- The first id. -/
  responseId : e.responseId = reports.findSome? (·.id)
  /-- The last reason. -/
  reason : e.reason = (reports.flatMap (·.reasons)).getLast?
  /-- The last usage object. -/
  latest : backend ≠ .anthropic → e.usage = (reports.filterMap (·.usage)).getLast?
  /-- The usage objects laid over each other, if there are any. -/
  overlaid : backend = .anthropic → e.usage =
    if reports.filterMap (·.usage) = [] then none else some (Ordered.ofList (reports.filterMap (·.usage)).flatten)
  /-- Each entry is the last one reported under its key. -/
  entries : backend = .anthropic → ∀ key, e.usage.bind (Ordered.get? · key) =
    (reports.filterMap (·.usage)).flatten.reverse.lookup key

theorem reported_learnAll (backend : Backend) (reports : List Closing.Report) :
    Reported backend reports (({} : Closing).learnAll backend.merge reports).ending where
  responseId := Closing.learnAll_responseId _ reports {}
  reason := by
    have h := Closing.learnAll_reasonText backend.merge reports {}
    exact h.trans (by cases (reports.flatMap (·.reasons)).getLast? <;> rfl)
  latest hne := by
    cases backend with
    | anthropic => exact absurd rfl hne
    | responses | chat => exact Closing.learnAll_usage_latest reports
  overlaid heq := by
    subst heq
    exact Closing.learnAll_usage_overlay reports
  entries heq key := by
    subst heq
    show (({} : Closing).learnAll Fields.overlay reports).usage.bind _ = _
    rw [Closing.learnAll_usage_overlay]
    split
    · next h => rw [h]; rfl
    · exact Ordered.get?_ofList _ key

/-- The closing event of a stream says what its payloads report, and comes last. That of a Responses stream says
the outcome of the stream, or else that there was an error, and the usage of the closing response; it would
say the same if the statuses of the responses were different. -/
theorem closing_reported {backend : Backend} {tags : List String} {d : Decoder} (h : create backend tags = .ok d)
    (payloads : List String) :
    ∃ before e, (d.run payloads).1 = before ++ [.ending e] ∧ Unending before ∧
      Reported backend (d.reports payloads) e ∧
      (backend = .responses → Responses.Concludes (Responses.signals payloads) e ∧
        ∀ others, (Responses.signals others).map (·.withoutStatus) = (Responses.signals payloads).map (·.withoutStatus) →
          ∃ before, (d.run others).1 = before ++ [.ending e]) := by
  obtain ⟨htallied, hbackend⟩ := tallied_of_create h
  have hclosing : d.boards.closing = {} := by rw [boards_of_create h]
  have runs : ∀ payloads, ∃ before, (d.run payloads).1 = before ++
      [.ending (({} : Closing).learnAll backend.merge (d.reports payloads)).ending] ∧ Unending before := by
    intro payloads
    have hrun := run_learns payloads htallied (by rw [hclosing])
    rwa [hclosing, hbackend] at hrun
  obtain ⟨before, hrun, hbefore⟩ := runs payloads
  have hreported := reported_learnAll backend (d.reports payloads)
  refine ⟨before, _, hrun, hbefore, hreported, ?_⟩
  rintro rfl
  cases d with
  | responses d =>
    have hsignals := reports_responses payloads d
    refine ⟨⟨?_, ?_⟩, fun others hothers => ?_⟩
    · rw [hreported.reason, hsignals, List.flatMap_map, Responses.signals_reason]
    · rw [hreported.latest Backend.noConfusion, hsignals, List.filterMap_map]
      exact Responses.signals_usage payloads
    · have hsame : (Decoder.responses d).reports others = (Decoder.responses d).reports payloads := by
        have hreports := congrArg (List.map Responses.Signal.report) hothers
        simpa [Function.comp_def, Responses.Signal.report_withoutStatus, reports_responses] using hreports
      obtain ⟨before, hrun, -⟩ := runs others
      exact ⟨before, hsame ▸ hrun⟩
  | anthropic | chat => cases hbackend

/-- Two usage objects, an error and a later reason, and a payload that cannot be read; and a Responses stream
that reports an error before it ends with an id of its own, a usage and a status. -/
theorem closing_reported_overlaid :
    let payloads : List String :=
      [ "\x7b\"type\":\"message_start\",\"message\":\x7b\"id\":\"m\",\"usage\":\x7b\"a\":null,\"b\":true\x7d\x7d\x7d",
        "\x7b\"type\":\"error\",\"error\":\x7b\x7d\x7d",
        "\x7b\"type\":\"message_delta\",\"usage\":\x7b\"b\":false\x7d\x7d",
        "\x7b",
        "\x7b\"type\":\"message_delta\",\"delta\":\x7b\"stop_reason\":\"end_turn\"\x7d\x7d" ]
    let responses : List String :=
      [ "\x7b\"type\":\"response.created\",\"response\":\x7b\"id\":\"r\"\x7d\x7d",
        "\x7b\"type\":\"error\",\"code\":\"slow\"\x7d",
        "\x7b\"type\":\"response.completed\",\"response\":\x7b\"id\":\"s\",\"status\":\"failed\",\"usage\":\x7b\"b\":2\x7d\x7d\x7d" ]
    let usage := fun e : Ending => e.usage.map fun usage => (Json.obj usage).render
    create .anthropic [] = .ok (.anthropic {}) ∧ create .responses [] = .ok (.responses {}) ∧
      (∃ before e, ((Decoder.anthropic {}).run payloads).1 = before ++ [.ending e] ∧ e.responseId = some "m" ∧
        e.reason = some "end_turn" ∧ usage e = some "\x7b\"a\":null,\"b\":false\x7d") ∧
      ∃ before e, ((Decoder.responses {}).run responses).1 = before ++ [.ending e] ∧ e.responseId = some "r" ∧
        e.reason = some "completed" ∧ usage e = some "\x7b\"b\":2\x7d" := by
  intro payloads responses usage
  have hcreate : create .anthropic [] = .ok (.anthropic {}) := rfl
  have hresponses : create .responses [] = .ok (.responses {}) := rfl
  obtain ⟨before, e, hrun, -, hreported, -⟩ := closing_reported hcreate payloads
  obtain ⟨told, closing, hlate, -, hsaid, hconcludes⟩ := closing_reported hresponses responses
  obtain ⟨hreason, husage⟩ := (hconcludes rfl).1
  refine ⟨hcreate, hresponses, ⟨before, e, hrun, hreported.responseId.trans ?_, hreported.reason.trans ?_, ?_⟩,
    told, closing, hlate, hsaid.responseId.trans ?_, hreason.trans ?_, ?_⟩
  · decide +kernel
  · decide +kernel
  · simp only [usage, hreported.overlaid rfl]
    decide +kernel
  · decide +kernel
  · decide +kernel
  · simp only [usage, husage]
    decide +kernel

end Decoder

end ModelStream
