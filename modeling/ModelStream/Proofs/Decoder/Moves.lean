/-
Each decoder's step is a sequence of moves on its boards (`Decoder.step_moves`), and its finish is a
sequence of moves followed by the end of the boards (`Decoder.finish_moves`). There is one lemma for
each function of a decoder; what every move keeps then holds of every step, whatever the backend.
-/
import ModelStream.Decoder
import ModelStream.Proofs.Boards

namespace ModelStream

open Boards (Move Moves)

/-- A reason is noted or not; that the stream has ended is another matter. -/
theorem Closing.offer_finished (c : Closing) (source : Closing.Source) (reason : String) :
    (c.offer source reason).finished = c.finished := by
  unfold Closing.offer
  split <;> rfl

/-! ## Anthropic -/

namespace Anthropic.Decoder

def boards (d : Decoder) : Boards := ⟨d.calls, d.reasoning, d.closing⟩

theorem visible_moves (text : String) (b : Boards) : Moves b (visible text) b := by
  unfold visible
  split
  · exact .nil b
  · exact (Move.tell (e := .delta text) b trivial).moves

theorem addUsage_moves (d : Decoder) (usage : Option Json.Fields) : Moves d.boards [] (d.addUsage usage).boards := by
  cases usage with
  | none => exact .nil d.boards
  | some usage => exact (Move.learn d.boards (d.closing.setUsage (d.usage.overlay usage)) rfl).moves

/-- Only a block of reasoning takes more than one move: it is begun, may bring its first piece, and is signed. -/
theorem startBlock_moves (d : Decoder) (index : Nat) (block : Json) :
    Moves d.boards (d.startBlock index block).events (d.startBlock index block).state.boards := by
  unfold startBlock
  split
  · next problem _ => exact (Move.tell (e := .malformed .anthropic problem) d.boards trivial).moves
  · exact visible_moves _ _
  · next id name _ =>
    exact (Move.draft d.boards (.index index) fun draft => { draft with id := some id, name := some name }).moves
  · next text signature _ =>
    simp only
    -- the board between the moves is named, so that each of them is a step of its own
    generalize reasoningKey index = key
    generalize (block.get? "id").toList.map (("id", ·)) = seed
    rcases h : (d.reasoning.begin key seed).push key text with ⟨event, reasoning⟩
    have hbegin : Move d.boards [] ⟨d.calls, d.reasoning.begin key seed, d.closing⟩ := .begin d.boards key seed
    have hpush : Move ⟨d.calls, d.reasoning.begin key seed, d.closing⟩ event.toList
        ⟨d.calls, reasoning, d.closing⟩ := .push _ h
    cases nonEmpty signature with
    | none => exact .cons hbegin hpush.moves
    | some signature =>
      exact (Moves.cons hbegin hpush.moves).silent (Move.annotate _ key "signature" signature).moves
  · exact (Move.tell (e := .notice "redacted_thinking" block) d.boards trivial).moves
  · exact .nil d.boards

theorem extendBlock_moves (d : Decoder) (index : Nat) (delta : BlockDelta) :
    Moves d.boards (d.extendBlock index delta).events (d.extendBlock index delta).state.boards := by
  cases delta with
  | text text => exact visible_moves text d.boards
  | arguments fragment =>
    exact (Move.draft d.boards (.index index) fun draft =>
      { draft with arguments := draft.arguments ++ fragment }).moves
  | thinking text =>
    rcases h : d.reasoning.push (reasoningKey index) text with ⟨event, reasoning⟩
    simp only [extendBlock, h]
    exact (Move.push d.boards h).moves
  | signature fragment => exact (Move.annotate d.boards (reasoningKey index) "signature" fragment).moves
  | unknown => exact .nil d.boards

/-- A stop completes the call of its index, or else it ends the reasoning there. -/
theorem stopBlock_moves (d : Decoder) (index : Nat) :
    Moves d.boards (d.stopBlock index).events (d.stopBlock index).state.boards := by
  unfold stopBlock
  split
  · rcases h : d.calls.complete (.index index) with ⟨call, calls⟩
    have hcall := (Move.complete d.boards h).moves
    simp only
    split
    · exact hcall.silent (Move.learn _ (d.closing.offer .live toolUse) (Closing.offer_finished _ _ _)).moves
    · exact hcall
  · rcases h : d.reasoning.finish (reasoningKey index) [] with ⟨event, reasoning⟩
    exact (Move.finish d.boards h).moves

theorem apply_moves (d : Decoder) (signal : Signal) :
    Moves d.boards (d.apply signal).events (d.apply signal).state.boards := by
  cases signal with
  | messageStart id usage =>
    cases id with
    | none => exact addUsage_moves _ usage
    | some id =>
      have hid := (Move.learn d.boards (d.closing.setResponseId id) rfl).moves
      exact hid.trans (addUsage_moves { d with closing := d.closing.setResponseId id } usage)
  | blockStart index block => exact startBlock_moves d index block
  | blockDelta index delta => exact extendBlock_moves d index delta
  | blockStop index => exact stopBlock_moves d index
  | messageDelta stopReason usage =>
    have husage := addUsage_moves d usage
    cases stopReason with
    | none => exact husage
    | some reason =>
      exact husage.trans (Move.learn (d.addUsage usage).boards
        ((d.addUsage usage).closing.offer .live reason) (Closing.offer_finished _ _ _)).moves
  | messageStop => exact .nil d.boards
  | error kind detail =>
    have hoffer := (Move.learn d.boards (d.closing.offer .live "error")
      (Closing.offer_finished _ _ _)).moves
    exact hoffer.trans (Move.tell (e := .ofBackend kind detail) _ trivial).moves
  | idle => exact .nil d.boards

theorem step_moves (d : Decoder) (payload : String) :
    Moves d.boards (d.step payload).events (d.step payload).state.boards := by
  unfold step
  split
  · exact apply_moves d _
  · next problem _ => exact (Move.tell (e := .malformed .anthropic problem) d.boards trivial).moves

end Anthropic.Decoder

/-! ## Chat -/

namespace Chat.Decoder

def boards (d : Decoder) : Boards := ⟨d.calls, d.reasoning, d.closing⟩

theorem think_moves (d : Decoder) (text : String) : Moves d.boards (d.think text).1 (d.think text).2.boards := by
  rcases h : d.reasoning.push .unnamed text with ⟨event, reasoning⟩
  simp only [think, h]
  exact (Move.push d.boards h).moves

theorem think?_moves (d : Decoder) (text : Option String) :
    Moves d.boards (d.think? text).1 (d.think? text).2.boards := by
  cases text with
  | none => exact .nil d.boards
  | some text => exact think_moves d text

/-- Only segments of reasoning change a board. -/
theorem tell_moves (segments : List InlineTag.Segment) (d : Decoder) :
    Moves d.boards (d.tell segments).1 (d.tell segments).2.boards := by
  induction segments generalizing d with
  | nil => exact .nil d.boards
  | cons segment more ih =>
    cases segment with
    | visible text => exact .cons (Move.tell (e := .delta text) d.boards trivial) (ih d)
    | reasoning text =>
      have hthink := think_moves d text
      rcases h : d.think text with ⟨event, d'⟩
      rw [h] at hthink
      simp only [tell, h]
      exact hthink.trans (ih d')

theorem read?_moves (d : Decoder) (content : Option String) :
    Moves d.boards (d.read? content).1 (d.read? content).2.boards := by
  unfold read?
  split
  · next text _ => exact tell_moves (d.tags.push text).1 { d with tags := (d.tags.push text).2 }
  · exact .nil d.boards

/-- Fragments change drafts and give out nothing. -/
theorem addFragment_moves (d : Decoder) (key : CallKey) (id : Option String) (function : Option FunctionDelta) :
    Moves d.boards [] (d.addFragment key id function).boards :=
  (Move.draft d.boards key fun draft =>
    { arguments := draft.arguments ++ (function.getD {}).arguments.getD ""
      id := nonEmpty id <|> draft.id
      name := draft.name <|> nonEmpty (function.getD {}).name }).moves

theorem addFragments_moves (deltas : List CallDelta) (d : Decoder) (position : Nat) :
    Moves d.boards [] (d.addFragments position deltas).boards := by
  induction deltas generalizing d position with
  | nil => exact .nil d.boards
  | cons c more ih =>
    exact (addFragment_moves d (.index (c.index.getD position)) c.id c.function).trans (ih _ _)

theorem addFunction?_moves (d : Decoder) (function : Option FunctionDelta) :
    Moves d.boards [] (d.addFunction? function).boards := by
  cases function with
  | none => exact .nil d.boards
  | some function => exact addFragment_moves d (.index 0) none (some function)

/-- One delta in the order in which its fields are read: both kinds of reasoning, the text, then the calls. -/
theorem applyDelta_moves (d : Decoder) (delta : Delta) :
    Moves d.boards (d.applyDelta delta).1 (d.applyDelta delta).2.boards := by
  have hfirst := think?_moves d delta.reasoningContent
  rcases h₁ : d.think? delta.reasoningContent with ⟨first, d₁⟩
  have hsecond := think?_moves d₁ delta.reasoning
  rcases h₂ : d₁.think? delta.reasoning with ⟨second, d₂⟩
  have hthird := read?_moves d₂ delta.content
  rcases h₃ : d₂.read? delta.content with ⟨third, d₃⟩
  rw [h₁] at hfirst
  rw [h₂] at hsecond
  rw [h₃] at hthird
  simp only [applyDelta, h₁, h₂, h₃]
  exact (((hfirst.trans hsecond).trans hthird).silent
    (addFragments_moves (delta.toolCalls.getD []) d₃ 0)).silent (addFunction?_moves _ delta.functionCall)

/-- The reason is noted first; one that speaks of calls then drains the board. -/
theorem applyReason_moves (d : Decoder) (reason : String) :
    Moves d.boards (d.applyReason reason).events (d.applyReason reason).state.boards := by
  have hoffer : Moves d.boards [] ⟨d.calls, d.reasoning, d.closing.offer .live reason⟩ :=
    (Move.learn d.boards _ (Closing.offer_finished _ _ _)).moves
  unfold applyReason
  simp only
  split
  · exact hoffer.trans (Boards.drain_moves ⟨d.calls, d.reasoning, d.closing.offer .live reason⟩)
  · split
    · exact hoffer
    · exact hoffer

theorem applyDelta?_moves (d : Decoder) (delta : Option Delta) :
    Moves d.boards (d.applyDelta? delta).1 (d.applyDelta? delta).2.boards := by
  cases delta with
  | none => exact .nil d.boards
  | some delta => exact applyDelta_moves d delta

theorem applyReason?_moves (d : Decoder) (reason : Option String) :
    Moves d.boards (d.applyReason? reason).events (d.applyReason? reason).state.boards := by
  cases reason with
  | none => exact .nil d.boards
  | some reason => exact applyReason_moves d reason

theorem applyChoice_moves (d : Decoder) (choice : Choice) :
    Moves d.boards (d.applyChoice choice).events (d.applyChoice choice).state.boards := by
  have hdelta := applyDelta?_moves d choice.delta
  rcases h : d.applyDelta? choice.delta with ⟨events, e⟩
  rw [h] at hdelta
  simp only [applyChoice, h]
  exact hdelta.trans (applyReason?_moves e choice.finishReason)

theorem applyChoices_moves (choices : List Choice) (d : Decoder) :
    Moves d.boards (d.applyChoices choices).events (d.applyChoices choices).state.boards := by
  induction choices generalizing d with
  | nil => exact .nil d.boards
  | cons choice more ih => exact (applyChoice_moves d choice).trans (ih _)

/-- An error is told before the identity and the usage of the chunk are learned, and those before its choices. -/
theorem applyChunk_moves (d : Decoder) (chunk : Chunk) :
    Moves d.boards (d.applyChunk chunk).events (d.applyChunk chunk).state.boards := by
  -- whatever the chunk says of the closing event, the flag of the end stays
  have chosen : ∀ (closing : Closing) (choices : List Choice), closing.finished = d.closing.finished →
      Moves d.boards ((chunk.error.map errorEvent).toList ++ ({ d with closing }.applyChoices choices).events)
        ({ d with closing }.applyChoices choices).state.boards := by
    intro closing choices h
    have hlearn := Moves.cons (Move.learn d.boards closing h) (applyChoices_moves choices { d with closing })
    cases chunk.error with
    | none => exact hlearn
    | some error => exact .cons (Move.tell (e := errorEvent error) d.boards trivial) hlearn
  unfold applyChunk
  cases nonEmpty chunk.id <;> cases chunk.usage <;> exact chosen _ _ rfl

theorem step_moves (d : Decoder) (payload : String) :
    Moves d.boards (d.step payload).events (d.step payload).state.boards := by
  unfold step
  split
  · exact applyChunk_moves d _
  · next problem _ => exact (Move.tell (e := .malformed .chat problem) d.boards trivial).moves

theorem finish_moves (d : Decoder) : ∃ events b, Moves d.boards events b ∧
    d.finish.1 = events ++ b.finish.1 ∧ d.finish.2.boards = b.finish.2 :=
  ⟨_, _, tell_moves d.tags.finish.1 { d with tags := d.tags.finish.2 }, rfl, rfl⟩

end Chat.Decoder

/-! ## Responses -/

namespace Responses.Decoder

def boards (d : Decoder) : Boards := ⟨d.calls, d.reasoning, d.closing⟩

/-- An announced call begins or replaces a draft, unless it has been given out. -/
theorem announce_moves (d : Decoder) (index : Nat) (item : Json) :
    Moves d.boards [] (d.announce index item).boards := by
  unfold announce
  split
  · next c _ =>
    split
    · exact .nil d.boards
    · exact (Move.draft d.boards (.index index) fun draft =>
        { arguments := draft.arguments ++ c.arguments, id := c.callId <|> c.id, name := c.name }).moves
  · exact .nil d.boards

theorem mark_moves (ids : List String) (b : Boards) :
    Moves b [] { b with calls := ids.foldl CallBoard.mark b.calls } := by
  induction ids generalizing b with
  | nil => exact .nil b
  | cons id ids ih => exact .cons (Move.mark b id) (ih { b with calls := b.calls.mark id })

/-- A completion fills in the draft and takes it off; the ids of the item are recorded with the call. -/
theorem completeCall_moves (d : Decoder) (key : CallKey) (c : CallItem) :
    Moves d.boards (d.completeCall key c).1 (d.completeCall key c).2.boards := by
  unfold completeCall
  split
  · exact (Move.discard d.boards key).moves
  · have hfill : Move d.boards [] ⟨d.calls.update key c.fill, d.reasoning, d.closing⟩ :=
      .draft d.boards key c.fill
    split
    · next call calls h =>
      have hcall := Move.complete ⟨d.calls.update key c.fill, d.reasoning, d.closing⟩ h
      exact .cons hfill (hcall.moves.silent (mark_moves (c.id.toList ++ c.callId.toList) _))
    · next calls h =>
      have hnone := Move.complete ⟨d.calls.update key c.fill, d.reasoning, d.closing⟩ h
      exact .cons hfill hnone.moves

theorem addSummary_moves (key : ReasoningKey) (parts : List Json) (b : Boards) :
    Moves b (addSummary key parts b.reasoning).1 { b with reasoning := (addSummary key parts b.reasoning).2 } := by
  induction parts generalizing b with
  | nil => exact .nil b
  | cons part more ih =>
    unfold addSummary
    split
    · next text _ =>
      rcases h : b.reasoning.push key text with ⟨event, reasoning⟩
      exact .cons (Move.push b h) (ih { b with reasoning })
    · exact ih b

/-- The summary stands in for pieces that were not streamed, and the block ends behind it. -/
theorem finishReasoning_moves (d : Decoder) (key : ReasoningKey) (summary : List Json) (item : Json) :
    Moves d.boards (d.finishReasoning key summary item).1 (d.finishReasoning key summary item).2.boards := by
  -- the block ends alike behind a summary and behind what was streamed
  have ends : ∀ (told : List Event) (reasoning : ReasoningBoard),
      Moves d.boards told ⟨d.calls, reasoning, d.closing⟩ →
      Moves d.boards (told ++ (reasoning.finish key (item.fields?.getD [])).1.toList)
        ⟨d.calls, (reasoning.finish key (item.fields?.getD [])).2, d.closing⟩ := by
    intro told reasoning h
    rcases hend : reasoning.finish key (item.fields?.getD []) with ⟨event, after⟩
    exact h.trans (Move.finish ⟨d.calls, reasoning, d.closing⟩ hend).moves
  unfold finishReasoning
  split
  · exact .nil d.boards
  · simp only
    split
    · exact ends [] d.reasoning (.nil d.boards)
    · exact ends _ _ (addSummary_moves key summary d.boards)

theorem finishItem_moves (d : Decoder) (index : Nat) (item : Json) :
    Moves d.boards (d.finishItem index item).1 (d.finishItem index item).2.boards := by
  unfold finishItem
  split
  · next problem _ => exact (Move.tell (e := .malformed .responses problem) d.boards trivial).moves
  · exact completeCall_moves d _ _
  · exact finishReasoning_moves d _ _ item
  · exact .nil d.boards

/-- The closing payload is learned. It gives out no more than the failure it may report: what is open stays so
until the end. -/
theorem close_moves (d : Decoder) (outcome : Outcome) (response : Response) :
    Moves d.boards (d.close outcome response).1 (d.close outcome response).2.boards := by
  have told : ∀ closing : Closing, closing.finished = d.closing.finished →
      ∀ reason, Moves d.boards [] ⟨d.calls, d.reasoning, closing.offer .live reason⟩ := fun closing h reason =>
    (Move.learn d.boards (closing.offer .live reason) ((Closing.offer_finished _ _ _).trans h)).moves
  have failed : ∀ closing : Closing, closing.finished = d.closing.finished →
      Moves d.boards (d.close outcome response).1 ⟨d.calls, d.reasoning, closing.offer .live outcome.reason⟩ := by
    intro closing h
    unfold close
    simp only
    split
    · exact (told closing h _).trans (Move.tell (e := .ofBackend _ _) _ trivial).moves
    · exact told closing h _
  unfold close at *
  cases response.id <;> cases response.usage <;> exact failed _ rfl

theorem apply_moves (d : Decoder) (raw : Json) (signal : Signal) :
    Moves d.boards (d.apply raw signal).events (d.apply raw signal).state.boards := by
  cases signal with
  | started response =>
    simp only [apply]
    cases response.id with
    | none => exact .nil d.boards
    | some id => exact (Move.learn d.boards (d.closing.setResponseId id) rfl).moves
  | itemAdded index item => exact announce_moves d index item
  | itemDone index item => exact finishItem_moves d index item
  | textDelta text =>
    simp only [apply]
    split
    · exact .nil d.boards
    · exact (Move.tell (e := .delta text) d.boards trivial).moves
  | note => exact (Move.tell (e := .notice "annotation" raw) d.boards trivial).moves
  | argumentsDelta target fragment =>
    exact (Move.draft d.boards (d.callKey target) fun draft =>
      { draft with id := draft.id <|> target.callId, arguments := draft.arguments ++ fragment }).moves
  | argumentsDone target arguments => exact completeCall_moves d _ _
  | reasoningDelta itemId text =>
    rcases h : d.reasoning.push (.ofId itemId) text with ⟨event, reasoning⟩
    simp only [apply, h]
    exact (Move.push d.boards h).moves
  | ended outcome response => exact close_moves d outcome response
  | error code detail =>
    have hoffer := Move.learn d.boards (d.closing.offer .live "error") (Closing.offer_finished _ _ _)
    exact .cons hoffer (Move.tell (e := .ofBackend (code.getD "error") (detail.getD "stream error")) _ trivial).moves
  | idle => exact .nil d.boards

theorem step_moves (d : Decoder) (payload : String) :
    Moves d.boards (d.step payload).events (d.step payload).state.boards := by
  unfold step
  split
  · exact apply_moves d _ _
  · next problem _ => exact (Move.tell (e := .malformed .responses problem) d.boards trivial).moves

theorem rescanItem_moves (d : Decoder) (position : Nat) (item : Json) :
    Moves d.boards (d.rescanItem position item).1 (d.rescanItem position item).2.boards := by
  unfold rescanItem
  split
  · split
    · exact .nil d.boards
    · split
      · exact .nil d.boards
      · exact completeCall_moves d _ _
  · exact finishReasoning_moves d _ _ item
  · exact .nil d.boards

theorem rescanItems_moves (items : List Json) (d : Decoder) (position : Nat) :
    Moves d.boards (d.rescanItems position items).1 (d.rescanItems position items).2.boards := by
  induction items generalizing d position with
  | nil => exact .nil d.boards
  | cons item more ih => exact (rescanItem_moves d position item).trans (ih _ _)

/-- The closing response adds its status at most. -/
theorem reopen_moves (d : Decoder) (response : Response) : Moves d.boards [] (d.reopen response).boards := by
  unfold reopen
  cases response.status with
  | none => exact .nil d.boards
  | some status =>
    exact (Move.learn d.boards (d.closing.offer .rescan status) (Closing.offer_finished _ _ _)).moves

theorem rescan_moves (d : Decoder) : Moves d.boards d.rescan.1 d.rescan.2.boards := by
  unfold rescan
  split
  · exact .nil d.boards
  · next response _ => exact (reopen_moves d response).trans (rescanItems_moves response.output _ 0)

theorem finish_moves (d : Decoder) : ∃ events b, Moves d.boards events b ∧
    d.finish.1 = events ++ b.finish.1 ∧ d.finish.2.boards = b.finish.2 :=
  ⟨_, _, rescan_moves d, rfl, rfl⟩

end Responses.Decoder

/-! ## Every backend -/

namespace Decoder

def boards : Decoder → Boards
  | .anthropic d => d.boards
  | .responses d => d.boards
  | .chat d => d.boards

/-- A new decoder has empty boards. -/
theorem boards_of_create {backend : Backend} {tags : List String} {d : Decoder} (h : create backend tags = .ok d) :
    d.boards = {} := by
  cases backend with
  | anthropic | responses => cases h; rfl
  | chat =>
    simp only [create, Chat.Decoder.ofTags] at h
    cases ht : InlineTag.Scanner.ofNames tags with
    | error f => rw [ht] at h; cases h
    | ok scanner => rw [ht] at h; cases h; rfl

/-- Decoding a payload is a sequence of moves. -/
theorem step_moves (d : Decoder) (payload : String) :
    Moves d.boards (d.step payload).events (d.step payload).state.boards := by
  cases d with
  | anthropic d => exact d.step_moves payload
  | responses d => exact d.step_moves payload
  | chat d => exact d.step_moves payload

/-- The end of a stream is a sequence of moves and then the end of the boards. -/
theorem finish_moves (d : Decoder) : ∃ events b, Moves d.boards events b ∧
    d.finish.1 = events ++ b.finish.1 ∧ d.finish.2.boards = b.finish.2 := by
  cases d with
  | anthropic d => exact ⟨[], d.boards, .nil _, rfl, rfl⟩
  | responses d => exact d.finish_moves
  | chat d => exact d.finish_moves

end Decoder

end ModelStream
