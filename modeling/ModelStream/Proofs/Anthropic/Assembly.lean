/-
Assembly of tool calls in Anthropic streams. In an orderly stream every stop of an open tool block gives
out its call, with the arguments that came for it; the stream ends with the stop that leaves no block
open; and at any other end the blocks still open are given out in the order of their indices, before the
ends of reasoning and the closing event (`Orderly.assembled`).
-/
import ModelStream.Proofs.Anthropic.Signals
import ModelStream.Proofs.Session.Terminal

namespace ModelStream.Anthropic

variable {s : Signal} {b : ToolBlock} {d : Decoder}

/-! ## Reading payloads -/

/-- The signal of a payload that can be read. -/
def said (payload : String) : Option Signal := (Signal.ofText payload).toOption

def signals (payloads : List String) : List Signal := payloads.filterMap said

/-- The session of a new decoder after these payloads. -/
def read (payloads : List String) : Session :=
  ({ decoder := .anthropic {} } : Session).decode (payloads.map .data)

variable {before : List String} {payload : String}

theorem signals_concat (before : List String) (payload : String) :
    signals (before ++ [payload]) = signals before ++ (said payload).toList := by
  rw [signals, List.filterMap_append, signals]
  cases h : said payload <;> simp [h]

theorem Decoder.step_of_said (hs : said payload = some s) (d : Decoder) : d.step payload = d.apply s := by
  unfold Decoder.step
  cases h : Signal.ofText payload with
  | ok signal =>
    rw [said, h] at hs
    cases hs
    rfl
  | error => rw [said, h] at hs; cases hs

/-- A payload that cannot be read is reported. -/
theorem Decoder.step_of_unsaid (hs : said payload = none) (d : Decoder) :
    ∃ problem, d.step payload = .unread d .anthropic problem := by
  unfold Decoder.step
  cases h : Signal.ofText payload with
  | ok => rw [said, h] at hs; cases hs
  | error problem => exact ⟨problem, rfl⟩

theorem read_append (hf : (read before).finished = false) (frames : List Frame) :
    ({ decoder := .anthropic {} } : Session).decode (before.map .data ++ frames) = (read before).decode frames := by
  rw [Session.decode_append _ _ rfl]
  exact if_neg (by simpa [read] using hf)

theorem read_concat (hf : (read before).finished = false) (payload : String) :
    read (before ++ [payload]) = (read before).decode [.data payload] := by
  rw [read, List.map_append]
  exact read_append hf _

/-- The session goes on, with a decoder that knows the history. -/
structure Under (before : List String) (d : Decoder) : Prop where
  reading : (read before).finished = false
  decoder : (read before).decoder = .anthropic d
  holds : Holds (signals before) d.calls
  pending : d.closing.finished = false

namespace Under

theorem more_of_ne_finish {flow : Flow} (h : flow ≠ .finish) : flow = .more := by
  cases flow with
  | more => rfl
  | finish => exact (h rfl).elim

/-- What one more payload adds, when the stream goes on after it. -/
theorem read_of_more (h : Under before d) (hflow : (d.step payload).flow = .more) :
    read (before ++ [payload]) = (read before).advance payload := by
  rw [read_concat h.reading, Session.decode_data_more (by rw [h.decoder]; exact hflow), Session.decode_nil]

/-- What one more payload adds, when the stream ends with it. -/
theorem read_of_finish (h : Under before d) (hflow : (d.step payload).flow = .finish) :
    read (before ++ [payload]) = ((read before).advance payload).close := by
  rw [read_concat h.reading, Session.decode_data_finish (by rw [h.decoder]; exact hflow)]

theorem advance_queue (h : Under before d) :
    ((read before).advance payload).queue = (read before).queue ++ (d.step payload).events := by
  rw [Session.advance, h.decoder]
  rfl

theorem close_queue (h : Under before d) :
    ((read before).advance payload).close.queue =
      (read before).queue ++ (d.step payload).events ++ (d.step payload).state.finish.1 := by
  rw [Session.advance, h.decoder]
  rfl

theorem finished_iff (h : Under before d) :
    (read (before ++ [payload])).finished = true ↔ (d.step payload).flow = .finish := by
  cases hflow : (d.step payload).flow with
  | finish => simp [h.read_of_finish hflow]
  | more => simp [h.read_of_more hflow, h.reading]

theorem step_pending (h : Under before d) (payload : String) : (d.step payload).state.closing.finished = false :=
  (d.step_moves payload).finished.trans h.pending

/-- A payload that stops no open block. -/
theorem other (h : Under before d) (ho : Orderly (signals (before ++ [payload])))
    (hother : ∀ b ∈ openBlocks (signals before), said payload ≠ some (.blockStop b.index)) :
    Holds (signals (before ++ [payload])) (d.step payload).state.calls ∧ toolCalls (d.step payload).events = [] ∧
      ((d.step payload).flow = .finish ↔ ∃ s ∈ said payload, s.Final) := by
  rw [signals_concat] at ho ⊢
  cases hsaid : said payload with
  | some s =>
    rw [hsaid] at ho hother
    rw [Decoder.step_of_said hsaid]
    simpa using h.holds.apply_other ho fun b hb heq => hother b hb (heq ▸ rfl)
  | none =>
    obtain ⟨problem, hstep⟩ := d.step_of_unsaid hsaid
    rw [hstep]
    simpa [Step.unread] using ⟨h.holds, rfl⟩

/-- The stop of an open block. -/
theorem stop (h : Under before d) (ho : Orderly (signals before)) (hb : b ∈ openBlocks (signals before))
    (hsaid : said payload = some (.blockStop b.index)) :
    Holds (signals (before ++ [payload])) (d.step payload).state.calls ∧
      (d.step payload).events = [.toolCall (b.call (signals before))] ∧
      ((d.step payload).flow = .finish ↔ openBlocks (signals (before ++ [payload])) = []) ∧
      ((d.step payload).flow = .finish → (d.step payload).state.closing.reasonText = some Decoder.toolUse) := by
  rw [signals_concat, hsaid, Decoder.step_of_said hsaid]
  exact h.holds.apply_stop ho hb

theorem holds_step (h : Under before d) (ho : Orderly (signals (before ++ [payload]))) :
    Holds (signals (before ++ [payload])) (d.step payload).state.calls := by
  by_cases hstop : ∃ b ∈ openBlocks (signals before), said payload = some (.blockStop b.index)
  · obtain ⟨b, hb, hsaid⟩ := hstop
    rw [signals_concat] at ho
    exact (h.stop ho.before hb hsaid).1
  · exact (h.other ho fun b hb hsaid => hstop ⟨b, hb, hsaid⟩).1

theorem step (h : Under before d) (ho : Orderly (signals (before ++ [payload])))
    (hflow : (d.step payload).flow = .more) : Under (before ++ [payload]) (d.step payload).state where
  reading := by rw [h.read_of_more hflow]; exact h.reading
  decoder := by
    rw [h.read_of_more hflow, Session.advance, h.decoder]
    rfl
  holds := h.holds_step ho
  pending := h.step_pending payload

theorem closes (h : Under before d) (ho : Orderly (signals (before ++ [payload]))) :
    ∃ e : Ending, e.reason = (d.step payload).state.closing.reasonText ∧
      Closes (signals (before ++ [payload])) (d.step payload).state.finish.1 e :=
  (h.holds_step ho).closes ho (h.step_pending payload)

end Under

/-- A session that goes on after orderly payloads has kept count of them. -/
theorem under_of_reading {payloads : List String} (ho : Orderly (signals payloads))
    (hf : (read payloads).finished = false) : ∃ d, Under payloads d := by
  induction payloads using List.reverseRecOn with
  | nil => exact ⟨{}, rfl, rfl, .start, rfl⟩
  | append_singleton before payload ih =>
    have hbefore : Orderly (signals before) := by
      rw [signals_concat] at ho
      exact ho.before
    cases hread : (read before).finished with
    | true =>
      -- a session that has ended takes nothing more in
      have hstays : read (before ++ [payload]) = read before := by
        rw [read, List.map_append, Session.decode_append _ _ rfl]
        exact if_pos hread
      rw [hstays, hread] at hf
      cases hf
    | false =>
      obtain ⟨d, h⟩ := ih hbefore hread
      cases hflow : (d.step payload).flow with
      | finish => rw [h.finished_iff.2 hflow] at hf; cases hf
      | more => exact ⟨_, h.step ho hflow⟩

/-! ## What a stream gives out for its tool blocks -/

/-- The stream goes on until this payload of the list. -/
structure Reads (payloads before : List String) (payload : String) : Prop where
  split : before ++ [payload] <+: payloads
  reading : (read before).finished = false

/-- The payload stops an open tool block. -/
def Stops (before : List String) (payload : String) (b : ToolBlock) : Prop :=
  b ∈ openBlocks (signals before) ∧ said payload = some (.blockStop b.index)

structure Assembled (payloads : List String) : Prop where
  /-- The stop of an open block gives out its call; if it leaves no block open, the stream ends with it. -/
  stop : ∀ before payload b, Reads payloads before payload → Stops before payload b → ∃ rest,
    (read (before ++ [payload])).queue = (read before).queue ++ .toolCall (b.call (signals before)) :: rest ∧
      if openBlocks (signals (before ++ [payload])) = [] then
        ∃ e : Ending, e.reason = some "tool_use" ∧ Closes (signals (before ++ [payload])) rest e
      else rest = []
  /-- No other payload gives out a call, unless it ends the stream. -/
  other : ∀ before payload, Reads payloads before payload → (∀ b, ¬ Stops before payload b) →
    (read (before ++ [payload])).finished = false →
    ∃ told, (read (before ++ [payload])).queue = (read before).queue ++ told ∧ toolCalls told = []
  /-- The stream ends at a payload that says so and at a stop that leaves no block open, and at no other. -/
  ends : ∀ before payload, Reads payloads before payload →
    ((read (before ++ [payload])).finished = true ↔ (∃ s ∈ said payload, s.Final) ∨
      (∃ b, Stops before payload b) ∧ openBlocks (signals (before ++ [payload])) = [])
  /-- A payload that says that the stream is over closes it. -/
  final : ∀ before payload, Reads payloads before payload → (∃ s ∈ said payload, s.Final) → ∃ rest e,
    (read (before ++ [payload])).queue = (read before).queue ++ rest ∧ Closes (signals (before ++ [payload])) rest e
  /-- So does the frame after the last payload, and the end of the input. -/
  closed : (read payloads).finished = false → ∀ tail : List Frame, tail = [] ∨ tail.head? = some .done → ∃ rest e,
    (({ decoder := .anthropic {} } : Session).decode (payloads.map .data ++ tail)).endOfInput.queue =
      (read payloads).queue ++ rest ∧ Closes (signals payloads) rest e

namespace Under

theorem queue_of_stop (h : Under before d) (ho : Orderly (signals (before ++ [payload])))
    (hstops : Stops before payload b) : ∃ rest,
    (read (before ++ [payload])).queue = (read before).queue ++ .toolCall (b.call (signals before)) :: rest ∧
      if openBlocks (signals (before ++ [payload])) = [] then
        ∃ e : Ending, e.reason = some "tool_use" ∧ Closes (signals (before ++ [payload])) rest e
      else rest = [] := by
  have hbefore := ho
  rw [signals_concat] at hbefore
  obtain ⟨-, hevents, hflow, hreason⟩ := h.stop hbefore.before hstops.1 hstops.2
  split
  · next hnone =>
    have hfinish := hflow.2 hnone
    obtain ⟨e, he, hcloses⟩ := h.closes ho
    refine ⟨(d.step payload).state.finish.1, ?_, e, he.trans (hreason hfinish), hcloses⟩
    rw [h.read_of_finish hfinish, h.close_queue, hevents]
    simp
  · next hsome =>
    refine ⟨[], ?_, rfl⟩
    rw [h.read_of_more (more_of_ne_finish fun hfinish => hsome (hflow.1 hfinish)), h.advance_queue, hevents]

theorem queue_of_other (h : Under before d) (ho : Orderly (signals (before ++ [payload])))
    (hother : ∀ b, ¬ Stops before payload b) (hgoes : (read (before ++ [payload])).finished = false) :
    ∃ told, (read (before ++ [payload])).queue = (read before).queue ++ told ∧ toolCalls told = [] := by
  obtain ⟨-, hsilent, -⟩ := h.other ho fun b hb hsaid => hother b ⟨hb, hsaid⟩
  refine ⟨_, ?_, hsilent⟩
  rw [h.read_of_more, h.advance_queue]
  refine more_of_ne_finish fun hfinish => ?_
  rw [h.finished_iff.2 hfinish] at hgoes
  cases hgoes

theorem finished_iff_ends (h : Under before d) (ho : Orderly (signals (before ++ [payload]))) :
    (read (before ++ [payload])).finished = true ↔ (∃ s ∈ said payload, s.Final) ∨
      (∃ b, Stops before payload b) ∧ openBlocks (signals (before ++ [payload])) = [] := by
  rw [h.finished_iff]
  by_cases hstop : ∃ b, Stops before payload b
  · obtain ⟨b, hstops⟩ := hstop
    have hbefore := ho
    rw [signals_concat] at hbefore
    obtain ⟨-, -, hflow, -⟩ := h.stop hbefore.before hstops.1 hstops.2
    have hfinal : ¬ ∃ s ∈ said payload, s.Final := by
      rintro ⟨s, hs, hf⟩
      rw [hstops.2] at hs
      cases hs
      exact hf
    rw [hflow]
    exact ⟨fun hnone => .inr ⟨⟨b, hstops⟩, hnone⟩, fun hcase => (hcase.resolve_left hfinal).2⟩
  · obtain ⟨-, -, hflow⟩ := h.other ho fun b hb hsaid => hstop ⟨b, hb, hsaid⟩
    rw [hflow]
    exact ⟨.inl, fun hcase => hcase.resolve_right fun hno => hstop hno.1⟩

theorem queue_of_final (h : Under before d) (ho : Orderly (signals (before ++ [payload])))
    (hfinal : ∃ s ∈ said payload, s.Final) : ∃ rest e,
    (read (before ++ [payload])).queue = (read before).queue ++ rest ∧
      Closes (signals (before ++ [payload])) rest e := by
  obtain ⟨s, hsaid, hs⟩ := hfinal
  obtain ⟨hnothing, hnostop⟩ := d.apply_of_final hs
  obtain ⟨-, -, hflow⟩ := h.other ho fun b _ hstop =>
    hnostop b.index (Option.some.inj (hsaid.symm.trans hstop))
  obtain ⟨e, -, hcloses⟩ := h.closes ho
  refine ⟨_, e, ?_, hcloses⟩
  rw [h.read_of_finish (hflow.2 ⟨s, hsaid, hs⟩), h.close_queue, d.step_of_said hsaid, hnothing, List.append_nil]

/-- The session is closed after the payloads, by a frame or because the input ends. -/
theorem queue_of_over (h : Under before d) (ho : Orderly (signals before)) {tail : List Frame}
    (htail : tail = [] ∨ tail.head? = some .done) : ∃ rest e,
    (({ decoder := .anthropic {} } : Session).decode (before.map .data ++ tail)).endOfInput.queue =
      (read before).queue ++ rest ∧ Closes (signals before) rest e := by
  obtain ⟨e, -, hcloses⟩ := h.holds.closes ho h.pending
  refine ⟨_, e, ?_, hcloses⟩
  have hclose : (read before).close.queue = (read before).queue ++ d.finish.1 := by
    rw [Session.close, h.decoder]
    rfl
  rw [read_append h.reading, ← hclose]
  rcases htail with rfl | hdone
  · rw [Session.decode_nil, Session.endOfInput_of_reading h.reading]
    rfl
  · obtain ⟨more, rfl⟩ := List.head?_eq_some_iff.1 hdone
    rw [Session.decode_done, Session.endOfInput_of_finished (Session.close_finished _)]

end Under

/-- Orderly tool blocks are put together and given out as the stream says. -/
theorem Orderly.assembled {payloads : List String} (h : Orderly (signals payloads)) : Assembled payloads := by
  have horderly : ∀ {first}, first <+: payloads → Orderly (signals first) := by
    rintro first ⟨rest, rfl⟩
    rw [signals, List.filterMap_append] at h
    exact h.before
  have hunder : ∀ {before payload}, Reads payloads before payload →
      Orderly (signals (before ++ [payload])) ∧ ∃ d, Under before d := fun hread =>
    ⟨horderly hread.split,
      under_of_reading (horderly ((List.prefix_append ..).trans hread.split)) hread.reading⟩
  refine ⟨?_, ?_, ?_, ?_, ?_⟩
  · intro before payload b hread hstops
    obtain ⟨ho, d, hd⟩ := hunder hread
    exact hd.queue_of_stop ho hstops
  · intro before payload hread hother hgoes
    obtain ⟨ho, d, hd⟩ := hunder hread
    exact hd.queue_of_other ho hother hgoes
  · intro before payload hread
    obtain ⟨ho, d, hd⟩ := hunder hread
    exact hd.finished_iff_ends ho
  · intro before payload hread hfinal
    obtain ⟨ho, d, hd⟩ := hunder hread
    exact hd.queue_of_final ho hfinal
  · intro hgoes tail htail
    obtain ⟨d, hd⟩ := under_of_reading h hgoes
    exact hd.queue_of_over h htail

/-- Two blocks that take arguments in turn, the later one stopped first, and the other one left open. -/
theorem assembled_interleaved :
    let payloads : List String :=
      [ "\x7b\"type\":\"content_block_start\",\"index\":4,\"content_block\":\x7b\"type\":\"tool_use\",\"id\":\"a\",\"name\":\"f\"\x7d\x7d",
        "\x7b\"type\":\"content_block_start\",\"index\":2,\"content_block\":\x7b\"type\":\"tool_use\",\"id\":\"b\",\"name\":\"g\"\x7d\x7d",
        "\x7b\"type\":\"content_block_delta\",\"index\":4,\"delta\":\x7b\"type\":\"input_json_delta\",\"partial_json\":\"[\"\x7d\x7d",
        "\x7b\"type\":\"content_block_delta\",\"index\":2,\"delta\":\x7b\"type\":\"input_json_delta\",\"partial_json\":\"1\"\x7d\x7d",
        "\x7b\"type\":\"content_block_delta\",\"index\":4,\"delta\":\x7b\"type\":\"input_json_delta\",\"partial_json\":\"]\"\x7d\x7d",
        "\x7b\"type\":\"content_block_stop\",\"index\":4\x7d" ]
    let ended := (({ decoder := .anthropic {} } : Session).decode (payloads.map .data)).endOfInput
    let shown := fun call : ToolCall => (call.id, call.name, call.rawArguments, call.arguments.render)
    Orderly (signals payloads) ∧ Assembled payloads ∧
      (toolCalls (read payloads).queue).map shown = [("a", "f", "[]", "[]")] ∧
      (toolCalls ended.queue).map shown = [("a", "f", "[]", "[]"), ("b", "g", "1", "1")] := by
  intro payloads ended shown
  have horderly : Orderly (signals payloads) := by decide +kernel
  refine ⟨horderly, horderly.assembled, ?_⟩
  decide +kernel

end ModelStream.Anthropic
