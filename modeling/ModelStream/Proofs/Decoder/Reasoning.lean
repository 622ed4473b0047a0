/-
Reasoning of a whole stream. Whatever payloads a new decoder is given, and whatever the backend, the
pieces of reasoning and the ends of reasoning among all events, those of the end of the stream included,
belong together one to one (`Decoder.reasoning_paired`).
-/
import ModelStream.Proofs.Decoder.CallIds
import ModelStream.Proofs.ReasoningBoard

namespace ModelStream.Decoder

/-- The board after the end of the stream, and all its events: nothing is left to be said. -/
theorem finish_reflects {d : Decoder} {events : List Event} (h : d.boards.reasoning.Reflects events)
    (hopen : d.boards.closing.finished = false) :
    ∃ b : ReasoningBoard, b.Reflects (events ++ d.finish.1) ∧ ∀ key, b.Settled key := by
  obtain ⟨found, b, hfound, hfinish, -⟩ := d.finish_moves
  have hclosing : b.closing.finished = false := hfound.finished.trans hopen
  -- the boards end with the open calls, then the open blocks, then the closing event
  have hdrain := b.drain_moves.reflects (hfound.reflects h)
  have hflush := Boards.Moves.reflects (Boards.flush_moves _) hdrain
  have hend : b.finish.1 = b.calls.drain.1.map .toolCall ++ b.reasoning.flush.1 ++
      [.ending { reason := b.closing.reasonText, usage := b.closing.usage, responseId := b.closing.responseId }] := by
    simp [Boards.finish, Closing.finish, hclosing]
  refine ⟨b.reasoning.flush.2, ?_, b.reasoning.settled_flush⟩
  rw [hfinish, hend, ← List.append_assoc, ← List.append_assoc, ← List.append_assoc]
  exact hflush.aside ⟨fun _ => rfl, rfl⟩

theorem drive_payloads_finish (payloads : List String) (d : Decoder) {events : List Event}
    (h : d.boards.reasoning.Reflects events) (hopen : d.boards.closing.finished = false) :
    ∃ b : ReasoningBoard, b.Reflects (events ++ (d.drive (payloads.map .payload ++ [.finish])).1) ∧
      ∀ key, b.Settled key := by
  induction payloads generalizing d events with
  | nil =>
    show ∃ b : ReasoningBoard, b.Reflects (events ++ (d.finish.1 ++ [])) ∧ _
    rw [List.append_nil]
    exact finish_reflects h hopen
  | cons payload more ih =>
    have hstep := d.step_moves payload
    obtain ⟨b, hb, hsettled⟩ := ih (d.step payload).state (hstep.reflects h) (hstep.finished.trans hopen)
    refine ⟨b, ?_, hsettled⟩
    rw [List.append_assoc] at hb
    exact hb

theorem reflects_of_create {backend : Backend} {tags : List String} {d : Decoder} (h : create backend tags = .ok d) :
    d.boards.reasoning.Reflects [] ∧ d.boards.closing.finished = false := by
  rw [boards_of_create h]
  exact ⟨.start, rfl⟩

/-- Every key under which a stream gives out a piece of reasoning ends exactly once, after its last piece,
with all its pieces joined as the text and in the metadata; nothing else ends; and no piece is empty or
has blanks at its ends. -/
theorem reasoning_paired {backend : Backend} {tags : List String} {d : Decoder} (hd : create backend tags = .ok d)
    (payloads : List String) : ∃ keys, Paired keys (d.drive (payloads.map .payload ++ [.finish])).1 := by
  obtain ⟨hstart, hopen⟩ := reflects_of_create hd
  obtain ⟨b, hb, hsettled⟩ := drive_payloads_finish payloads d hstart hopen
  exact ⟨_, hb.paired hsettled⟩

/-- A block that is only signed, a piece for it after it was stopped once, a stop that ends it, and a piece
that comes too late. The three events are the piece, the end of the block and the closing event. -/
theorem reasoning_paired_late :
    let payloads : List String :=
      [ "\x7b\"type\": \"content_block_delta\", \"index\": 0, \"delta\":
           \x7b\"type\": \"signature_delta\", \"signature\": \"ab\"\x7d\x7d",
        "\x7b\"type\": \"content_block_stop\", \"index\": 0\x7d",
        "\x7b\"type\": \"content_block_delta\", \"index\": 0, \"delta\":
           \x7b\"type\": \"thinking_delta\", \"thinking\": \" plan \"\x7d\x7d",
        "\x7b\"type\": \"content_block_stop\", \"index\": 0\x7d",
        "\x7b\"type\": \"content_block_delta\", \"index\": 0, \"delta\":
           \x7b\"type\": \"thinking_delta\", \"thinking\": \"late\"\x7d\x7d" ]
    let events := ((Decoder.anthropic {}).drive (payloads.map .payload ++ [.finish])).1
    create .anthropic [] = .ok (.anthropic {}) ∧ (∃ keys, Paired keys events) ∧
      thoughts (.named "0") events = ["plan"] ∧
      (blockEnds events).map (fun ended => (ended.1, (Json.obj ended.2).render)) =
        [("plan", "\x7b\"text\":\"plan\"\x7d")] ∧
      events.length = 3 := by
  intro payloads events
  have hcreate : create .anthropic [] = .ok (.anthropic {}) := rfl
  refine ⟨hcreate, reasoning_paired hcreate payloads, ?_⟩
  decide +kernel

end ModelStream.Decoder
