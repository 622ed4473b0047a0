/-
Frames that have no effect but to be reported. Between two chunks of a stream, where the session is reading and
nothing is kept in its buffer, the frame of a payload that is refused adds one event, the report, behind the
events of the first chunk; the frame of a payload of an unknown kind adds nothing (`Playback.events_of_frame`).
In both cases the session goes on as if the frame had not been there.

A payload that is the sentinel but for blanks before it is no such payload: blanks around the sentinel do not
count, so its frame ends the stream (`Playback.events_of_frame_sentinel`).
-/
import ModelStream.Proofs.Decoder.Refusal
import ModelStream.Proofs.Frame.Payload
import ModelStream.Proofs.Session.Playback

namespace ModelStream

open Text (Bytes)

namespace Decoder

theorem backend_of_framing {d e : Decoder} (h : d.framing = e.framing) : d.backend = e.backend := by
  cases d <;> cases e <;> first | rfl | cases h

end Decoder

namespace Session

variable {s : Session} {payload : String}

theorem feed_written (hs : s.finished = false) (hb : s.buffer = {}) (h : Frame.OneLine payload)
    (hdata : Text.trim payload.toList ≠ Frame.sentinel) :
    s.feed (s.decoder.framing.write payload) = s.decode [.data payload] := by
  have hpush := FrameBuffer.push_written s.decoder.framing h hdata
  rw [← hb] at hpush
  rw [feed_of_reading hs, hpush]

theorem decode_refused {problem : Json.Problem} (h : Decoder.refusal? s.decoder.backend payload = some problem) :
    s.decode [.data payload] = { s with queue := s.queue ++ [.malformed s.decoder.backend problem] } := by
  have hstep := s.decoder.step_refused h
  have hmore : (s.decoder.step payload).flow = .more := by rw [hstep]; rfl
  rw [decode_data_more hmore, decode_nil, advance, hstep]
  rfl

theorem decode_unknown (h : Decoder.Unknown s.decoder.backend payload) : s.decode [.data payload] = s := by
  have hstep := s.decoder.step_unknown h
  have hmore : (s.decoder.step payload).flow = .more := by rw [hstep]
  rw [decode_data_more hmore, decode_nil, advance, hstep, List.append_nil]

/-- What is queued comes first, and nothing that follows looks at it. -/
theorem settle_queued (s : Session) (queue : List Event) (chunks : List Bytes) :
    ({ s with queue }.settle chunks).queue = queue ++ ({ s with queue := [] }.settle chunks).queue := by
  have hbehind : { s with queue } = { s with queue := [] }.behind queue := by simp [behind]
  rw [hbehind, settle_behind]
  rfl

end Session

namespace Playback

open Session

/-- A frame between two chunks adds the report of its payload where that is refused, and nothing where it is of
an unknown kind. -/
theorem events_of_frame {d : Decoder} {x : Bytes} {payload : String}
    (hreading : (({ decoder := d } : Session).feed x).finished = false)
    (hempty : (({ decoder := d } : Session).feed x).buffer = {}) (h : Frame.OneLine payload)
    (hdata : Text.trim payload.toList ≠ Frame.sentinel) (y : Bytes) :
    (∀ problem, Decoder.refusal? d.backend payload = some problem → ∃ later,
      (ofChunks d [x, y]).events = (({ decoder := d } : Session).feed x).queue ++ later ∧
      (ofChunks d [x, d.framing.write payload, y]).events =
        (({ decoder := d } : Session).feed x).queue ++ .malformed d.backend problem :: later) ∧
    (Decoder.Unknown d.backend payload →
      (ofChunks d [x, d.framing.write payload, y]).events = (ofChunks d [x, y]).events) := by
  have hframing := feed_framing { decoder := d } x
  have hbackend := Decoder.backend_of_framing hframing
  have hplain : (ofChunks d [x, y]).events = ((({ decoder := d } : Session).feed x).settle [y]).queue := events_eq _
  have hframe : (ofChunks d [x, d.framing.write payload, y]).events =
      (((({ decoder := d } : Session).feed x).feed (d.framing.write payload)).settle [y]).queue := events_eq _
  generalize ({ decoder := d } : Session).feed x = s at *
  rw [← hframing, feed_written hreading hempty h hdata] at hframe
  rw [← hframing, hplain, hframe, ← hbackend]
  refine ⟨fun problem hproblem => ?_, fun hunknown => by rw [decode_unknown hunknown]⟩
  refine ⟨({ s with queue := [] }.settle [y]).queue, settle_queued s s.queue [y], ?_⟩
  rw [decode_refused hproblem, settle_queued, List.append_assoc]
  rfl

/-- A block that cannot be read, and a payload of an unknown kind. -/
theorem events_of_frame_block :
    let d : Decoder := .anthropic {}
    let x := Text.bytesOf "data: \x7b\"type\":\"error\",\"error\":\x7b\x7d\x7d\n\n"
    let y := Text.bytesOf "data: \x7b\"type\":\"message_stop\"\x7d\n\n"
    let block := "\x7b\"type\":\"content_block_start\",\"index\":0,\"content_block\":\x7b\"type\":\"text\",\"text\":5\x7d\x7d"
    let other := "\x7b\"type\":\"extra\"\x7d"
    (({ decoder := d } : Session).feed x).finished = false ∧ (({ decoder := d } : Session).feed x).buffer = {} ∧
      (∃ later, (ofChunks d [x, y]).events = (({ decoder := d } : Session).feed x).queue ++ later ∧
        (ofChunks d [x, d.framing.write block, y]).events =
          (({ decoder := d } : Session).feed x).queue ++ .malformed .anthropic .mismatched :: later) ∧
      (ofChunks d [x, d.framing.write other, y]).events = (ofChunks d [x, y]).events := by
  intro d x y block other
  have hreading : (({ decoder := d } : Session).feed x).finished = false := by decide +kernel
  have hempty : (({ decoder := d } : Session).feed x).buffer = {} := by decide +kernel
  have hblock : Frame.OneLine block := ⟨by decide +kernel, by decide +kernel, by decide +kernel, by decide +kernel⟩
  have hother : Frame.OneLine other := ⟨by decide +kernel, by decide +kernel, by decide +kernel, by decide +kernel⟩
  have hunknown : Decoder.Unknown d.backend other := by
    show Json.OtherThan Anthropic.kinds other ∧ _
    unfold Json.OtherThan
    decide +kernel
  refine ⟨hreading, hempty, ?_, (events_of_frame hreading hempty hother (by decide +kernel) y).2 hunknown⟩
  exact (events_of_frame hreading hempty hblock (by decide +kernel) y).1 .mismatched (by decide +kernel)

/-- Not the sentinel itself and not to be read, but without the blank at its start the sentinel. -/
theorem events_of_frame_sentinel :
    let d : Decoder := .responses {}
    let x := Text.bytesOf "data: \x7b\"type\":\"response.output_text.delta\",\"delta\":\"a\"\x7d\n"
    let y := Text.bytesOf "data: \x7b\"type\":\"response.output_text.delta\",\"delta\":\"b\"\x7d\n"
    Frame.OneLine " [DONE]" ∧ " [DONE]" ≠ "[DONE]" ∧ Decoder.refusal? d.backend " [DONE]" = some .malformed ∧
      (({ decoder := d } : Session).feed x).finished = false ∧ (({ decoder := d } : Session).feed x).buffer = {} ∧
      ¬ ∃ later, (ofChunks d [x, y]).events = (({ decoder := d } : Session).feed x).queue ++ later ∧
        (ofChunks d [x, d.framing.write " [DONE]", y]).events =
          (({ decoder := d } : Session).feed x).queue ++ .malformed .responses .malformed :: later := by
  intro d x y
  refine ⟨⟨by decide +kernel, by decide +kernel, by decide +kernel, by decide +kernel⟩, by decide, by decide +kernel, by decide +kernel,
    by decide +kernel, ?_⟩
  rintro ⟨later, hplain, hframe⟩
  have htwo : (ofChunks d [x, d.framing.write " [DONE]", y]).events.length = 2 := by
    rw [events_eq]
    decide +kernel
  have hthree : (ofChunks d [x, y]).events.length = 3 := by
    rw [events_eq]
    decide +kernel
  rw [hframe, List.length_append, List.length_cons] at htwo
  rw [hplain, List.length_append] at hthree
  omega

end Playback

end ModelStream
