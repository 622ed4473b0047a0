/-
What a playback gives out depends on the bytes of its chunks alone, wherever they are cut, as long as
frames are lines.

A playback takes its chunks in one by one and only when it has nothing left to give out. Decoding
never looks at the queue, so its events are those that are queued when all chunks are taken in at
once and the input is then ended (`Playback.events_eq`). Taking in two chunks in turn and taking in
both together leave sessions that are alike: they differ at most in the buffer of a finished session,
which nothing reads any more (`Session.feed_append`).
-/
import ModelStream.Feed
import ModelStream.Proofs.Frame.Lines
import ModelStream.Proofs.Session.Basic

namespace ModelStream

open Text (Bytes)

namespace Session

/-! ## Queued events are never looked at -/

/-- The session with these events queued before its own. -/
def behind (s : Session) (events : List Event) : Session := { s with queue := events ++ s.queue }

variable (events : List Event)

@[simp] theorem behind_finished (s : Session) : (s.behind events).finished = s.finished := rfl

@[simp] theorem behind_queue (s : Session) : (s.behind events).queue = events ++ s.queue := rfl

theorem close_behind (s : Session) : (s.behind events).close = s.close.behind events := by
  simp [close, behind]

theorem advance_behind (s : Session) (payload : String) :
    (s.behind events).advance payload = (s.advance payload).behind events := by
  simp [advance, behind]

theorem decode_behind (frames : List Frame) (s : Session) :
    (s.behind events).decode frames = (s.decode frames).behind events := by
  induction frames generalizing s with
  | nil => rfl
  | cons frame more ih =>
    cases frame with
    | done => exact close_behind events s
    | data payload =>
      cases h : (s.decoder.step payload).flow with
      | finish => rw [decode_data_finish h, decode_data_finish (s := s.behind events) h, advance_behind, close_behind]
      | more => rw [decode_data_more h, decode_data_more (s := s.behind events) h, advance_behind, ih]

theorem feed_behind (s : Session) (chunk : Bytes) : (s.behind events).feed chunk = (s.feed chunk).behind events := by
  cases h : s.finished with
  | true => rw [feed_of_finished h, feed_of_finished (by simpa using h)]
  | false =>
    rw [feed_of_reading h, feed_of_reading (by simpa using h)]
    exact decode_behind events _ { s with buffer := (s.buffer.push s.decoder.framing chunk).2 }

theorem endOfInput_behind (s : Session) : (s.behind events).endOfInput = s.endOfInput.behind events := by
  cases h : s.finished with
  | true => rw [endOfInput_of_finished h, endOfInput_of_finished (by simpa using h)]
  | false =>
    rw [endOfInput_of_reading h, endOfInput_of_reading (by simpa using h)]
    exact close_behind events { s with buffer := s.buffer.finish }

/-- All chunks taken in, and the input ended. -/
def settle (s : Session) (chunks : List Bytes) : Session := (chunks.foldl feed s).endOfInput

theorem settle_behind (chunks : List Bytes) (s : Session) :
    (s.behind events).settle chunks = (s.settle chunks).behind events := by
  unfold settle
  induction chunks generalizing s with
  | nil => exact endOfInput_behind events s
  | cons chunk more ih =>
    rw [List.foldl_cons, List.foldl_cons, feed_behind]
    exact ih _

omit events in
theorem settle_of_finished {s : Session} (h : s.finished = true) (chunks : List Bytes) : s.settle chunks = s := by
  unfold settle
  induction chunks with
  | nil => exact endOfInput_of_finished h
  | cons chunk more ih => rwa [List.foldl_cons, feed_of_finished h]

omit events in
/-- Taking the first event out is undone by putting it back in front. -/
theorem behind_of_next? {s t : Session} {e : Event} (h : s.next? = some (e, t)) : s = t.behind [e] := by
  unfold next? at h
  split at h
  · cases h
  · next x rest hq =>
    cases h
    simp [behind, ← hq]

omit events in
theorem queue_of_next? {s : Session} (h : s.next? = none) : s.queue = [] := by
  unfold next? at h
  split at h
  · assumption
  · cases h

end Session

/-! ## On demand and all at once -/

namespace Playback

open Session

/-- One event given out is the first of those that would be queued in the end. -/
theorem settle_of_pull {s : Session} {chunks : List Bytes} {e : Event} {p : Playback}
    (h : pull s chunks = (some e, p)) : (s.settle chunks).queue = e :: (p.session.settle p.chunks).queue := by
  induction chunks generalizing s with
  | nil =>
    unfold pull at h
    split at h
    · next hn =>
      cases h
      rw [behind_of_next? hn, settle_behind]
      rfl
    · split at h
      · cases h
      · simp only at h
        split at h
        · next hn =>
          cases h
          have hfin := (next?_eq_some hn).1.trans (endOfInput_finished s)
          rw [settle_of_finished hfin]
          show s.endOfInput.queue = _
          rw [behind_of_next? hn]
          rfl
        · cases h
  | cons chunk more ih =>
    unfold pull at h
    split at h
    · next hn =>
      cases h
      rw [behind_of_next? hn, settle_behind]
      rfl
    · split at h
      · cases h
      · exact ih h

/-- Nothing is given out any more when nothing would be queued. -/
theorem settle_of_pull_none {s : Session} {chunks : List Bytes} {p : Playback} (h : pull s chunks = (none, p)) :
    (s.settle chunks).queue = [] := by
  induction chunks generalizing s with
  | nil =>
    unfold pull at h
    split at h
    · cases h
    · next hn =>
      split at h
      · next hfin => rw [settle_of_finished hfin, queue_of_next? hn]
      · simp only at h
        split at h
        · cases h
        · next hn' => exact queue_of_next? hn'
  | cons chunk more ih =>
    unfold pull at h
    split at h
    · cases h
    · next hn =>
      split at h
      · next hfin => rw [settle_of_finished hfin, queue_of_next? hn]
      · exact ih h

/-- The events of a playback are those of its session once all is taken in. -/
theorem events_eq (p : Playback) : p.events = (p.session.settle p.chunks).queue := by
  -- along the events given out: each one leaves a playback with one event less to come
  induction p using Playback.events.induct with
  | case1 p q h =>
    rw [events, settle_of_pull_none h]
    split
    · rfl
    · next h' => rw [h] at h'; cases h'
  | case2 p e q h ih =>
    rw [settle_of_pull h, ← ih, events]
    split
    · next h' => rw [h] at h'; cases h'
    · next h' => rw [h] at h'; cases h'; rfl

end Playback

/-! ## Where chunks are cut -/

namespace Session

theorem advance_framing (s : Session) (payload : String) :
    (s.advance payload).decoder.framing = s.decoder.framing := by
  obtain ⟨d, _, _, _⟩ := s
  cases d <;> rfl

theorem close_framing (s : Session) : s.close.decoder.framing = s.decoder.framing := by
  obtain ⟨d, _, _, _⟩ := s
  cases d <;> rfl

theorem decode_framing (frames : List Frame) (s : Session) :
    (s.decode frames).decoder.framing = s.decoder.framing := by
  induction frames generalizing s with
  | nil => rfl
  | cons frame more ih =>
    cases frame with
    | done => exact close_framing s
    | data payload =>
      cases h : (s.decoder.step payload).flow with
      | finish => rw [decode_data_finish h, close_framing, advance_framing]
      | more => rw [decode_data_more h, ih, advance_framing]

theorem feed_framing (s : Session) (chunk : Bytes) : (s.feed chunk).decoder.framing = s.decoder.framing := by
  cases h : s.finished with
  | true => rw [feed_of_finished h]
  | false => rw [feed_of_reading h, decode_framing]

/-- Decoding carries the buffer along. -/
theorem decode_buffer (frames : List Frame) (s : Session) (buffer : FrameBuffer) :
    { s with buffer }.decode frames = { s.decode frames with buffer } := by
  induction frames generalizing s with
  | nil => rfl
  | cons frame more ih =>
    cases frame with
    | done => rfl
    | data payload =>
      cases h : (s.decoder.step payload).flow with
      | finish =>
        rw [decode_data_finish h, decode_data_finish (s := { s with buffer }) h]
        rfl
      | more =>
        rw [decode_data_more h, decode_data_more (s := { s with buffer }) h]
        exact ih (s.advance payload)

/-- Taking in a chunk, with the frames decoded before the buffer changes. -/
theorem feed_eq {s : Session} (h : s.finished = false) (chunk : Bytes) :
    s.feed chunk = { s.decode (s.buffer.push s.decoder.framing chunk).1 with
      buffer := (s.buffer.push s.decoder.framing chunk).2 } := by
  rw [feed_of_reading h, decode_buffer]

/-- Sessions that no further input can tell apart: once finished, only their buffers may differ. -/
structure Alike (s t : Session) : Prop where
  decoder : s.decoder = t.decoder
  queue : s.queue = t.queue
  finished : s.finished = t.finished
  buffer : s.finished = false → s.buffer = t.buffer

namespace Alike

theorem refl (s : Session) : Alike s s := ⟨rfl, rfl, rfl, fun _ => rfl⟩

theorem trans {s t u : Session} (h : Alike s t) (k : Alike t u) : Alike s u :=
  ⟨h.decoder.trans k.decoder, h.queue.trans k.queue, h.finished.trans k.finished,
    fun hs => (h.buffer hs).trans (k.buffer (h.finished ▸ hs))⟩

/-- Before the end nothing may differ. -/
theorem eq_of_reading {s t : Session} (h : Alike s t) (hs : s.finished = false) : s = t := by
  obtain ⟨hd, hq, hf, hb⟩ := h
  cases s; cases t
  simp_all

theorem feed {s t : Session} (h : Alike s t) (chunk : Bytes) : Alike (s.feed chunk) (t.feed chunk) := by
  cases hs : s.finished with
  | true => rwa [feed_of_finished hs, feed_of_finished (h.finished ▸ hs)]
  | false => rw [h.eq_of_reading hs]; exact refl _

theorem endOfInput_queue {s t : Session} (h : Alike s t) : s.endOfInput.queue = t.endOfInput.queue := by
  cases hs : s.finished with
  | true => rw [endOfInput_of_finished hs, endOfInput_of_finished (h.finished ▸ hs), h.queue]
  | false => rw [h.eq_of_reading hs]

end Alike

/-- Two chunks in turn are one chunk. -/
theorem feed_append {s : Session} (hf : s.decoder.framing ≠ .blocks) (a b : Bytes) :
    Alike ((s.feed a).feed b) (s.feed (a ++ b)) := by
  cases hs : s.finished with
  | true => simpa only [feed_of_finished hs] using Alike.refl s
  | false =>
    have hlaw := FrameBuffer.push_append hf s.buffer a b
    have hfa := feed_eq hs a
    rw [feed_eq hs (a ++ b), hlaw, decode_append _ _ hs]
    cases ha : (s.decode (s.buffer.push s.decoder.framing a).1).finished with
    | true =>
      -- the first chunk ends the stream: the second is not taken in, and its frames are not decoded
      have hfin : (s.feed a).finished = true := by rw [hfa]; exact ha
      rw [feed_of_finished hfin, hfa, if_pos rfl]
      exact ⟨rfl, rfl, rfl, fun h => by rw [ha] at h; cases h⟩
    | false =>
      have hfin : (s.feed a).finished = false := by rw [hfa]; exact ha
      rw [feed_eq hfin, feed_framing, hfa, if_neg (by simp), decode_buffer]
      exact Alike.refl _

/-- Chunks in turn are their bytes in one chunk. -/
theorem foldl_feed (chunks : List Bytes) {s : Session} (hf : s.decoder.framing ≠ .blocks)
    (hn : '\n' ∉ s.buffer.text) : Alike (chunks.foldl feed s) (s.feed chunks.flatten) := by
  induction chunks generalizing s with
  | nil =>
    cases hs : s.finished with
    | true => rw [feed_of_finished hs]; exact Alike.refl s
    | false =>
      rw [feed_eq hs, List.flatten_nil, FrameBuffer.push_empty hf hn]
      exact Alike.refl s
  | cons chunk more ih =>
    rw [List.foldl_cons, List.flatten_cons]
    refine (ih (by rwa [feed_framing]) ?_).trans (feed_append hf _ _)
    cases hs : s.finished with
    | true => rwa [feed_of_finished hs]
    | false => rw [feed_eq hs]; exact FrameBuffer.not_mem_push hf _ _

end Session

namespace Decoder

theorem framing_ne_blocks {d : Decoder} (h : d.backend ≠ .anthropic) : d.framing ≠ .blocks := by
  cases d <;> simp_all [Decoder.backend, Decoder.framing]

end Decoder

namespace Playback

/-- Chat and Responses streams of the same bytes give the same events, wherever the bytes are cut
into chunks. -/
theorem events_ofChunks_eq {d : Decoder} (hd : d.backend ≠ .anthropic) {xs ys : List Bytes}
    (h : xs.flatten = ys.flatten) : (ofChunks d xs).events = (ofChunks d ys).events := by
  have settled : ∀ chunks : List Bytes, (ofChunks d chunks).events =
      (({ decoder := d } : Session).feed chunks.flatten).endOfInput.queue := fun chunks => by
    rw [events_eq]
    have halike := Session.foldl_feed chunks (s := { decoder := d }) (Decoder.framing_ne_blocks hd) (by simp)
    exact halike.endOfInput_queue
  rw [settled, settled, h]

/-- A character and a line end, each cut in two, with an empty chunk between. -/
theorem events_ofChunks_eq_cut : (Decoder.responses {}).backend ≠ .anthropic ∧
    ([[0x64, 0x61, 0x74, 0x61, 0x3A, 0xC3], [], [0xA9, 0x0D], [0x0A]] : List Bytes).flatten =
      ([[0x64, 0x61, 0x74, 0x61, 0x3A, 0xC3, 0xA9, 0x0D, 0x0A]] : List Bytes).flatten ∧
    (ofChunks (.responses {}) [[0x64, 0x61, 0x74, 0x61, 0x3A, 0xC3], [], [0xA9, 0x0D], [0x0A]]).events =
      (ofChunks (.responses {}) [[0x64, 0x61, 0x74, 0x61, 0x3A, 0xC3, 0xA9, 0x0D, 0x0A]]).events :=
  ⟨by decide, by decide, events_ofChunks_eq (by decide) (by decide)⟩

end Playback

end ModelStream
