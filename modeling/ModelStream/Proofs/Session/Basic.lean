/-
How a session takes in its input: what each operation does while the session is reading, and that it
does nothing once the session has finished. A payload advances the session; the one that ends the
stream closes it, and frames after that one are not decoded.
-/
import ModelStream.Session

namespace ModelStream.Session

open Text (Bytes)

/-! ## One payload -/

/-- The session after one more payload is decoded, whether or not that ends the stream. -/
def advance (s : Session) (payload : String) : Session :=
  { s with decoder := (s.decoder.step payload).state, queue := s.queue ++ (s.decoder.step payload).events }

@[simp] theorem advance_finished (s : Session) (payload : String) : (s.advance payload).finished = s.finished := rfl

@[simp] theorem close_finished (s : Session) : s.close.finished = true := rfl

@[simp] theorem decode_nil (s : Session) : s.decode [] = s := rfl

/-- The frame that ends the stream closes the session, and what follows it is not looked at. -/
@[simp] theorem decode_done (s : Session) (more : List Frame) : s.decode (.done :: more) = s.close := rfl

theorem decode_data_finish {s : Session} {payload : String} (h : (s.decoder.step payload).flow = .finish)
    (more : List Frame) : s.decode (.data payload :: more) = (s.advance payload).close := by
  simp [decode, h, advance]

theorem decode_data_more {s : Session} {payload : String} (h : (s.decoder.step payload).flow = .more)
    (more : List Frame) : s.decode (.data payload :: more) = (s.advance payload).decode more := by
  simp [decode, h, advance]

/-- Frames after the one that ends the stream are not decoded. -/
theorem decode_append (frames more : List Frame) {s : Session} (h : s.finished = false) :
    s.decode (frames ++ more) =
      if (s.decode frames).finished then s.decode frames else (s.decode frames).decode more := by
  induction frames generalizing s with
  | nil => simp [h]
  | cons frame frames ih =>
    cases frame with
    | done => simp
    | data payload =>
      rw [List.cons_append]
      cases hflow : (s.decoder.step payload).flow with
      | finish => simp [decode_data_finish hflow]
      | more => simpa only [decode_data_more hflow] using ih (s := s.advance payload) h

/-! ## Input before and after the end -/

/-- A session that has finished takes no more bytes. -/
theorem feed_of_finished {s : Session} (h : s.finished = true) (chunk : Bytes) : s.feed chunk = s := by
  simp [feed, h]

theorem feed_of_reading {s : Session} (h : s.finished = false) (chunk : Bytes) :
    s.feed chunk = { s with buffer := (s.buffer.push s.decoder.framing chunk).2 }.decode
      (s.buffer.push s.decoder.framing chunk).1 := by
  simp [feed, h]

theorem endOfInput_of_finished {s : Session} (h : s.finished = true) : s.endOfInput = s := by
  simp [endOfInput, h]

/-- Only a session that is still reading has anything to close. -/
theorem endOfInput_of_reading {s : Session} (h : s.finished = false) :
    s.endOfInput = { s with buffer := s.buffer.finish }.close := by
  simp [endOfInput, h]

theorem fail_of_finished {s : Session} (h : s.finished = true) (f : Fault) : s.fail f = s := by
  simp [fail, h]

theorem fail_of_reading {s : Session} (h : s.finished = false) (f : Fault) :
    s.fail f = { s with queue := s.queue ++ [.ofFault f], finished := true } := by
  simp [fail, h]

end ModelStream.Session
