/-
A session decodes one stream: chunks of bytes go in, events are queued and taken out in order. It
finishes at a terminal signal, at the end of the input, or when the input fails; after that nothing
is queued any more.
-/
import ModelStream.Decoder

namespace ModelStream

open Text (Bytes)

structure Session where
  decoder : Decoder
  buffer : FrameBuffer := {}
  queue : List Event := []
  finished : Bool := false

namespace Session

def backend (s : Session) : Backend := s.decoder.backend

/-- Finished, and every event taken out. -/
def exhausted (s : Session) : Bool := s.finished && s.queue.isEmpty

/-- Ends the stream regularly. -/
def close (s : Session) : Session :=
  let (events, decoder) := s.decoder.finish
  { s with decoder, queue := s.queue ++ events, finished := true }

/-- Decodes frames up to the one that ends the stream. -/
def decode (s : Session) : List Frame → Session
  | [] => s
  | .done :: _ => s.close
  | .data payload :: more =>
    let step := s.decoder.step payload
    let s := { s with decoder := step.state, queue := s.queue ++ step.events }
    match step.flow with
    | .finish => s.close
    | .more => s.decode more

def feed (s : Session) (chunk : Bytes) : Session :=
  if s.finished then s
  else
    let (frames, buffer) := s.buffer.push s.decoder.framing chunk
    { s with buffer }.decode frames

/-- The input has ended without a terminal signal. -/
def endOfInput (s : Session) : Session :=
  if s.finished then s else { s with buffer := s.buffer.finish }.close

/-- The input has failed: one fault, and no closing event. -/
def fail (s : Session) (f : Fault) : Session :=
  if s.finished then s else { s with queue := s.queue ++ [.ofFault f], finished := true }

def next? (s : Session) : Option (Event × Session) :=
  match s.queue with
  | [] => none
  | event :: queue => some (event, { s with queue })

def take (s : Session) (n : Nat) : List Event × Session :=
  (s.queue.take n, { s with queue := s.queue.drop n })

end Session

end ModelStream
