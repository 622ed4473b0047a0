/-
Events on demand. A feed gives out what a playback of the same chunks does, however often its reader has
to wait; where the body fails, that is one fault after the events of the chunks before, and nothing if these
had finished the session already. Neither driver reads ahead: a part is asked for only when every decoded
event has been given out and the session goes on, so an event is given out before any part that is not
needed for it is asked for (`Feed.on_demand`).

`Frugal` says this of the rounds of a driver; each round keeps it (`Follows.round`).
-/
import ModelStream.Proofs.Session.Rounds
import ModelStream.Proofs.Session.Terminal

namespace ModelStream

open Text (Bytes)

namespace Session

/-- The session of a decoder that was fed these chunks. -/
def fed (d : Decoder) (chunks : List Bytes) : Session := chunks.foldl feed { decoder := d }

/-- The session of a decoder that has heard the answers in these rounds, with nothing taken out. -/
def heard (d : Decoder) (acts : List Act) : Session := ({ decoder := d } : Session).hearAll (asked acts)

theorem heard_append (d : Decoder) (acts more : List Act) : heard d (acts ++ more) = (heard d acts).hearAll (asked more) := by
  simp [heard]

/-- A round takes out of what has been heard what it gives out, and hears what it asks for. -/
theorem Round.heard {s t : Session} {act : Act} (h : s.Round act t) {d : Decoder} {acts : List Act}
    (hs : heard d acts = s.behind (given acts)) : heard d (acts ++ [act]) = t.behind (given (acts ++ [act])) := by
  rw [heard_append, hs]
  cases h with
  | give hnext =>
    rw [behind_of_next? hnext]
    simp [behind]
  | ask hqueue hreading answer => simp [hear_behind]
  | stop => simp

end Session

open Session (fed heard)

/-! ## Nothing is read ahead -/

/-- Rounds of a driver over a body in which nothing is read ahead. -/
structure Frugal (d : Decoder) (body : List Arrival) (acts : List Act) : Prop where
  /-- The parts of the body are asked for in turn. -/
  order : asked acts <+: Arrival.answers body
  /-- A part is asked for when all that has been decoded was given out, and the session goes on. -/
  ask : ∀ before answer, before ++ [.ask answer] <+: acts →
    given before = (heard d before).queue ∧ (heard d before).finished = false
  /-- An event given out is the next one of those decoded so far. -/
  give : ∀ before e, before ++ [.give e] <+: acts → (heard d before).queue[(given before).length]? = some e
  /-- Without the last part asked for, the event would not have been decoded yet. -/
  least : ∀ before e, before ++ [.give e] <+: acts → ∀ earlier answer, earlier ++ [.ask answer] <+: before →
    (heard d earlier).queue.length ≤ (given before).length

namespace Frugal

variable {d : Decoder} {body : List Arrival} {acts : List Act}

theorem start (d : Decoder) (body : List Arrival) : Frugal d body [] where
  order := List.nil_prefix
  ask _ _ h := by simp at h
  give _ _ h := by simp at h
  least _ _ h := by simp at h

theorem length_heard (h : Frugal d body acts) {earlier : List Act} {answer : Option Arrival}
    (hearlier : earlier ++ [.ask answer] <+: acts) : (heard d earlier).queue.length ≤ (given acts).length := by
  rw [← (h.ask earlier answer hearlier).1]
  obtain ⟨rest, rfl⟩ := hearlier
  simp

/-- One more round. -/
theorem concat (h : Frugal d body acts) {s t : Session} {act : Act} (hround : s.Round act t)
    (hs : heard d acts = s.behind (given acts)) (horder : asked (acts ++ [act]) <+: Arrival.answers body) :
    Frugal d body (acts ++ [act]) where
  order := horder
  ask := by
    intro before answer hbefore
    rcases List.prefix_concat_iff.1 hbefore with heq | hbefore
    · obtain ⟨rfl, hlast⟩ := List.append_inj' heq rfl
      obtain rfl := List.singleton_inj.1 hlast
      cases hround with
      | ask hqueue hreading => exact ⟨by simp [hs, hqueue], by rw [hs]; exact hreading⟩
    · exact h.ask before answer hbefore
  give := by
    intro before e hbefore
    rcases List.prefix_concat_iff.1 hbefore with heq | hbefore
    · obtain ⟨rfl, hlast⟩ := List.append_inj' heq rfl
      obtain rfl := List.singleton_inj.1 hlast
      cases hround with
      | give hnext => simp [hs, Session.behind_of_next? hnext]
    · exact h.give before e hbefore
  least := by
    intro before e hbefore earlier answer hearlier
    rcases List.prefix_concat_iff.1 hbefore with heq | hbefore
    · obtain ⟨rfl, -⟩ := List.append_inj' heq rfl
      exact h.length_heard hearlier
    · exact h.least before e hbefore earlier answer hearlier

end Frugal

/-- A feed that has come this far with the body. -/
structure Follows (d : Decoder) (body : List Arrival) (acts : List Act) (f : Feed) : Prop where
  frugal : Frugal d body acts
  heard : heard d acts = f.session.behind (given acts)
  rest : f.session.finished = false → asked acts ++ Arrival.answers f.body = Arrival.answers body

namespace Follows

variable {d : Decoder} {body : List Arrival} {acts : List Act} {f : Feed}

theorem start (d : Decoder) (body : List Arrival) : Follows d body [] (.ofBody d body) :=
  ⟨.start d body, rfl, fun _ => rfl⟩

theorem round (h : Follows d body acts f) : Follows d body (acts ++ [f.round.1]) f.round.2 := by
  have hround := f.round_session
  have hheard := hround.heard h.heard
  rcases f.round_cases with ⟨e, s, hnext, hcase⟩ | ⟨-, hfin, hcase⟩ | ⟨-, hread, answer, more, hcase, hrest⟩
  · obtain ⟨hfin, -⟩ := Session.next?_eq_some hnext
    rw [hcase] at hround hheard ⊢
    exact ⟨h.frugal.concat hround h.heard (by simpa using h.frugal.order), hheard,
      fun hf => by simpa using h.rest (hfin ▸ hf)⟩
  · rw [hcase] at hround hheard ⊢
    exact ⟨h.frugal.concat hround h.heard (by simpa using h.frugal.order), hheard,
      fun hf => by cases hfin.symm.trans hf⟩
  · have hanswers := h.rest hread
    rw [hcase] at hround hheard ⊢
    rcases hrest with ⟨hmore, -⟩ | ⟨hlast, -, hfin, -⟩
    · rw [hmore] at hanswers
      refine ⟨h.frugal.concat hround h.heard ⟨Arrival.answers more, ?_⟩, hheard, fun _ => ?_⟩ <;> simpa using hanswers
    · rw [hlast] at hanswers
      refine ⟨h.frugal.concat hround h.heard ⟨[], by simpa using hanswers⟩, hheard, fun hf => ?_⟩
      cases hfin.symm.trans hf

/-- Any number of rounds. -/
theorem trail (n : Nat) (d : Decoder) (body : List Arrival) :
    Follows d body (trail Feed.round n (.ofBody d body)).1 (trail Feed.round n (.ofBody d body)).2 := by
  induction n with
  | zero => exact start d body
  | succ n ih =>
    rw [trail_concat]
    exact ih.round

end Follows

/-! ## A failing body -/

namespace Session

theorem decode_unending (frames : List Frame) {s : Session} (h : Unending s.queue)
    (hreading : (s.decode frames).finished = false) : Unending (s.decode frames).queue := by
  induction frames generalizing s with
  | nil => exact h
  | cons frame more ih =>
    cases frame with
    | done => cases hreading
    | data payload =>
      cases hflow : (s.decoder.step payload).flow with
      | finish =>
        rw [decode_data_finish hflow] at hreading
        cases hreading
      | more =>
        rw [decode_data_more hflow] at hreading ⊢
        exact ih (h.append (s.decoder.step_moves payload).unending) hreading

theorem feed_unending {s : Session} (h : s.finished = false → Unending s.queue) (chunk : Bytes)
    (hreading : (s.feed chunk).finished = false) : Unending (s.feed chunk).queue := by
  cases hs : s.finished with
  | true =>
    rw [feed_of_finished hs, hs] at hreading
    cases hreading
  | false =>
    rw [feed_of_reading hs] at hreading ⊢
    exact decode_unending _ (s := { s with buffer := _ }) (h hs) hreading

/-- As long as a session is reading it has queued no closing event. -/
theorem fed_unending (d : Decoder) (chunks : List Bytes) (hreading : (fed d chunks).finished = false) :
    Unending (fed d chunks).queue := by
  have later : ∀ (chunks : List Bytes) (s : Session), (s.finished = false → Unending s.queue) →
      (chunks.foldl feed s).finished = false → Unending (chunks.foldl feed s).queue := by
    intro chunks
    induction chunks with
    | nil => exact fun s h => h
    | cons chunk more ih => exact fun s h => ih (s.feed chunk) (feed_unending h chunk)
  exact later chunks _ (fun _ => unending_nil) hreading

end Session

/-- A failure after chunks that have finished the session is never asked for. -/
theorem Frugal.failure_unread {d : Decoder} {before after : List Arrival} {f : Fault} {acts : List Act}
    (h : Frugal d (before ++ .failure f :: after) acts) (hbefore : ∀ part ∈ before, part.failed = false)
    (hfin : (fed d (before.filterMap Arrival.chunk?)).finished = true) (g : Fault) :
    .ask (some (.failure g)) ∉ acts := by
  intro hmem
  obtain ⟨earlier, later, hacts⟩ := List.append_of_mem hmem
  have hearlier : earlier ++ [.ask (some (.failure g))] <+: acts := ⟨later, by simp [hacts]⟩
  have hreading := (h.ask _ _ hearlier).2
  have horder : asked earlier ++ [some (.failure g)] <+: before.map some ++ [some (.failure f)] := by
    have hasked : asked (earlier ++ [.ask (some (.failure g))]) <+: asked acts := hearlier.filterMap Act.asked?
    rw [← Arrival.answers_failure hbefore f after]
    simpa using hasked.trans h.order
  -- either all chunks before it have been heard, or it is one of the parts before it
  rcases List.prefix_concat_iff.1 horder with heq | hprefix
  · obtain ⟨hasked, -⟩ := List.append_inj' heq rfl
    rw [heard, hasked, Arrival.hearAll_parts hbefore] at hreading
    cases hfin.symm.trans hreading
  · have hin : some (.failure g) ∈ before.map some := hprefix.subset (by simp)
    cases hbefore (.failure g) (by simpa using hin)

namespace Feed

/-! ## Both drivers -/

theorem events_ofBody (d : Decoder) {body : List Arrival} (h : ∀ part ∈ body, part.failed = false) :
    (ofBody d body).events = (Playback.ofChunks d (body.filterMap Arrival.chunk?)).events := by
  have hanswers : Arrival.answers body = body.map some ++ [none] := by
    have happend := Arrival.answers_append h []
    rwa [List.append_nil] at happend
  rw [events_eq, Playback.events_eq, due, ofBody, hanswers, Session.hearAll_append, Arrival.hearAll_parts h]
  rfl

/-- A body that does not fail gives what its chunks give a playback, however often the reader has to wait. A
failure gives one fault after the events of the chunks before it, none of which closes the stream; if these
chunks have finished the session it gives nothing and is never asked for. In both drivers nothing is read
ahead, what their rounds give out are the events in turn, and their calls are nothing but rounds. -/
theorem on_demand (d : Decoder) :
    (∀ body : List Arrival, (∀ part ∈ body, part.failed = false) →
      (ofBody d body).events = (Playback.ofChunks d (body.filterMap Arrival.chunk?)).events) ∧
    (∀ (before : List Arrival) (f : Fault) (after : List Arrival), (∀ part ∈ before, part.failed = false) →
      let s := fed d (before.filterMap Arrival.chunk?)
      let broken := ofBody d (before ++ .failure f :: after)
      (s.finished = false → broken.events = s.queue ++ [.ofFault f] ∧ Unending broken.events) ∧
      (s.finished = true → broken.events = s.queue ∧
        ∀ n g, .ask (some (.failure g)) ∉ (trail round n broken).1)) ∧
    (∀ (body : List Arrival) (n : Nat), Frugal d body (trail round n (ofBody d body)).1 ∧
      given (trail round n (ofBody d body)).1 <+: (ofBody d body).events) ∧
    (∀ (chunks : List Bytes) (n : Nat),
      Frugal d (chunks.map .chunk) (trail Playback.round n (.ofChunks d chunks)).1 ∧
      given (trail Playback.round n (.ofChunks d chunks)).1 <+: (Playback.ofChunks d chunks).events) ∧
    Loops round poll Poll.event? ∧ Loops Playback.round Playback.next id := by
  have hfeed : ∀ (body : List Arrival) (n : Nat), Frugal d body (trail round n (ofBody d body)).1 ∧
      given (trail round n (ofBody d body)).1 <+: (ofBody d body).events := by
    intro body n
    rw [events_eq]
    exact ⟨(Follows.trail n d body).frugal, ⟨_, ((ofBody d body).due_trail n).symm⟩⟩
  refine ⟨fun body hbody => events_ofBody d hbody, fun before f after hbefore => ?_, hfeed, fun chunks n => ?_,
    loops_of_once poll_trail, loops_of_once Playback.next_trail⟩
  · intro s broken
    have hheard : ({ decoder := d } : Session).hearAll (before.map some) = s := Arrival.hearAll_parts hbefore _
    have hevents : broken.events = (s.fail f).queue := by
      rw [events_eq, due]
      show (({ decoder := d } : Session).hearAll (Arrival.answers (before ++ .failure f :: after))).queue = _
      rw [Arrival.answers_failure hbefore, Session.hearAll_append, hheard]
      rfl
    refine ⟨fun hreading => ?_, fun hfin => ⟨?_, fun n => (hfeed _ n).1.failure_unread hbefore hfin⟩⟩
    · have hqueue : broken.events = s.queue ++ [.ofFault f] := by rw [hevents, Session.fail_of_reading hreading]
      rw [hqueue]
      exact ⟨rfl, (Session.fed_unending d _ hreading).append (unending_fault f)⟩
    · rw [hevents, Session.fail_of_finished hfin]
  · have hsound : ∀ part ∈ chunks.map Arrival.chunk, part.failed = false := by simp [Arrival.failed]
    have hsame : (chunks.map Arrival.chunk).filterMap Arrival.chunk? = chunks := by
      rw [List.filterMap_map]
      exact List.filterMap_some
    have hevents := events_ofBody d hsound
    rw [hsame] at hevents
    rw [Playback.trail_round, ← hevents]
    exact hfeed (chunks.map .chunk) n

/-- A reader that waits and a body that fails after the stream has ended in the middle of a chunk, and a body
that fails before. -/
theorem on_demand_failures :
    let d : Decoder := .responses {}
    let ended : List Arrival := [.pending, .chunk (Text.bytesOf "data: [DONE]\ndata: x\n")]
    let reading : List Arrival := [.chunk (Text.bytesOf "data: [DO"), .pending]
    (∀ part ∈ ended, part.failed = false) ∧ (∀ part ∈ reading, part.failed = false) ∧
      (fed d (ended.filterMap Arrival.chunk?)).finished = true ∧
      (fed d (reading.filterMap Arrival.chunk?)).finished = false ∧
      (ofBody d ended).events = (Playback.ofChunks d (ended.filterMap Arrival.chunk?)).events ∧
      (ofBody d (ended ++ [.failure (.transport "reset")])).events = (fed d (ended.filterMap Arrival.chunk?)).queue ∧
      (ofBody d (reading ++ [.failure (.transport "reset")])).events =
        (fed d (reading.filterMap Arrival.chunk?)).queue ++ [.ofFault (.transport "reset")] := by
  intro d ended reading
  have hended : ∀ part ∈ ended, part.failed = false := by simp [ended, Arrival.failed]
  have hreading : ∀ part ∈ reading, part.failed = false := by simp [reading, Arrival.failed]
  have hfin : (fed d (ended.filterMap Arrival.chunk?)).finished = true := by decide +kernel
  have hopen : (fed d (reading.filterMap Arrival.chunk?)).finished = false := by decide +kernel
  obtain ⟨hsound, hbroken, -⟩ := on_demand d
  exact ⟨hended, hreading, hfin, hopen, hsound ended hended, ((hbroken ended _ [] hended).2 hfin).1,
    ((hbroken reading _ [] hreading).1 hopen).1⟩

end Feed

end ModelStream
