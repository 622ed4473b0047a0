/-
A session ends once. For every sequence of its operations, the events that were ever queued hold at
most one closing event, which is the last of them; nothing is queued after the end; a session that
failed ends with that fault and has no closing event, and any other end is a closing event; and what
is taken out are the queued events in their order (`History.terminal_unique`).

While a session is reading, its decoder has not ended yet and nothing queued is a closing event
(`Session.Reading`); closing it queues exactly one, at the end (`Session.close_queue`).
-/
import ModelStream.Feed
import ModelStream.Proofs.Decoder.Moves
import ModelStream.Proofs.Session.Basic

namespace ModelStream

open Text (Bytes)

/-- One closing event, after all others. -/
def EndsOnce (events : List Event) : Prop := ∃ before e, events = before ++ [.ending e] ∧ Unending before

theorem EndsOnce.append {events later : List Event} (h : Unending events) (k : EndsOnce later) :
    EndsOnce (events ++ later) := by
  obtain ⟨before, e, rfl, hb⟩ := k
  exact ⟨events ++ before, e, by rw [List.append_assoc], h.append hb⟩

theorem unending_fault (f : Fault) : Unending [.ofFault f] := by
  intro e he
  cases List.mem_singleton.1 he
  rfl

/-- A closing event found among such events is their last, and their only one. -/
theorem EndsOnce.split {events before after : List Event} {e : Ending} (h : EndsOnce events)
    (hs : events = before ++ .ending e :: after) : Unending before ∧ after = [] := by
  obtain ⟨pre, last, rfl, hpre⟩ := h
  rcases List.eq_nil_or_concat after with rfl | ⟨mid, x, rfl⟩
  · obtain ⟨rfl, -⟩ := List.append_inj' hs rfl
    exact ⟨hpre, rfl⟩
  · rw [List.concat_eq_append, ← List.cons_append, ← List.append_assoc] at hs
    obtain ⟨rfl, -⟩ := List.append_inj' hs rfl
    cases hpre (.ending e) (by simp)

theorem Unending.not_split {events before after : List Event} {e : Ending} (h : Unending events)
    (hs : events = before ++ .ending e :: after) : False := by
  cases h (.ending e) (by simp [hs])

namespace Session

/-! ## What is queued -/

/-- Neither the session nor its decoder has ended. -/
structure Reading (s : Session) : Prop where
  session : s.finished = false
  decoder : s.decoder.boards.closing.finished = false

theorem reading_of_create {backend : Backend} {tags : List String} {d : Decoder}
    (h : Decoder.create backend tags = .ok d) : Reading { decoder := d } := by
  refine ⟨rfl, ?_⟩
  show d.boards.closing.finished = false
  rw [Decoder.boards_of_create h]

/-- A payload queues no closing event. -/
theorem advance_queue {s : Session} (h : Reading s) (payload : String) :
    ∃ events, (s.advance payload).queue = s.queue ++ events ∧ Unending events ∧
      Reading (s.advance payload) := by
  have hmoves := s.decoder.step_moves payload
  exact ⟨_, rfl, hmoves.unending, h.session, hmoves.finished.trans h.decoder⟩

/-- Closing queues a closing event, as the last one. -/
theorem close_queue {s : Session} (h : Reading s) :
    ∃ events, s.close.queue = s.queue ++ events ∧ EndsOnce events := by
  obtain ⟨found, b, hfound, hevents, -⟩ := s.decoder.finish_moves
  obtain ⟨drained, c, hdrained, hend, -⟩ := Boards.finish_of_open (hfound.finished.trans h.decoder)
  refine ⟨s.decoder.finish.1, rfl, ?_⟩
  rw [hevents, hend, ← List.append_assoc]
  exact ⟨_, _, rfl, hfound.unending.append hdrained.unending⟩

/-- Frames either leave the session reading and queue no closing event, or end it with one. -/
theorem decode_queue (frames : List Frame) {s : Session} (h : Reading s) :
    ∃ events, (s.decode frames).queue = s.queue ++ events ∧
      (Reading (s.decode frames) ∧ Unending events ∨ (s.decode frames).finished = true ∧ EndsOnce events) := by
  induction frames generalizing s with
  | nil => exact ⟨[], by simp, .inl ⟨h, fun _ he => nomatch he⟩⟩
  | cons frame more ih =>
    cases frame with
    | done =>
      obtain ⟨events, hq, hend⟩ := close_queue h
      exact ⟨events, hq, .inr ⟨rfl, hend⟩⟩
    | data payload =>
      obtain ⟨told, hq, hun, hread⟩ := advance_queue h payload
      cases hflow : (s.decoder.step payload).flow with
      | finish =>
        rw [decode_data_finish hflow]
        obtain ⟨events, hq', hend⟩ := close_queue hread
        exact ⟨told ++ events, by rw [hq', hq, List.append_assoc], .inr ⟨rfl, hend.append hun⟩⟩
      | more =>
        rw [decode_data_more hflow]
        obtain ⟨events, hq', hcase⟩ := ih hread
        refine ⟨told ++ events, by rw [hq', hq, List.append_assoc], ?_⟩
        rcases hcase with ⟨hr, hu⟩ | ⟨hf, hend⟩
        · exact .inl ⟨hr, hun.append hu⟩
        · exact .inr ⟨hf, hend.append hun⟩

theorem feed_queue {s : Session} (h : Reading s) (chunk : Bytes) :
    ∃ events, (s.feed chunk).queue = s.queue ++ events ∧
      (Reading (s.feed chunk) ∧ Unending events ∨ (s.feed chunk).finished = true ∧ EndsOnce events) := by
  rw [feed_of_reading h.session]
  exact decode_queue _ (s := { s with buffer := _ }) ⟨h.session, h.decoder⟩

theorem endOfInput_queue {s : Session} (h : Reading s) :
    ∃ events, s.endOfInput.queue = s.queue ++ events ∧ EndsOnce events := by
  rw [endOfInput_of_reading h.session]
  exact close_queue (s := { s with buffer := _ }) ⟨h.session, h.decoder⟩

end Session

/-! ## Histories -/

/-- A session, all events that were ever queued in it, and those taken out. -/
structure History where
  session : Session
  queued : List Event := []
  taken : List Event := []

namespace History

/-- What can be done with a session. -/
inductive Action
  | feed (chunk : Bytes)
  | endOfInput
  | fail (f : Fault)
  | next

/-- The session has become `s`, which has more events at the end of its queue. -/
def queue (h : History) (s : Session) : History :=
  { h with session := s, queued := h.queued ++ s.queue.drop h.session.queue.length }

def act (h : History) : Action → History
  | .feed chunk => h.queue (h.session.feed chunk)
  | .endOfInput => h.queue h.session.endOfInput
  | .fail f => h.queue (h.session.fail f)
  | .next =>
    match h.session.next? with
    | some (event, s) => { h with session := s, taken := h.taken ++ [event] }
    | none => h

def run (h : History) (actions : List Action) : History := actions.foldl act h

/-- The history of a new session. -/
def start (d : Decoder) : History := { session := { decoder := d } }

@[simp] theorem run_nil (h : History) : h.run [] = h := rfl

theorem run_cons (h : History) (a : Action) (actions : List Action) :
    h.run (a :: actions) = (h.act a).run actions := rfl

theorem run_append (h : History) (actions more : List Action) : h.run (actions ++ more) = (h.run actions).run more :=
  List.foldl_append

/-! ## One action -/

theorem queue_self (h : History) : h.queue h.session = h := by simp [queue]

theorem queue_of_append (h : History) {s : Session} {events : List Event} (hq : s.queue = h.session.queue ++ events) :
    h.queue s = { h with session := s, queued := h.queued ++ events } := by
  simp [queue, hq]

/-- Taking an event out, or finding none. -/
theorem act_next (h : History) : (h.act .next).queued = h.queued ∧
    (h.act .next).taken ++ (h.act .next).session.queue = h.taken ++ h.session.queue ∧
    (h.act .next).session.finished = h.session.finished ∧ (h.act .next).session.decoder = h.session.decoder := by
  unfold act Session.next?
  cases hq : h.session.queue with
  | nil => simp [hq]
  | cons event rest => simp

/-- After the end an action queues nothing. -/
theorem act_of_finished {h : History} (hf : h.session.finished = true) (a : Action) :
    (h.act a).session.finished = true ∧ (h.act a).queued = h.queued ∧
      (h.act a).taken ++ (h.act a).session.queue = h.taken ++ h.session.queue := by
  cases a with
  | feed chunk => rw [act, Session.feed_of_finished hf, queue_self]; exact ⟨hf, rfl, rfl⟩
  | endOfInput => rw [act, Session.endOfInput_of_finished hf, queue_self]; exact ⟨hf, rfl, rfl⟩
  | fail f => rw [act, Session.fail_of_finished hf, queue_self]; exact ⟨hf, rfl, rfl⟩
  | next =>
    obtain ⟨hq, ho, hfin, -⟩ := act_next h
    exact ⟨hfin.trans hf, hq, ho⟩

/-- What an action queues that finds the session reading: no closing event as long as the session
goes on, and one of the two ends otherwise. -/
theorem act_of_reading {h : History} (hr : h.session.Reading) (a : Action) :
    ∃ events, (h.act a).queued = h.queued ++ events ∧
      (h.act a).taken ++ (h.act a).session.queue = h.taken ++ h.session.queue ++ events ∧
      ((h.act a).session.Reading ∧ Unending events ∨
        (h.act a).session.finished = true ∧
          ((∃ f, a = .fail f ∧ events = [.ofFault f]) ∨ (∀ f, a ≠ .fail f) ∧ EndsOnce events)) := by
  cases a with
  | feed chunk =>
    obtain ⟨events, hq, hcase⟩ := Session.feed_queue hr chunk
    refine ⟨events, ?_⟩
    rw [act, queue_of_append h hq]
    refine ⟨rfl, by simp [hq], ?_⟩
    rcases hcase with hgo | ⟨hf, hend⟩
    · exact .inl hgo
    · exact .inr ⟨hf, .inr ⟨fun _ => by simp, hend⟩⟩
  | endOfInput =>
    obtain ⟨events, hq, hend⟩ := Session.endOfInput_queue hr
    refine ⟨events, ?_⟩
    rw [act, queue_of_append h hq]
    exact ⟨rfl, by simp [hq], .inr ⟨Session.endOfInput_finished _, .inr ⟨fun _ => by simp, hend⟩⟩⟩
  | fail f =>
    have hq : (h.session.fail f).queue = h.session.queue ++ [.ofFault f] := by
      rw [Session.fail_of_reading hr.session]
    refine ⟨[.ofFault f], ?_⟩
    rw [act, queue_of_append h hq]
    exact ⟨rfl, by simp [hq], .inr ⟨Session.fail_finished _ f, .inl ⟨f, rfl, rfl⟩⟩⟩
  | next =>
    obtain ⟨hq, ho, hfin, hd⟩ := act_next h
    have hdecoder : (h.act .next).session.decoder.boards.closing.finished = false := by
      rw [hd]
      exact hr.decoder
    refine ⟨[], by simpa using hq, by simpa using ho, .inl ⟨⟨hfin.trans hr.session, hdecoder⟩, ?_⟩⟩
    exact fun _ he => nomatch he

/-! ## Any number of actions -/

/-- What holds of a history from its start on. -/
structure Sound (h : History) : Prop where
  order : h.taken ++ h.session.queue = h.queued
  shape : h.session.Reading ∧ Unending h.queued ∨ h.session.finished = true ∧
    (EndsOnce h.queued ∨ ∃ before f, h.queued = before ++ [.ofFault f] ∧ Unending before)

theorem Sound.act {h : History} (hs : Sound h) (a : Action) : Sound (h.act a) := by
  -- a session that is reading queues what the action says, a finished one nothing
  rcases hs.shape with ⟨hr, hu⟩ | ⟨hf, hend⟩
  · obtain ⟨events, hq, ho, hcase⟩ := act_of_reading hr a
    refine ⟨by rw [ho, hs.order, hq], ?_⟩
    rw [hq]
    rcases hcase with ⟨hr', hu'⟩ | ⟨hf, ⟨f, -, rfl⟩ | ⟨-, hend⟩⟩
    · exact .inl ⟨hr', hu.append hu'⟩
    · exact .inr ⟨hf, .inr ⟨_, f, rfl, hu⟩⟩
    · exact .inr ⟨hf, .inl (hend.append hu)⟩
  · obtain ⟨hf', hq, ho⟩ := act_of_finished hf a
    exact ⟨by rw [ho, hs.order, hq], .inr ⟨hf', by rwa [hq]⟩⟩

theorem Sound.run {h : History} (hs : Sound h) (actions : List Action) : Sound (h.run actions) := by
  induction actions generalizing h with
  | nil => exact hs
  | cons a actions ih => exact ih (hs.act a)

theorem run_of_finished {h : History} (hf : h.session.finished = true) (actions : List Action) :
    (h.run actions).session.finished = true ∧ (h.run actions).queued = h.queued := by
  induction actions generalizing h with
  | nil => exact ⟨hf, rfl⟩
  | cons a actions ih =>
    obtain ⟨hf', hq, -⟩ := act_of_finished hf a
    rw [run_cons, ← hq]
    exact ih hf'

theorem sound_start {d : Decoder} (h : Session.Reading { decoder := d }) : Sound (start d) :=
  ⟨rfl, .inl ⟨h, fun _ he => nomatch he⟩⟩

/-- A session that is not finished is reading. -/
theorem Sound.reading {h : History} (hs : Sound h) (hf : h.session.finished = false) :
    h.session.Reading ∧ Unending h.queued := by
  rcases hs.shape with hr | ⟨hf', -⟩
  · exact hr
  · rw [hf] at hf'; cases hf'

/-- The action that finishes a session decides how its events end. -/
theorem Sound.queued_of_finishing {h : History} (hs : Sound h) (hf : h.session.finished = false) (a : Action)
    (hf' : (h.act a).session.finished = true) (more : List Action) :
    (∃ f, a = .fail f ∧ ((h.act a).run more).queued = h.queued ++ [.ofFault f]) ∨
      (∀ f, a ≠ .fail f) ∧ EndsOnce ((h.act a).run more).queued := by
  obtain ⟨hr, hu⟩ := hs.reading hf
  obtain ⟨events, hq, -, hcase⟩ := act_of_reading hr a
  rw [(run_of_finished hf' more).2, hq]
  rcases hcase with ⟨hr', -⟩ | ⟨-, ⟨f, rfl, rfl⟩ | ⟨hne, hend⟩⟩
  · rw [hr'.session] at hf'; cases hf'
  · exact .inl ⟨f, rfl, rfl⟩
  · exact .inr ⟨hne, hend.append hu⟩

/-- A session that has finished was finished by one of the actions. -/
theorem exists_finishing (actions : List Action) {h : History} (hf : h.session.finished = false)
    (hf' : (h.run actions).session.finished = true) :
    ∃ before a after, actions = before ++ a :: after ∧ (h.run before).session.finished = false ∧
      (h.run (before ++ [a])).session.finished = true := by
  induction actions generalizing h with
  | nil =>
    rw [run_nil, hf] at hf'
    cases hf'
  | cons a actions ih =>
    cases hact : (h.act a).session.finished with
    | true => exact ⟨[], a, actions, rfl, hf, hact⟩
    | false =>
      obtain ⟨before, b, after, rfl, hbefore, hafter⟩ := ih hact hf'
      exact ⟨a :: before, b, after, rfl, hbefore, hafter⟩

/-- A closing event found in a history is the last one queued, and the only one. -/
theorem Sound.split {h : History} (hs : Sound h) {before after : List Event} {e : Ending}
    (hq : h.queued = before ++ .ending e :: after) : Unending before ∧ after = [] := by
  rcases hs.shape with ⟨-, hu⟩ | ⟨-, hend | ⟨pre, f, hf, hu⟩⟩
  · exact (hu.not_split hq).elim
  · exact hend.split hq
  · exact ((hf ▸ hu.append (unending_fault f) : Unending h.queued).not_split hq).elim

/-- Whatever is done with a session, in whatever order: a closing event among the events ever queued
is the last of them, and no other one comes before it; after the end nothing is queued; a session that
has finished was finished by one of the actions; if that was a failure, the fault is the last event and
there is no closing event, and otherwise the last event is a closing event; and the events taken out,
followed by those still queued, are all events ever queued, in order. -/
theorem terminal_unique {backend : Backend} {tags : List String} {d : Decoder}
    (hd : Decoder.create backend tags = .ok d) (actions : List Action) :
    (∀ before e after, ((start d).run actions).queued = before ++ .ending e :: after →
      Unending before ∧ after = []) ∧
    (((start d).run actions).session.finished = true → ∀ more,
      (((start d).run actions).run more).queued = ((start d).run actions).queued) ∧
    (((start d).run actions).session.finished = true → ∃ before a after, actions = before ++ a :: after ∧
      ((start d).run before).session.finished = false ∧
      ((start d).run (before ++ [a])).session.finished = true) ∧
    (∀ before a after, actions = before ++ a :: after → ((start d).run before).session.finished = false →
      ((start d).run (before ++ [a])).session.finished = true →
        (∃ f, a = .fail f ∧ ((start d).run actions).queued.getLast? = some (.ofFault f) ∧
          Unending ((start d).run actions).queued) ∨
        ((∀ f, a ≠ .fail f) ∧ ∃ e, ((start d).run actions).queued.getLast? = some (.ending e))) ∧
    ((start d).run actions).taken ++ ((start d).run actions).session.queue = ((start d).run actions).queued := by
  have hstart := sound_start (Session.reading_of_create hd)
  have hs := hstart.run actions
  refine ⟨fun before e after => hs.split, fun hf more => (run_of_finished hf more).2,
    exists_finishing actions rfl, ?_, hs.order⟩
  rintro before a after rfl hf hf'
  have hb := hstart.run before
  rw [run_append] at hf' ⊢
  rcases hb.queued_of_finishing hf a hf' after with ⟨f, rfl, hq⟩ | ⟨hne, last, e, hq, -⟩
  · rw [run_cons, hq]
    exact .inl ⟨f, rfl, by simp, (hb.reading hf).2.append (unending_fault f)⟩
  · rw [run_cons, hq]
    exact .inr ⟨hne, e, by simp⟩

/-- A failure after the end of the input changes nothing: the last event is still a closing event. -/
theorem terminal_unique_late_failure : Decoder.create .responses [] = .ok (.responses {}) ∧
    ∃ e, ((start (.responses {})).run [.next, .endOfInput, .fail (.transport "reset"), .next]).queued.getLast? =
      some (.ending e) := by
  have hcreate : Decoder.create .responses [] = .ok (.responses {}) := rfl
  obtain ⟨-, -, -, h, -⟩ := terminal_unique hcreate [.next, .endOfInput, .fail (.transport "reset"), .next]
  rcases h [.next] .endOfInput [.fail (.transport "reset"), .next] rfl rfl rfl with ⟨f, hf, -⟩ | ⟨-, hend⟩
  · cases hf
  · exact ⟨hcreate, hend⟩

end History

end ModelStream
