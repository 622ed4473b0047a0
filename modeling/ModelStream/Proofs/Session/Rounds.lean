/-
The loops behind a playback and a feed, round by round. A round gives out a queued event, or asks for
the next part when nothing is queued and the session goes on, or stops. One call of `Playback.next` and
one of `Feed.poll` are as many rounds as it takes (`Playback.next_trail`, `Feed.poll_trail`), and both
loops do the same in every round as long as no part is waited for (`Playback.trail_round`).

What a session has heard is told by the answers to what was asked (`Session.hear`). Giving events out in
between changes nothing about it, so a feed gives out what its session would queue if it heard all
answers at once (`Feed.events_eq`).
-/
import ModelStream.Proofs.Session.Playback

namespace ModelStream

open Text (Bytes)

/-! ## Steps in a row -/

section Trail

variable {σ α : Type} (step : σ → α × σ)

/-- What so many steps yield, and the state after them. -/
def trail : Nat → σ → List α × σ
  | 0, s => ([], s)
  | n + 1, s => ((step s).1 :: (trail n (step s).2).1, (trail n (step s).2).2)

theorem trail_add (m n : Nat) (s : σ) : trail step (m + n) s =
    ((trail step m s).1 ++ (trail step n (trail step m s).2).1, (trail step n (trail step m s).2).2) := by
  induction m generalizing s with
  | zero => simp [trail]
  | succ m ih =>
    rw [Nat.add_right_comm]
    simp only [trail, ih, List.cons_append]

theorem trail_concat (n : Nat) (s : σ) : trail step (n + 1) s =
    ((trail step n s).1 ++ [(step (trail step n s).2).1], (step (trail step n s).2).2) :=
  trail_add step n 1 s

end Trail

/-! ## What a session hears -/

namespace Session

/-- The session after the answer to a request for the next part, which is none at the end. -/
def hear (s : Session) : Option Arrival → Session
  | some (.chunk bytes) => s.feed bytes
  | some .pending => s
  | some (.failure f) => s.fail f
  | none => s.endOfInput

def hearAll (s : Session) (answers : List (Option Arrival)) : Session := answers.foldl hear s

@[simp] theorem hearAll_nil (s : Session) : s.hearAll [] = s := rfl

@[simp] theorem hearAll_cons (s : Session) (answer : Option Arrival) (more : List (Option Arrival)) :
    s.hearAll (answer :: more) = (s.hear answer).hearAll more := rfl

@[simp] theorem hearAll_append (s : Session) (answers more : List (Option Arrival)) :
    s.hearAll (answers ++ more) = (s.hearAll answers).hearAll more := List.foldl_append

theorem hear_of_finished {s : Session} (h : s.finished = true) (answer : Option Arrival) : s.hear answer = s := by
  unfold hear
  split
  · exact feed_of_finished h _
  · rfl
  · exact fail_of_finished h _
  · exact endOfInput_of_finished h

theorem hearAll_of_finished {s : Session} (h : s.finished = true) (answers : List (Option Arrival)) :
    s.hearAll answers = s := by
  induction answers with
  | nil => rfl
  | cons answer more ih => rwa [hearAll_cons, hear_of_finished h]

theorem fail_behind (events : List Event) (s : Session) (f : Fault) :
    (s.behind events).fail f = (s.fail f).behind events := by
  cases h : s.finished with
  | true => rw [fail_of_finished h, fail_of_finished (by simpa using h)]
  | false =>
    rw [fail_of_reading h, fail_of_reading (by simpa using h)]
    simp [behind]

theorem hear_behind (events : List Event) (s : Session) (answer : Option Arrival) :
    (s.behind events).hear answer = (s.hear answer).behind events := by
  unfold hear
  split
  · exact feed_behind events s _
  · rfl
  · exact fail_behind events s _
  · exact endOfInput_behind events s

theorem hearAll_behind (events : List Event) (answers : List (Option Arrival)) (s : Session) :
    (s.behind events).hearAll answers = (s.hearAll answers).behind events := by
  induction answers generalizing s with
  | nil => rfl
  | cons answer more ih => rw [hearAll_cons, hearAll_cons, hear_behind, ih]

end Session

/-! ## Bodies -/

namespace Arrival

/-- The chunks among the parts of a body. -/
def chunk? : Arrival → Option Bytes
  | .chunk bytes => some bytes
  | _ => none

def failed : Arrival → Bool
  | .failure _ => true
  | _ => false

/-- The answers to requests for the parts of a body, one after the other: a failure is the last one, and
so is the end. -/
def answers : List Arrival → List (Option Arrival)
  | [] => [none]
  | .failure f :: _ => [some (.failure f)]
  | part :: more => some part :: answers more

/-- The answers of a body that does not fail before its last parts. -/
theorem answers_append {before : List Arrival} (h : ∀ part ∈ before, part.failed = false) (after : List Arrival) :
    answers (before ++ after) = before.map some ++ answers after := by
  induction before with
  | nil => rfl
  | cons part more ih =>
    have hmore := ih fun part hp => h part (List.mem_cons_of_mem _ hp)
    cases part with
    | failure f => cases h (.failure f) (List.mem_cons_self ..)
    | chunk | pending => simp [answers, hmore]

theorem answers_failure {before : List Arrival} (h : ∀ part ∈ before, part.failed = false) (f : Fault)
    (after : List Arrival) : answers (before ++ .failure f :: after) = before.map some ++ [some (.failure f)] :=
  answers_append h _

/-- Waiting tells a session nothing. -/
theorem hearAll_parts {parts : List Arrival} (h : ∀ part ∈ parts, part.failed = false) (s : Session) :
    s.hearAll (parts.map some) = (parts.filterMap chunk?).foldl Session.feed s := by
  induction parts generalizing s with
  | nil => rfl
  | cons part more ih =>
    have hmore := ih fun part hp => h part (List.mem_cons_of_mem _ hp)
    cases part with
    | failure f => cases h (.failure f) (List.mem_cons_self ..)
    | chunk | pending => exact hmore _

end Arrival

/-! ## Rounds -/

/-- What a driver does in one round of its loop. -/
inductive Act
  | give (e : Event)
  /-- The next part is asked for; the answer is none at the end of the body. -/
  | ask (answer : Option Arrival)
  | stop

namespace Act

@[simp] def given? : Act → Option Event
  | .give e => some e
  | _ => none

@[simp] def asked? : Act → Option (Option Arrival)
  | .ask answer => some answer
  | _ => none

end Act

/-- The events given out in these rounds. -/
def given (acts : List Act) : List Event := acts.filterMap Act.given?

/-- The answers heard in these rounds. -/
def asked (acts : List Act) : List (Option Arrival) := acts.filterMap Act.asked?

/-- Calls are loops of rounds: however often it is called, that is a number of rounds, and the events of the
calls are those given out in the rounds. -/
def Loops {σ ρ : Type} (round : σ → Act × σ) (call : σ → ρ × σ) (event? : ρ → Option Event) : Prop :=
  ∀ s n, ∃ m, (trail call n s).2 = (trail round m s).2 ∧
    (trail call n s).1.filterMap event? = given (trail round m s).1

@[simp] theorem given_nil : given [] = [] := rfl

@[simp] theorem asked_nil : asked [] = [] := rfl

@[simp] theorem given_cons (act : Act) (acts : List Act) : given (act :: acts) = act.given?.toList ++ given acts := by
  cases act <;> rfl

@[simp] theorem asked_cons (act : Act) (acts : List Act) : asked (act :: acts) = act.asked?.toList ++ asked acts := by
  cases act <;> rfl

@[simp] theorem given_append (acts more : List Act) : given (acts ++ more) = given acts ++ given more :=
  List.filterMap_append

@[simp] theorem asked_append (acts more : List Act) : asked (acts ++ more) = asked acts ++ asked more :=
  List.filterMap_append

/-- It is enough to know this of one call. -/
theorem loops_of_once {σ ρ : Type} {round : σ → Act × σ} {call : σ → ρ × σ} {event? : ρ → Option Event}
    (h : ∀ s, ∃ m, (trail round m s).2 = (call s).2 ∧ given (trail round m s).1 = (event? (call s).1).toList) :
    Loops round call event? := by
  intro s n
  induction n generalizing s with
  | zero => exact ⟨0, rfl, rfl⟩
  | succ n ih =>
    obtain ⟨first, hstate, hgiven⟩ := h s
    obtain ⟨rest, hstate', hgiven'⟩ := ih (call s).2
    refine ⟨first + rest, ?_, ?_⟩
    · rw [trail_add round, hstate]
      exact hstate'
    · rw [trail_add round, hstate, given_append, hgiven, ← hgiven', trail, List.filterMap_cons]
      cases event? (call s).1 <;> rfl

/-- What a round can do to a session. -/
inductive Session.Round : Session → Act → Session → Prop
  | give {s t : Session} {e : Event} (h : s.next? = some (e, t)) : Round s (.give e) t
  | ask {s : Session} (hqueue : s.queue = []) (hreading : s.finished = false) (answer : Option Arrival) :
    Round s (.ask answer) (s.hear answer)
  | stop {s : Session} (hqueue : s.queue = []) (hfinished : s.finished = true) : Round s .stop s

/-- The event that a poll gives out. -/
def Poll.event? : Poll → Option Event
  | .event e => some e
  | _ => none

namespace Playback

/-- One round of the loop of `Playback.next`. -/
def round (p : Playback) : Act × Playback :=
  match p.session.next? with
  | some (event, s) => (.give event, ⟨s, p.chunks⟩)
  | none =>
    if p.session.finished then (.stop, p)
    else match p.chunks with
    | chunk :: more => (.ask (some (.chunk chunk)), ⟨p.session.feed chunk, more⟩)
    | [] => (.ask none, ⟨p.session.endOfInput, []⟩)

end Playback

namespace Feed

/-- One round of the loop of `Feed.poll`. -/
def round (f : Feed) : Act × Feed :=
  match f.session.next? with
  | some (event, s) => (.give event, ⟨s, f.body⟩)
  | none =>
    if f.session.finished then (.stop, ⟨f.session, []⟩)
    else match f.body with
    | .chunk bytes :: more => (.ask (some (.chunk bytes)), ⟨f.session.feed bytes, more⟩)
    | .pending :: more => (.ask (some .pending), ⟨f.session, more⟩)
    | .failure g :: _ => (.ask (some (.failure g)), ⟨f.session.fail g, []⟩)
    | [] => (.ask none, ⟨f.session.endOfInput, []⟩)

/-- A round, with what it leaves of the answers to come: none are needed once the session has finished. -/
theorem round_cases (f : Feed) :
    (∃ e s, f.session.next? = some (e, s) ∧ f.round = (.give e, ⟨s, f.body⟩)) ∨
    (f.session.queue = [] ∧ f.session.finished = true ∧ f.round = (.stop, ⟨f.session, []⟩)) ∨
    (f.session.queue = [] ∧ f.session.finished = false ∧ ∃ answer body,
      f.round = (.ask answer, ⟨f.session.hear answer, body⟩) ∧
      (Arrival.answers f.body = answer :: Arrival.answers body ∧ body.length < f.body.length ∨
        Arrival.answers f.body = [answer] ∧ body = [] ∧ (f.session.hear answer).finished = true ∧
          answer ≠ some .pending)) := by
  unfold round
  cases hnext : f.session.next? with
  | some next => exact .inl ⟨next.1, next.2, rfl, rfl⟩
  | none =>
    have hqueue := Session.queue_of_next? hnext
    cases hfinished : f.session.finished with
    | true => exact .inr (.inl ⟨hqueue, rfl, rfl⟩)
    | false =>
      refine .inr (.inr ⟨hqueue, rfl, ?_⟩)
      obtain ⟨s, body⟩ := f
      cases body with
      | nil => exact ⟨none, [], rfl, .inr ⟨rfl, rfl, Session.endOfInput_finished s, nofun⟩⟩
      | cons part more =>
        cases part with
        | chunk bytes => exact ⟨some (.chunk bytes), more, rfl, .inl ⟨rfl, Nat.lt_succ_self _⟩⟩
        | pending => exact ⟨some .pending, more, rfl, .inl ⟨rfl, Nat.lt_succ_self _⟩⟩
        | failure g => exact ⟨some (.failure g), [], rfl, .inr ⟨rfl, rfl, Session.fail_finished s g, nofun⟩⟩

theorem round_session (f : Feed) : f.session.Round f.round.1 f.round.2.session := by
  rcases f.round_cases with ⟨e, s, hnext, hround⟩ | ⟨hqueue, hfin, hround⟩ | ⟨hqueue, hread, answer, body, hround, -⟩
  · rw [hround]; exact .give hnext
  · rw [hround]; exact .stop hqueue hfin
  · rw [hround]; exact .ask hqueue hread answer

/-- A poll is a round, and another poll after an answer that is there. -/
theorem poll_eq (f : Feed) : f.poll = match f.round with
    | (.give e, g) => (.event e, g)
    | (.ask (some .pending), g) => (.pending, g)
    | (.ask _, g) => g.poll
    | (.stop, g) => (.ended, g) := by
  -- a failure and the end finish the session: what follows is its first event, or nothing
  have hlast : ∀ t : Session, t.finished = true → pull.last t = poll ⟨t, []⟩ := by
    intro t ht
    rw [pull.last, poll, pull]
    cases t.next? <;> simp [ht]
  obtain ⟨s, body⟩ := f
  rw [poll, round, pull.eq_def]
  cases s.next? with
  | some => rfl
  | none =>
    cases hfin : s.finished with
    | true => rfl
    | false =>
      cases body with
      | nil => exact hlast _ (Session.endOfInput_finished s)
      | cons part more =>
        cases part with
        | chunk | pending => rfl
        | failure g => exact hlast _ (Session.fail_finished s g)

theorem ahead_of_ask {f g : Feed} {answer : Option Arrival} (h : f.round = (.ask answer, g)) : g.ahead < f.ahead := by
  rcases f.round_cases with ⟨e, s, -, hround⟩ | ⟨-, -, hround⟩ | ⟨-, hread, answer, body, hround, hrest⟩
  · rw [hround] at h; cases h
  · rw [hround] at h; cases h
  · rw [hround] at h
    cases h
    have hf : f.ahead = f.body.length + 1 := by simp [ahead, hread]
    rw [hf]
    rcases hrest with ⟨-, hlen⟩ | ⟨-, rfl, hfin, -⟩
    · exact Nat.lt_of_le_of_lt (ahead_le _) (Nat.succ_lt_succ hlen)
    · simp [ahead, hfin]

/-- What holds of every way to end a poll, and carries over an answer that is there, holds of every poll. -/
theorem poll_induction {P : Feed → Poll × Feed → Prop}
    (give : ∀ {f e g}, f.round = (.give e, g) → P f (.event e, g))
    (wait : ∀ {f g}, f.round = (.ask (some .pending), g) → P f (.pending, g))
    (stop : ∀ {f g}, f.round = (.stop, g) → P f (.ended, g))
    (again : ∀ {f answer g}, f.round = (.ask answer, g) → P g g.poll → P f g.poll) (f : Feed) : P f f.poll := by
  -- as long as answers come there is less ahead
  induction hn : f.ahead using Nat.strongRecOn generalizing f with
  | ind n ih =>
    have hpoll := f.poll_eq
    rcases hround : f.round with ⟨act, g⟩
    rw [hround] at hpoll
    have next : ∀ {answer}, act = .ask answer → P f g.poll := by
      rintro answer rfl
      exact again hround (ih _ (hn ▸ ahead_of_ask hround) g rfl)
    match act with
    | .give e => rw [hpoll]; exact give hround
    | .stop => rw [hpoll]; exact stop hround
    | .ask (some .pending) => rw [hpoll]; exact wait hround
    | .ask none | .ask (some (.chunk _)) | .ask (some (.failure _)) => rw [hpoll]; exact next rfl

/-- One poll is a number of rounds. -/
theorem poll_trail (f : Feed) : ∃ n, (trail round n f).2 = f.poll.2 ∧
    given (trail round n f).1 = f.poll.1.event?.toList := by
  refine poll_induction (P := fun f r => ∃ n, (trail round n f).2 = r.2 ∧
    given (trail round n f).1 = r.1.event?.toList) ?_ ?_ ?_ ?_ f
  · intro f e g h
    exact ⟨1, by simp [trail, h], by simp [trail, h, Poll.event?]⟩
  · intro f g h
    exact ⟨1, by simp [trail, h], by simp [trail, h, Poll.event?]⟩
  · intro f g h
    exact ⟨1, by simp [trail, h], by simp [trail, h, Poll.event?]⟩
  · rintro f answer g h ⟨n, hstate, hevent⟩
    exact ⟨n + 1, by simpa [trail, h] using hstate, by simpa [trail, h] using hevent⟩

/-- A feed that has ended has nothing to give out. -/
theorem poll_ended {f g : Feed} (h : f.poll = (.ended, g)) : g.session.finished = true ∧ g.session.queue = [] := by
  have hend : f.poll.1 = .ended → f.poll.2.session.finished = true ∧ f.poll.2.session.queue = [] := by
    refine poll_induction (P := fun _ r => r.1 = .ended → r.2.session.finished = true ∧ r.2.session.queue = [])
      nofun nofun ?_ (fun _ ih => ih) f
    intro f g hround _
    rcases f.round_cases with ⟨e, s, -, hcase⟩ | ⟨hqueue, hfin, hcase⟩ | ⟨-, -, answer, body, hcase, -⟩
    · rw [hcase] at hround; cases hround
    · rw [hcase] at hround; cases hround; exact ⟨hfin, hqueue⟩
    · rw [hcase] at hround; cases hround
  rw [h] at hend
  exact hend rfl

/-! ## All answers at once -/

/-- What a feed would queue if its session heard all answers at once. -/
def due (f : Feed) : List Event := (f.session.hearAll (Arrival.answers f.body)).queue

/-- What is given out in a round is due before it, and the rest after it. -/
theorem due_round (f : Feed) : f.due = f.round.1.given?.toList ++ f.round.2.due := by
  unfold due
  rcases f.round_cases with ⟨e, s, hnext, hround⟩ | ⟨hqueue, hfin, hround⟩ | ⟨-, -, answer, body, hround, hrest⟩
  · rw [hround, Session.behind_of_next? hnext, Session.hearAll_behind]
    rfl
  · rw [hround, Session.hearAll_of_finished hfin, Session.hearAll_of_finished hfin, hqueue]
    rfl
  · rw [hround]
    rcases hrest with ⟨hanswers, -⟩ | ⟨hanswers, -, hfin, -⟩
    · rw [hanswers]
      rfl
    · rw [hanswers, Session.hearAll_of_finished hfin]
      rfl

theorem due_trail (n : Nat) (f : Feed) : f.due = given (trail round n f).1 ++ (trail round n f).2.due := by
  induction n generalizing f with
  | zero => rfl
  | succ n ih =>
    rw [due_round, ih f.round.2]
    simp [trail]

theorem due_poll (f : Feed) : f.due = f.poll.1.event?.toList ++ f.poll.2.due := by
  obtain ⟨n, hstate, hevent⟩ := f.poll_trail
  rw [← hstate, ← hevent]
  exact f.due_trail n

/-- The events of a feed are those of its session once it has heard all answers. -/
theorem events_eq (f : Feed) : f.events = f.due := by
  induction f using Feed.events.induct with
  | case1 f g h =>
    obtain ⟨hfin, hqueue⟩ := poll_ended h
    have hrest : g.due = [] := by rw [due, Session.hearAll_of_finished hfin, hqueue]
    rw [events, due_poll, h, hrest]
    split <;> simp_all [Poll.event?]
  | case2 f g h ih =>
    rw [events, due_poll, h, ← ih]
    split <;> simp_all [Poll.event?]
  | case3 f e g h ih =>
    rw [events, due_poll, h, ← ih]
    split <;> simp_all [Poll.event?]

end Feed

/-! ## Both loops -/

namespace Playback

/-- A next event is a round, and another one after a chunk. -/
theorem next_eq (p : Playback) : p.next = match p.round with
    | (.give e, q) => (some e, q)
    | (.ask _, q) => q.next
    | (.stop, q) => (none, q) := by
  obtain ⟨s, chunks⟩ := p
  rw [next, round, pull.eq_def]
  cases s.next? with
  | some => rfl
  | none =>
    cases hfin : s.finished with
    | true => simp
    | false =>
      cases chunks with
      | cons chunk more => rfl
      | nil =>
        have hlast : (Playback.mk s.endOfInput []).next = match s.endOfInput.next? with
            | some (e, t) => (some e, ⟨t, []⟩)
            | none => (none, ⟨s.endOfInput, []⟩) := by
          rw [next, pull]
          cases s.endOfInput.next? <;> simp [Session.endOfInput_finished]
        exact hlast.symm

theorem ahead_of_ask {p q : Playback} {answer : Option Arrival} (h : p.round = (.ask answer, q)) :
    q.ahead < p.ahead := by
  obtain ⟨s, chunks⟩ := p
  unfold round at h
  simp only at h
  split at h
  · cases h
  · split at h
    · cases h
    · next hread =>
      have hp : ahead ⟨s, chunks⟩ = chunks.length + 1 := by simp [ahead, hread]
      rw [hp]
      split at h
      · cases h
        exact Nat.lt_of_le_of_lt (ahead_le _) (Nat.lt_succ_self _)
      · cases h
        simp [ahead, Session.endOfInput_finished]

/-- One call for the next event is a number of rounds. -/
theorem next_trail (p : Playback) : ∃ n, (trail round n p).2 = p.next.2 ∧
    given (trail round n p).1 = p.next.1.toList := by
  induction hn : p.ahead using Nat.strongRecOn generalizing p with
  | ind n ih =>
    have hnext := p.next_eq
    rcases hround : p.round with ⟨act, q⟩
    rw [hround] at hnext
    cases act with
    | give e => exact ⟨1, by simp [trail, hround, hnext], by simp [trail, hround, hnext]⟩
    | stop => exact ⟨1, by simp [trail, hround, hnext], by simp [trail, hround, hnext]⟩
    | ask answer =>
      obtain ⟨m, hstate, hevent⟩ := ih _ (hn ▸ ahead_of_ask hround) q rfl
      exact ⟨m + 1, by simpa [trail, hround, hnext] using hstate, by simpa [trail, hround, hnext] using hevent⟩

/-- The feed of a body whose parts are all there. -/
def asFeed (p : Playback) : Feed := ⟨p.session, p.chunks.map .chunk⟩

/-- The same session, and the same chunks as long as it is reading. -/
def Beside (p : Playback) (f : Feed) : Prop :=
  p.session = f.session ∧ (p.session.finished = false → f.body = p.chunks.map .chunk)

theorem Beside.round {p : Playback} {f : Feed} (h : p.Beside f) :
    p.round.1 = f.round.1 ∧ p.round.2.Beside f.round.2 := by
  obtain ⟨s, chunks⟩ := p
  obtain ⟨t, body⟩ := f
  obtain ⟨rfl, hbody⟩ := h
  unfold Playback.round Feed.round
  simp only at hbody ⊢
  cases hnext : s.next? with
  | some next =>
    obtain ⟨hfin, -⟩ := Session.next?_eq_some hnext
    exact ⟨rfl, rfl, fun h => hbody (hfin ▸ h)⟩
  | none =>
    cases hfin : s.finished with
    | true => exact ⟨rfl, rfl, fun h => by cases hfin.symm.trans h⟩
    | false =>
      obtain rfl := hbody hfin
      cases chunks with
      | nil => exact ⟨rfl, rfl, fun _ => rfl⟩
      | cons chunk more => exact ⟨rfl, rfl, fun _ => rfl⟩

/-- Where no part is waited for both loops do the same. -/
theorem trail_round (n : Nat) (p : Playback) : (trail round n p).1 = (trail Feed.round n p.asFeed).1 := by
  have together : ∀ n (p : Playback) (f : Feed), p.Beside f → (trail round n p).1 = (trail Feed.round n f).1 := by
    intro n
    induction n with
    | zero => exact fun _ _ _ => rfl
    | succ n ih =>
      intro p f h
      rw [trail, trail, h.round.1, ih _ _ h.round.2]
  exact together n p p.asFeed ⟨rfl, fun _ => rfl⟩

end Playback

end ModelStream
