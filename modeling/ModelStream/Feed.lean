/-
Feeding a session on demand. A reader asks for one event at a time; the next chunk is taken from the
input only when no event is queued and the session goes on. `Playback` reads chunks that are all
there; `Feed` reads a body whose parts arrive one by one, may let the reader wait, and may fail.
-/
import ModelStream.Session

namespace ModelStream

open Text (Bytes)

/-! ## Chunks that are all there -/

structure Playback where
  session : Session
  chunks : List Bytes

namespace Playback

/-- The next event, after as many chunks as it takes. -/
def pull (s : Session) (chunks : List Bytes) : Option Event × Playback :=
  match s.next? with
  | some (event, s) => (some event, ⟨s, chunks⟩)
  | none =>
    if s.finished then (none, ⟨s, chunks⟩)
    else match chunks with
    | chunk :: more => pull (s.feed chunk) more
    | [] =>
      match s.endOfInput.next? with
      | some (event, s) => (some event, ⟨s, []⟩)
      | none => (none, ⟨s.endOfInput, []⟩)

def next (p : Playback) : Option Event × Playback := pull p.session p.chunks

/-- What is left to read: chunks, and the end of the input. -/
def ahead (p : Playback) : Nat := p.chunks.length + if p.session.finished then 0 else 1

theorem ahead_le (p : Playback) : p.ahead ≤ p.chunks.length + 1 := by
  unfold ahead; split <;> omega

end Playback

theorem Session.next?_eq_some {s t : Session} {e : Event} (h : s.next? = some (e, t)) :
    t.finished = s.finished ∧ t.queue.length < s.queue.length := by
  unfold Session.next? at h
  cases hq : s.queue with
  | nil => simp [hq] at h
  | cons x xs =>
    simp only [hq, Option.some.injEq, Prod.mk.injEq] at h
    obtain ⟨-, rfl⟩ := h
    simp

theorem Session.endOfInput_finished (s : Session) : s.endOfInput.finished = true := by
  unfold Session.endOfInput Session.close
  split
  · assumption
  · rfl

theorem Session.fail_finished (s : Session) (f : Fault) : (s.fail f).finished = true := by
  unfold Session.fail
  split
  · assumption
  · rfl

namespace Playback

theorem pull_event {s : Session} {chunks : List Bytes} {e : Event} {p : Playback}
    (h : pull s chunks = (some e, p)) :
    p.ahead < Playback.ahead ⟨s, chunks⟩ ∨
      p.ahead = Playback.ahead ⟨s, chunks⟩ ∧ p.session.queue.length < s.queue.length := by
  induction chunks generalizing s with
  | nil =>
    unfold pull at h
    split at h
    · next hn =>
      obtain ⟨hf, hq⟩ := Session.next?_eq_some hn
      simp only [Prod.mk.injEq, Option.some.injEq] at h
      obtain ⟨-, rfl⟩ := h
      exact .inr ⟨by simp [ahead, hf], hq⟩
    · split at h
      · simp at h
      · next hfin =>
        simp only at h
        split at h
        · next hn =>
          obtain ⟨hf, -⟩ := Session.next?_eq_some hn
          simp only [Prod.mk.injEq, Option.some.injEq] at h
          obtain ⟨-, rfl⟩ := h
          exact .inl (by simp [ahead, hf, Session.endOfInput_finished, hfin])
        · simp at h
  | cons chunk more ih =>
    unfold pull at h
    split at h
    · next hn =>
      obtain ⟨hf, hq⟩ := Session.next?_eq_some hn
      simp only [Prod.mk.injEq, Option.some.injEq] at h
      obtain ⟨-, rfl⟩ := h
      exact .inr ⟨by simp [ahead, hf], hq⟩
    · split at h
      · simp at h
      · next hfin =>
        have hle := ahead_le ⟨s.feed chunk, more⟩
        have hold : ahead ⟨s, chunk :: more⟩ = more.length + 2 := by simp [ahead, hfin]
        refine .inl ?_
        rcases ih h with h | ⟨h, -⟩ <;> simp only at hle <;> omega

/-- All events to the end. -/
def events (p : Playback) : List Event :=
  match _taken : p.next with
  | (none, _) => []
  | (some event, p) => event :: p.events
termination_by (p.ahead, p.session.queue.length)
decreasing_by
  have := pull_event _taken
  rw [Prod.lex_def]
  exact this

/-- A playback from the first chunk on. -/
def ofChunks (decoder : Decoder) (chunks : List Bytes) : Playback := ⟨{ decoder }, chunks⟩

end Playback

/-! ## A body that arrives -/

/-- What comes when a body is asked for its next part. -/
inductive Arrival
  | chunk (bytes : Bytes)
  /-- Nothing is there yet. -/
  | pending
  /-- The body fails; what follows is never read. -/
  | failure (f : Fault)

/-- What a reader gets. -/
inductive Poll
  | event (e : Event)
  | pending
  | ended

structure Feed where
  session : Session
  body : List Arrival

namespace Feed

/-- The next event, or the news that there is none yet or none any more. -/
def pull (s : Session) (body : List Arrival) : Poll × Feed :=
  match s.next? with
  | some (event, s) => (.event event, ⟨s, body⟩)
  | none =>
    if s.finished then (.ended, ⟨s, []⟩)
    else match body with
    | .chunk bytes :: more => pull (s.feed bytes) more
    | .pending :: more => (.pending, ⟨s, more⟩)
    | .failure f :: _ => last (s.fail f)
    | [] => last s.endOfInput
where
  /-- The first event of a session that has just finished. -/
  last (s : Session) : Poll × Feed :=
    match s.next? with
    | some (event, s) => (.event event, ⟨s, []⟩)
    | none => (.ended, ⟨s, []⟩)

def poll (f : Feed) : Poll × Feed := pull f.session f.body

/-- What is left to read: parts of the body, and its end. -/
def ahead (f : Feed) : Nat := f.body.length + if f.session.finished then 0 else 1

theorem ahead_le (f : Feed) : f.ahead ≤ f.body.length + 1 := by
  unfold ahead; split <;> omega

theorem last_event {s : Session} {e : Event} {f : Feed} (h : pull.last s = (.event e, f)) :
    f.body = [] ∧ f.session.finished = s.finished := by
  unfold pull.last at h
  split at h
  · next hn =>
    obtain ⟨hf, -⟩ := Session.next?_eq_some hn
    simp only [Prod.mk.injEq] at h
    obtain ⟨-, rfl⟩ := h
    exact ⟨rfl, hf⟩
  · simp at h

theorem last_not_pending (s : Session) (f : Feed) : pull.last s ≠ (.pending, f) := by
  unfold pull.last
  split <;> simp

theorem pull_event {s : Session} {body : List Arrival} {e : Event} {f : Feed}
    (h : pull s body = (.event e, f)) :
    f.ahead < Feed.ahead ⟨s, body⟩ ∨
      f.ahead = Feed.ahead ⟨s, body⟩ ∧ f.session.queue.length < s.queue.length := by
  induction body generalizing s with
  | nil =>
    unfold pull at h
    split at h
    · next hn =>
      obtain ⟨hf, hq⟩ := Session.next?_eq_some hn
      simp only [Prod.mk.injEq] at h
      obtain ⟨-, rfl⟩ := h
      exact .inr ⟨by simp [ahead, hf], hq⟩
    · split at h
      · simp at h
      · next hfin =>
        obtain ⟨hb, hf⟩ := last_event h
        exact .inl (by simp [ahead, hb, hf, Session.endOfInput_finished, hfin])
  | cons part more ih =>
    unfold pull at h
    split at h
    · next hn =>
      obtain ⟨hf, hq⟩ := Session.next?_eq_some hn
      simp only [Prod.mk.injEq] at h
      obtain ⟨-, rfl⟩ := h
      exact .inr ⟨by simp [ahead, hf], hq⟩
    · split at h
      · simp at h
      · next hfin =>
        refine .inl ?_
        cases part with
        | chunk bytes =>
          have hle := ahead_le ⟨s.feed bytes, more⟩
          have hold : ahead ⟨s, .chunk bytes :: more⟩ = more.length + 2 := by simp [ahead, hfin]
          rcases ih h with h | ⟨h, -⟩ <;> simp only at hle <;> omega
        | pending => simp at h
        | failure g =>
          obtain ⟨hb, hf⟩ := last_event h
          have hnew : f.ahead = 0 := by simp [ahead, hb, hf, Session.fail_finished]
          have hold : ahead ⟨s, .failure g :: more⟩ = more.length + 2 := by simp [ahead, hfin]
          omega

theorem pull_pending {s : Session} {body : List Arrival} {f : Feed} (h : pull s body = (.pending, f)) :
    f.ahead < Feed.ahead ⟨s, body⟩ := by
  induction body generalizing s with
  | nil =>
    unfold pull at h
    split at h
    · simp at h
    · split at h
      · simp at h
      · exact absurd h (last_not_pending _ _)
  | cons part more ih =>
    unfold pull at h
    split at h
    · simp at h
    · split at h
      · simp at h
      · next hfin =>
        cases part with
        | chunk bytes =>
          have hle := ahead_le ⟨s.feed bytes, more⟩
          have hold : ahead ⟨s, .chunk bytes :: more⟩ = more.length + 2 := by simp [ahead, hfin]
          have := ih h
          simp only at hle
          omega
        | pending =>
          simp only [Prod.mk.injEq, true_and] at h
          subst h
          simp [ahead]
        | failure g => exact absurd h (last_not_pending _ _)

/-- All events to the end, however often the reader has to wait. -/
def events (f : Feed) : List Event :=
  match _taken : f.poll with
  | (.ended, _) => []
  | (.pending, f) => f.events
  | (.event event, f) => event :: f.events
termination_by (f.ahead, f.session.queue.length)
decreasing_by
  · exact .left _ _ (pull_pending _taken)
  · have := pull_event _taken
    rw [Prod.lex_def]
    exact this

/-- A feed from the first part of a body on. -/
def ofBody (decoder : Decoder) (body : List Arrival) : Feed := ⟨{ decoder }, body⟩

/-- A feed that gives out a single fault. -/
def failed (decoder : Decoder) (f : Fault) : Feed := ⟨Session.fail { decoder } f, []⟩

end Feed

end ModelStream
