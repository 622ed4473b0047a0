/-
The outcomes of an exchange. Whatever is asked for, whatever sending leads to and however a body is cut,
waits or breaks off, the events are not empty and end with one terminal: a closing event, the only one, or
else a fault. Whatever goes wrong before the first frame is one fault with its cause, and a request that
cannot be prepared is not sent (`Exchange.run_terminated`).

The stages before the body are told apart by cases. A body is heard answer by answer; a session either goes
on without a closing event or ends with a terminal (`Session.hear_terminated`), and the last answer ends it.
-/
import ModelStream.Exchange
import ModelStream.Proofs.Session.Demand

namespace ModelStream

/-! ## One terminal -/

/-- Events with one terminal: a closing event is the last of them and the only one, and where there is
none the last is a fault. -/
structure Terminated (events : List Event) : Prop where
  nonempty : events ≠ []
  closing : ∀ before e after, events = before ++ .ending e :: after → Unending before ∧ after = []
  fault : Unending events → ∃ message cause, events.getLast? = some (.fault message cause)

theorem EndsOnce.terminated {events : List Event} (h : EndsOnce events) : Terminated events where
  nonempty := by
    obtain ⟨before, e, rfl, -⟩ := h
    simp
  closing _ _ _ := h.split
  fault hnone := by
    obtain ⟨before, e, rfl, -⟩ := h
    cases hnone (.ending e) (by simp)

/-- A fault after events without a closing event. -/
theorem terminated_fault {events : List Event} (h : Unending events) (f : Fault) :
    Terminated (events ++ [.ofFault f]) where
  nonempty := by simp
  closing _ _ _ hsplit := ((h.append (unending_fault f)).not_split hsplit).elim
  fault _ := ⟨f.message, some f, by simp [Event.ofFault]⟩

theorem terminated_ofFault (f : Fault) : Terminated [.ofFault f] := terminated_fault unending_nil f

/-! ## Bodies -/

namespace Session

/-- After an answer a session goes on without a closing event, or has ended with a terminal. -/
theorem hear_terminated {s : Session} (h : s.Reading) (hqueue : Unending s.queue) (answer : Option Arrival) :
    ((s.hear answer).Reading ∧ Unending (s.hear answer).queue) ∨
      ((s.hear answer).finished = true ∧ Terminated (s.hear answer).queue) := by
  match answer with
  | some (.chunk bytes) =>
    obtain ⟨events, hq, ⟨hr, hu⟩ | ⟨hf, hend⟩⟩ := feed_queue h bytes
    · exact .inl ⟨hr, hq ▸ hqueue.append hu⟩
    · exact .inr ⟨hf, hq ▸ (hend.append hqueue).terminated⟩
  | some .pending => exact .inl ⟨h, hqueue⟩
  | some (.failure f) =>
    refine .inr ⟨fail_finished s f, ?_⟩
    show Terminated (s.fail f).queue
    rw [fail_of_reading h.session]
    exact terminated_fault hqueue f
  | none =>
    obtain ⟨events, hq, hend⟩ := endOfInput_queue h
    exact .inr ⟨endOfInput_finished s, hq ▸ (hend.append hqueue).terminated⟩

/-- Any body ends a session with a terminal. -/
theorem hearAll_terminated (body : List Arrival) {s : Session} (h : s.Reading) (hqueue : Unending s.queue) :
    Terminated (s.hearAll (Arrival.answers body)).queue := by
  induction body generalizing s with
  | nil =>
    rcases hear_terminated h hqueue none with ⟨hr, -⟩ | ⟨-, hend⟩
    · cases hr.session.symm.trans (endOfInput_finished s)
    · exact hend
  | cons part more ih =>
    rcases hear_terminated h hqueue (some part) with ⟨hr, hu⟩ | ⟨hf, hend⟩
    · cases part with
      | chunk | pending => exact ih hr hu
      | failure f => cases hr.session.symm.trans (fail_finished s f)
    · have hrest : ∀ answers, Terminated ((s.hear (some part)).hearAll answers).queue := by
        intro answers
        rwa [hearAll_of_finished hf]
      cases part with
      | chunk | pending => exact hrest (Arrival.answers more)
      | failure f => exact hend

end Session

namespace Feed

theorem events_failed (d : Decoder) (f : Fault) : (failed d f).events = [.ofFault f] := by
  have hfin : (failed d f).session.finished = true := Session.fail_finished _ f
  rw [events_eq, due, Session.hearAll_of_finished hfin]
  rfl

theorem ofBody_terminated {backend : Backend} {tags : List String} {d : Decoder}
    (h : Decoder.create backend tags = .ok d) (body : List Arrival) : Terminated (ofBody d body).events := by
  rw [events_eq, due]
  exact Session.hearAll_terminated body (Session.reading_of_create h) unending_nil

end Feed

/-! ## Stages -/

namespace Exchange

variable {o : Options} {tags : List String}

theorem run_of_blank (h : Text.blank o.model = true) (send : Request → Except Fault Response) :
    run o tags send = { sent := none, events := [.ofFault (.invalidArgument "model must not be empty")] } := by
  simp [run, prepare, Request.ofOptions, h, bind, Except.bind]

theorem run_of_no_decoder (h : Text.blank o.model = false) {f : Fault}
    (hd : Decoder.create o.backend tags = .error f) (send : Request → Except Fault Response) :
    run o tags send = { sent := none, events := [.ofFault f] } := by
  simp [run, prepare, Request.ofOptions, h, hd, bind, Except.bind]

theorem run_of_prepared (h : Text.blank o.model = false) {d : Decoder} (hd : Decoder.create o.backend tags = .ok d)
    (send : Request → Except Fault Response) :
    run o tags send = { sent := some ⟨o.backend.endpoint, o.body⟩
                        events := answer d (send ⟨o.backend.endpoint, o.body⟩) } := by
  simp [run, prepare, Request.ofOptions, h, hd, bind, Except.bind, pure, Except.pure]

theorem answer_of_unsuccessful {r : Response} (h : r.isSuccess = false) (d : Decoder) :
    answer d (.ok r) = [.ofFault (.ofStatus r.status r.headers r.detail)] := by
  simp [answer, h, Response.toFault]

theorem answer_of_no_body {r : Response} (h : r.isSuccess = true) (hbody : r.body = none) (d : Decoder) :
    answer d (.ok r) = [.ofFault (.transport "response has no body")] := by
  simp [answer, h, Response.feed, hbody, Feed.events_failed]

theorem answer_of_body {r : Response} (h : r.isSuccess = true) {body : List Arrival} (hbody : r.body = some body)
    (d : Decoder) : answer d (.ok r) = (Feed.ofBody d body).events := by
  simp [answer, h, Response.feed, hbody]

theorem answer_terminated {backend : Backend} {d : Decoder} (hd : Decoder.create backend tags = .ok d)
    (outcome : Except Fault Response) : Terminated (answer d outcome) := by
  cases outcome with
  | error f => exact terminated_ofFault f
  | ok r =>
    cases hs : r.isSuccess with
    | false =>
      rw [answer_of_unsuccessful hs]
      exact terminated_ofFault _
    | true =>
      cases hbody : r.body with
      | none =>
        rw [answer_of_no_body hs hbody]
        exact terminated_ofFault _
      | some body =>
        rw [answer_of_body hs hbody]
        exact Feed.ofBody_terminated hd body

/-- Every exchange gives events with one terminal. Options without a model and a decoder that cannot be
created are one fault, and nothing is sent; otherwise the request is sent, and a failure to send it, a status
that means failure, with any body, and an answer without a body are one fault each. -/
theorem run_terminated (o : Options) (tags : List String) (send : Request → Except Fault Response) :
    Terminated (run o tags send).events ∧
    (Text.blank o.model = true → (run o tags send).sent = none ∧
      (run o tags send).events = [.ofFault (.invalidArgument "model must not be empty")]) ∧
    (Text.blank o.model = false → ∀ f, Decoder.create o.backend tags = .error f →
      (run o tags send).sent = none ∧ (run o tags send).events = [.ofFault f]) ∧
    (Text.blank o.model = false → ∀ d, Decoder.create o.backend tags = .ok d → ∃ request,
      Request.ofOptions o = .ok request ∧ (run o tags send).sent = some request ∧
      (∀ f, send request = .error f → (run o tags send).events = [.ofFault f]) ∧
      (∀ r, send request = .ok r → r.isSuccess = false →
        (run o tags send).events = [.ofFault (.ofStatus r.status r.headers r.detail)]) ∧
      (∀ r, send request = .ok r → r.isSuccess = true → r.body = none →
        (run o tags send).events = [.ofFault (.transport "response has no body")])) := by
  refine ⟨?_, fun h => ?_, fun h f hd => ?_, fun h d hd => ?_⟩
  · cases h : Text.blank o.model with
    | true =>
      rw [run_of_blank h]
      exact terminated_ofFault _
    | false =>
      cases hd : Decoder.create o.backend tags with
      | error f =>
        rw [run_of_no_decoder h hd]
        exact terminated_ofFault f
      | ok d =>
        rw [run_of_prepared h hd]
        exact answer_terminated hd _
  · rw [run_of_blank h]
    exact ⟨rfl, rfl⟩
  · rw [run_of_no_decoder h hd]
    exact ⟨rfl, rfl⟩
  · refine ⟨⟨o.backend.endpoint, o.body⟩, by simp [Request.ofOptions, h], ?_⟩
    rw [run_of_prepared h hd]
    refine ⟨rfl, fun f hsend => ?_, fun r hsend hs => ?_, fun r hsend hs hbody => ?_⟩
    · rw [hsend]
      rfl
    · rw [hsend, answer_of_unsuccessful hs]
    · rw [hsend, answer_of_no_body hs hbody]

/-- A model of blanks, no tag that can be used, and four answers that are no stream: one cannot be sent, one
is an overload whose body breaks off, one is a refusal, and one has no body. -/
theorem run_terminated_stages :
    let nameless : Options := { backend := .chat, model := "\t ", messages := [] }
    let tagless : Options := { backend := .chat, model := "m", messages := [] }
    let plain : Options := { backend := .responses, model := "m", messages := [] }
    let untagged : Fault := .configuration "at least one reasoning tag name is required"
    let overload : Response :=
      { status := 503, body := some [.chunk (Text.bytesOf " busy "), .failure (.transport "reset")] }
    let refusal : Response := { status := 401, body := some [.chunk (Text.bytesOf "bad key\n")] }
    let empty : Response := { status := 204 }
    Text.blank nameless.model = true ∧ Text.blank tagless.model = false ∧ Text.blank plain.model = false ∧
      Decoder.create .chat [" "] = .error untagged ∧ Decoder.create .responses [] = .ok (.responses {}) ∧
      overload.isSuccess = false ∧ refusal.isSuccess = false ∧ empty.isSuccess = true ∧ empty.body = none ∧
      (run nameless ["think"] fun _ => .ok empty).sent = none ∧
      (run tagless [" "] fun _ => .ok empty).events = [.ofFault untagged] ∧
      (run plain [] fun _ => .error (.transport "refused")).events = [.ofFault (.transport "refused")] ∧
      (run plain [] fun _ => .ok overload).events = [.ofFault (.api 503 "busy")] ∧
      (run plain [] fun _ => .ok refusal).events = [.ofFault (.authentication "bad key")] ∧
      (run plain [] fun _ => .ok empty).events = [.ofFault (.transport "response has no body")] := by
  intro nameless tagless plain untagged overload refusal empty
  have hnameless : Text.blank nameless.model = true := by decide +kernel
  have htagless : Text.blank tagless.model = false := by decide +kernel
  have hplain : Text.blank plain.model = false := by decide +kernel
  have hnone : Decoder.create .chat [" "] = .error untagged := by rfl
  have hcreate : Decoder.create .responses [] = .ok (.responses {}) := rfl
  have answered := fun send => (run_terminated plain [] send).2.2.2 hplain _ hcreate
  obtain ⟨_, -, -, hsend, -, -⟩ := answered fun _ => .error (.transport "refused")
  obtain ⟨_, -, -, -, hoverload, -⟩ := answered fun _ => .ok overload
  obtain ⟨_, -, -, -, hrefusal, -⟩ := answered fun _ => .ok refusal
  obtain ⟨_, -, -, -, -, hbody⟩ := answered fun _ => .ok empty
  have hbusy : Fault.ofStatus overload.status overload.headers overload.detail = .api 503 "busy" := by decide +kernel
  have hkey : Fault.ofStatus refusal.status refusal.headers refusal.detail = .authentication "bad key" := by
    decide +kernel
  exact ⟨hnameless, htagless, hplain, hnone, hcreate, rfl, rfl, rfl, rfl,
    ((run_terminated nameless ["think"] _).2.1 hnameless).1,
    ((run_terminated tagless [" "] _).2.2.1 htagless untagged hnone).2, hsend _ rfl,
    (hoverload overload rfl rfl).trans (by rw [hbusy]), (hrefusal refusal rfl rfl).trans (by rw [hkey]),
    hbody empty rfl rfl rfl⟩

end Exchange

end ModelStream
