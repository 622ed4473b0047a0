/-
Announced calls are delivered exactly once. Take calls with identifiers of their own, and a stream that
announces each of them, then sends its arguments in pieces that name it by any of its identifiers, then
says any number of times that it is complete, all of this interleaved in any order with the other calls
and with payloads that have nothing to do with calls. However the stream then ends, the calls given out
are the announced ones, each once and with all its arguments (`announced_given_once`).

A stream is told payload by payload (`Story`); the stage of a call after a part of the story decides
what may still be reported of it (`Expects`), and a payload moves the stage of at most one call.
-/
import ModelStream.Proofs.Responses.Follows
import ModelStream.Proofs.Session.Terminal

namespace ModelStream.Responses

/-! ## Stories -/

inductive Report
  | announced
  /-- The next piece of its arguments. -/
  | fragment (text : String)
  | completed

def Announced.Tells (a : Announced) : Signal → Report → Prop
  | .itemAdded n item, .announced => n = a.index ∧ callOf item = some (a.item "")
  | .argumentsDelta target fragment, .fragment text => a.Names target ∧ fragment = text
  | .argumentsDone target arguments, .completed =>
    a.Names target ∧ target.itemId = some a.itemId ∧ ∀ text ∈ arguments.text, text = "" ∨ text = a.arguments
  | .itemDone n item, .completed => n = a.index ∧ ∃ c ∈ callOf item, a.Describes c
  | _, _ => False

instance (a : Announced) : ∀ signal report, Decidable (a.Tells signal report)
  | .itemAdded .., .announced | .argumentsDelta .., .fragment _ => inferInstanceAs (Decidable (_ ∧ _))
  | .argumentsDone .., .completed => inferInstanceAs (Decidable (_ ∧ _ ∧ _))
  | .itemDone .., .completed => inferInstanceAs (Decidable (_ ∧ _))
  | .itemAdded .., .fragment _ | .itemAdded .., .completed | .argumentsDelta .., .announced
  | .argumentsDelta .., .completed | .argumentsDone .., .announced | .argumentsDone .., .fragment _
  | .itemDone .., .announced | .itemDone .., .fragment _ => isFalse id
  | .started _, _ | .textDelta _, _ | .note, _ | .reasoningDelta .., _ | .ended .., _ | .error .., _
  | .idle, _ => isFalse id

/-- A payload, and what it reports of which call. -/
structure Telling where
  payload : String
  about : Option (Announced × Report) := none

namespace Telling

/-- The payload reports what it is told to, and one that reports nothing has nothing to do with calls. -/
def Faithful (t : Telling) : Prop :=
  match t.about with
  | none => ∀ read ∈ (Signal.ofText t.payload).toOption, read.2.Apart
  | some (a, report) => ∃ read ∈ (Signal.ofText t.payload).toOption, a.Tells read.2 report

instance (t : Telling) : Decidable t.Faithful :=
  match t with
  | { about := none, .. } => inferInstanceAs (Decidable (∀ read ∈ _, _))
  | { about := some _, .. } => inferInstanceAs (Decidable (∃ read ∈ _, _))

def frame (t : Telling) : Frame := .data t.payload

def report? (a : Announced) (t : Telling) : Option Report :=
  t.about.bind fun (b, report) => if b = a then some report else none

end Telling

/-- The payloads of a stream. Of every call they report first that it is announced, then its arguments
in pieces, and then any number of times that it is complete; how the reports of several calls and other
payloads lie between each other is left open. -/
structure Story (calls : List Announced) (story : List Telling) : Prop where
  faithful : ∀ t ∈ story, t.Faithful
  known : ∀ t ∈ story, ∀ about ∈ t.about, about.1 ∈ calls
  reports : ∀ a ∈ calls, ∃ fragments n, String.join fragments = a.arguments ∧
    story.filterMap (Telling.report? a) =
      .announced :: (fragments.map .fragment ++ List.replicate n .completed)

/-- Ends the stream by a response that lists some of the calls. -/
def Signal.Closes (calls : List Announced) : Signal → Prop
  | .ended _ response => Lists calls response
  | _ => False

instance (calls : List Announced) : ∀ signal : Signal, Decidable (signal.Closes calls)
  | .ended _ response => inferInstanceAs (Decidable (Lists calls response))
  | .started _ | .itemAdded .. | .itemDone .. | .textDelta _ | .note | .argumentsDelta .. | .argumentsDone ..
  | .reasoningDelta .. | .error .. | .idle => isFalse id

/-- How the frames go on after a story: the input ends, the stream says that it is done, or it ends by a
closing response. -/
def Ends (calls : List Announced) : List Frame → Prop
  | [] | .done :: _ => True
  | .data payload :: _ => ∃ read ∈ (Signal.ofText payload).toOption, read.2.Closes calls

instance (calls : List Announced) : ∀ tail, Decidable (Ends calls tail)
  | [] | .done :: _ => isTrue trivial
  | .data _ :: _ => inferInstanceAs (Decidable (∃ read ∈ _, _))

/-! ## What a stage expects -/

/-- What may still be reported of a call at a stage. -/
inductive Expects (a : Announced) : Stage → List Report → Prop
  | announced {more : List Report} (h : Expects a (.active "") more) : Expects a .waiting (.announced :: more)
  | fragment {text fragment : String} {more : List Report} (h : Expects a (.active (text ++ fragment)) more) :
    Expects a (.active text) (.fragment fragment :: more)
  | completed {more : List Report} (h : Expects a .given more) : Expects a (.active a.arguments) (.completed :: more)
  | again {more : List Report} (h : Expects a .given more) : Expects a .given (.completed :: more)
  | unfinished : Expects a (.active a.arguments) []
  | finished : Expects a .given []

theorem expects_given (a : Announced) (n : Nat) : Expects a .given (List.replicate n .completed) := by
  induction n with
  | zero => exact .finished
  | succ n ih => exact .again ih

theorem expects_active {a : Announced} (fragments : List String) {text : String} (n : Nat)
    (h : fragments.foldl (· ++ ·) text = a.arguments) :
    Expects a (.active text) (fragments.map .fragment ++ List.replicate n .completed) := by
  induction fragments generalizing text with
  | nil =>
    cases (show text = a.arguments from h)
    cases n with
    | zero => exact .unfinished
    | succ n => exact .completed (expects_given a n)
  | cons fragment fragments ih => exact .fragment (ih h)

theorem Story.expects {calls : List Announced} {story : List Telling} (h : Story calls story) {a : Announced}
    (ha : a ∈ calls) : Expects a .waiting (story.filterMap (Telling.report? a)) := by
  obtain ⟨fragments, n, hjoin, hreports⟩ := h.reports a ha
  rw [hreports]
  exact .announced (expects_active fragments n hjoin)

theorem Expects.settled {a : Announced} {stage : Stage} (h : Expects a stage []) : stage.Settled a := by
  cases h with
  | unfinished => exact .inl rfl
  | finished => exact .inr rfl

/-! ## One payload -/

namespace Follows

variable {calls given : List Announced} {stages : Stages} {d : Decoder} {a : Announced}

/-- A report that a call is complete gives it out, if that has not been done. -/
theorem completion (h : Follows calls stages given d) (hd : Announced.Distinct calls) (ha : a ∈ calls)
    (hs : (stages a).Settled a) {signal : Signal} (htells : a.Tells signal .completed)
    (raw : Json) :
    (d.apply raw signal).flow = .more ∧ ∃ more,
      toolCalls (d.apply raw signal).events = more.map Announced.call ∧
      Follows calls (stages.set a .given) (given ++ more) (d.apply raw signal).state := by
  cases signal with
  | argumentsDone target arguments =>
    obtain ⟨hnames, hid, harg⟩ := htells
    have hwait : stages a ≠ .waiting := by
      rcases hs with hs | hs
      · exact Stage.ne_waiting_of_active hs
      · simp [hs]
    have hkey := h.callKey_of_known ha hwait hnames (.inr (by rw [hid]; rfl))
    have hdescribes : a.Describes { id := target.itemId, callId := target.callId, name := arguments.name
                                    arguments := arguments.text.getD "" } := by
      refine ⟨hid, hnames.callId, ?_⟩
      cases htext : arguments.text with
      | none => exact .inl rfl
      | some text => exact harg text htext
    have hcomplete := h.completeCall hd ha hs hdescribes
    simp only [Decoder.apply, hkey]
    exact ⟨trivial, hcomplete⟩
  | itemDone n item =>
    obtain ⟨rfl, c, hitem, hc⟩ := htells
    have hcomplete := h.completeCall hd ha hs hc
    have hfinish : d.finishItem a.index item = d.completeCall (.index a.index) c := by
      simp only [Decoder.finishItem, callOf_eq_some.1 hitem]
    simp only [Decoder.apply, hfinish]
    exact ⟨trivial, hcomplete⟩
  | _ => exact htells.elim

/-- What is reported of a call moves that call on, and no other. -/
theorem report (h : Follows calls stages given d) (hd : Announced.Distinct calls) (ha : a ∈ calls) {report : Report}
    {rest : List Report} (hexp : Expects a (stages a) (report :: rest)) {signal : Signal}
    (htells : a.Tells signal report) (raw : Json) :
    (d.apply raw signal).flow = .more ∧ ∃ stage more, Expects a stage rest ∧
      toolCalls (d.apply raw signal).events = more.map Announced.call ∧
      Follows calls (stages.set a stage) (given ++ more) (d.apply raw signal).state := by
  generalize hs : stages a = stage at hexp
  -- the stage decides which report may come, and the report which signals may carry it
  cases hexp with
  | announced hrest =>
    cases signal with
    | itemAdded n item =>
      obtain ⟨rfl, hitem⟩ := htells
      refine ⟨rfl, _, [], hrest, rfl, ?_⟩
      rw [List.append_nil]
      exact h.announce hd ha hs hitem
    | _ => exact htells.elim
  | fragment hrest =>
    cases signal with
    | argumentsDelta target text =>
      obtain ⟨hnames, rfl⟩ := htells
      refine ⟨rfl, _, [], hrest, rfl, ?_⟩
      rw [List.append_nil]
      exact h.grow hd ha hs hnames text raw
    | _ => exact htells.elim
  | completed hrest =>
    obtain ⟨hflow, more, hmore⟩ := h.completion hd ha (.inl hs) htells raw
    exact ⟨hflow, _, more, hrest, hmore⟩
  | again hrest =>
    obtain ⟨hflow, more, hmore⟩ := h.completion hd ha (.inr hs) htells raw
    exact ⟨hflow, _, more, hrest, hmore⟩

/-- After one payload of a story every call has ahead of it what its stage expects. -/
theorem telling (h : Follows calls stages given d) (hd : Announced.Distinct calls) {t : Telling}
    {story : List Telling} (hfaithful : t.Faithful) (hknown : ∀ about ∈ t.about, about.1 ∈ calls)
    (hexp : ∀ a ∈ calls, Expects a (stages a) ((t :: story).filterMap (Telling.report? a))) :
    (d.step t.payload).flow = .more ∧ ∃ after more,
      toolCalls (d.step t.payload).events = more.map Announced.call ∧
      Follows calls after (given ++ more) (d.step t.payload).state ∧
      ∀ a ∈ calls, Expects a (after a) (story.filterMap (Telling.report? a)) := by
  unfold Telling.Faithful at hfaithful
  -- a payload that reports nothing moves no call, any other moves its own
  cases habout : t.about with
  | none =>
    rw [habout] at hfaithful
    obtain ⟨hquiet, hflow⟩ := d.step_quiet hfaithful
    refine ⟨hflow, stages, [], hquiet.silent, by rw [List.append_nil]; exact h.quiet hquiet, fun a ha => ?_⟩
    have hnone : Telling.report? a t = none := by simp [Telling.report?, habout]
    simpa [List.filterMap_cons, hnone] using hexp a ha
  | some told =>
    obtain ⟨a, report⟩ := told
    rw [habout] at hfaithful
    obtain ⟨⟨raw, signal⟩, hmem, htells⟩ := hfaithful
    have hread := Signal.ofText_of_mem hmem
    have ha : a ∈ calls := hknown (a, report) habout
    have hself : Telling.report? a t = some report := by simp [Telling.report?, habout]
    have hnext := hexp a ha
    rw [List.filterMap_cons, hself] at hnext
    obtain ⟨hflow, stage, more, hrest, hmore, hfollows⟩ := h.report hd ha hnext htells raw
    have hstep : d.step t.payload = d.apply raw signal := by simp only [Decoder.step, hread]
    rw [hstep]
    refine ⟨hflow, _, more, hmore, hfollows, fun b hb => ?_⟩
    by_cases hba : b = a
    · rw [hba, Stages.set_self]
      exact hrest
    · have hother : Telling.report? b t = none := by simp [Telling.report?, habout, Ne.symm hba]
      rw [Stages.set_of_ne stages hba]
      simpa [List.filterMap_cons, hother] using hexp b hb

end Follows

/-! ## A whole stream -/

/-- A session under way whose decoder follows the calls; the calls it has queued are those given out. -/
structure Underway (calls : List Announced) (stages : Stages) (given : List Announced) (d : Decoder)
    (s : Session) : Prop where
  reading : s.Reading
  decoder : s.decoder = .responses d
  follows : Follows calls stages given d
  queue : toolCalls s.queue = given.map Announced.call

namespace Underway

variable {calls given : List Announced} {stages : Stages} {d : Decoder} {s : Session}

theorem start (calls : List Announced) :
    Underway calls (fun _ => .waiting) [] {} { decoder := .responses {} } where
  reading := Session.reading_of_create (show ModelStream.Decoder.create .responses [] = .ok (.responses {}) from rfl)
  decoder := rfl
  follows := .start
  queue := rfl

/-- A story is decoded to its end, and every call is settled then. -/
theorem decode (story : List Telling) (h : Underway calls stages given d s) (hd : Announced.Distinct calls)
    (hfaithful : ∀ t ∈ story, t.Faithful) (hknown : ∀ t ∈ story, ∀ about ∈ t.about, about.1 ∈ calls)
    (hexp : ∀ a ∈ calls, Expects a (stages a) (story.filterMap (Telling.report? a))) (tail : List Frame) :
    ∃ after given d e, s.decode (story.map Telling.frame ++ tail) = e.decode tail ∧
      Underway calls after given d e ∧ after.Settled calls := by
  induction story generalizing stages given d s with
  | nil => exact ⟨stages, given, d, s, rfl, h, fun a ha => (hexp a ha).settled⟩
  | cons t story ih =>
    obtain ⟨hflow, after, more, hmore, hfollows, hrest⟩ :=
      h.follows.telling hd (hfaithful t (List.mem_cons_self ..)) (hknown t (List.mem_cons_self ..)) hexp
    obtain ⟨events, hqueue, -, hreading⟩ := Session.advance_queue h.reading t.payload
    have hnext : Underway calls after (given ++ more) (d.step t.payload).state (s.advance t.payload) := by
      refine ⟨hreading, ?_, hfollows, ?_⟩
      · show (s.decoder.step t.payload).state = _
        rw [h.decoder]
        rfl
      · show toolCalls (s.queue ++ (s.decoder.step t.payload).events) = _
        rw [toolCalls_append, h.queue, h.decoder, List.map_append]
        exact congrArg (_ ++ ·) hmore
    have hgo : (s.decoder.step t.payload).flow = .more := by
      rw [h.decoder]
      exact hflow
    rw [List.map_cons, List.cons_append, Telling.frame, Session.decode_data_more hgo]
    exact ih hnext (fun t ht => hfaithful t (List.mem_cons_of_mem _ ht))
      (fun t ht => hknown t (List.mem_cons_of_mem _ ht)) hrest

theorem close (h : Underway calls stages given d s) (hd : Announced.Distinct calls)
    (hsettled : stages.Settled calls) :
    (toolCalls s.close.queue).Perm (calls.map Announced.call) := by
  have hopen : d.closing.finished = false := by
    have hdecoder := h.reading.decoder
    rw [h.decoder] at hdecoder
    exact hdecoder
  obtain ⟨more, hmore, hperm⟩ := h.follows.finish hd hsettled hopen
  have hclose : toolCalls s.close.queue = (given ++ more).map Announced.call := by
    show toolCalls (s.queue ++ s.decoder.finish.1) = _
    rw [toolCalls_append, h.queue, h.decoder, List.map_append]
    exact congrArg (_ ++ ·) hmore
  rw [hclose]
  exact hperm.map _

/-- So does a closing response. -/
theorem advance_close (h : Underway calls stages given d s) (hd : Announced.Distinct calls)
    (hsettled : stages.Settled calls) {payload : String} {raw : Json} {outcome : Outcome} {response : Response}
    (hread : Signal.ofText payload = .ok (raw, .ended outcome response)) (hlists : Lists calls response) :
    (toolCalls (s.advance payload).close.queue).Perm (calls.map Announced.call) := by
  have hstep : d.step payload = { state := (d.close outcome response).2, events := (d.close outcome response).1
                                  flow := .finish } := by
    simp only [Decoder.step, hread]
    rfl
  have hopen : (d.close outcome response).2.closing.finished = false := by
    obtain ⟨-, -, -, hreading⟩ := Session.advance_queue h.reading payload
    have hdecoder : (s.decoder.step payload).state.boards.closing.finished = false := hreading.decoder
    rw [h.decoder] at hdecoder
    rw [← hdecoder, show ((ModelStream.Decoder.responses d).step payload).state = .responses (d.step payload).state
      from rfl, hstep]
    rfl
  obtain ⟨more, hmore, hperm⟩ := h.follows.finish_close hd hsettled outcome hlists hopen
  have hclose : toolCalls (s.advance payload).close.queue = (given ++ more).map Announced.call := by
    show toolCalls (s.queue ++ (s.decoder.step payload).events ++ (s.decoder.step payload).state.finish.1) = _
    rw [toolCalls_append, toolCalls_append, h.queue, h.decoder, List.map_append]
    show _ ++ toolCalls (d.step payload).events ++ toolCalls (d.step payload).state.finish.1 = _
    rw [hstep, (d.close_calls outcome response).1, List.append_nil, hmore]
  rw [hclose]
  exact hperm.map _

end Underway

/-- Whatever the order in which announced calls are reported, whichever identifiers the reports name
them by, and however the stream ends: the calls given out are those announced, each exactly once, under
its call id and with its name and all its arguments. -/
theorem announced_given_once {calls : List Announced} (hd : Announced.Distinct calls) {story : List Telling}
    (hstory : Story calls story) {tail : List Frame} (htail : Ends calls tail) :
    (toolCalls (({ decoder := .responses {} } : Session).decode
      (story.map Telling.frame ++ tail)).endOfInput.queue).Perm (calls.map Announced.call) := by
  obtain ⟨after, given, d, s, hdecode, hunder, hsettled⟩ :=
    (Underway.start calls).decode story hd hstory.faithful hstory.known (fun a => hstory.expects) tail
  rw [hdecode]
  match tail, htail with
  | [], _ =>
    rw [Session.decode_nil, Session.endOfInput_of_reading hunder.reading.session]
    exact hunder.close hd hsettled
  | .done :: more, _ =>
    rw [Session.decode_done, Session.endOfInput_of_finished (Session.close_finished _)]
    exact hunder.close hd hsettled
  | .data payload :: more, ⟨(raw, signal), hmem, hcloses⟩ =>
    cases signal with
    | ended outcome response =>
      have hread := Signal.ofText_of_mem hmem
      have hflow : (s.decoder.step payload).flow = .finish := by
        rw [hunder.decoder]
        show (d.step payload).flow = .finish
        simp only [Decoder.step, hread]
        rfl
      rw [Session.decode_data_finish hflow, Session.endOfInput_of_finished (Session.close_finished _)]
      exact hunder.advance_close hd hsettled hread hcloses
    | _ => exact hcloses.elim

/-- Two calls, one of them without arguments; the stream completes that one itself, and leaves the other
to the closing response. -/
theorem announced_given_once_two :
    let sum : Announced := { index := 0, itemId := "fc_1", callId := "call_1", name := "sum", arguments := "[1]" }
    let now : Announced := { index := 1, itemId := "fc_2", callId := "call_2", name := "now", arguments := "" }
    let story : List Telling :=
      [ { payload := "\x7b\"type\": \"response.output_item.added\", \"output_index\": 0, \"item\": \x7b\"type\":
            \"function_call\", \"id\": \"fc_1\", \"call_id\": \"call_1\", \"name\": \"sum\"\x7d\x7d"
          about := some (sum, .announced) },
        { payload := "\x7b\"type\": \"response.output_item.added\", \"output_index\": 1, \"item\": \x7b\"type\":
            \"function_call\", \"id\": \"fc_2\", \"call_id\": \"call_2\", \"name\": \"now\"\x7d\x7d"
          about := some (now, .announced) },
        { payload := "\x7b\"type\": \"response.function_call_arguments.delta\", \"call_id\": \"call_1\",
            \"delta\": \"[1]\"\x7d"
          about := some (sum, .fragment "[1]") },
        { payload := "\x7b\"type\": \"response.output_text.delta\", \"delta\": \"So\"\x7d" },
        { payload := "\x7b\"type\": \"response.function_call_arguments.done\", \"item_id\": \"fc_2\"\x7d"
          about := some (now, .completed) } ]
    let tail : List Frame :=
      [ .data "\x7b\"type\": \"response.completed\", \"response\": \x7b\"output\": [\x7b\"type\":
          \"function_call\", \"id\": \"fc_1\", \"call_id\": \"call_1\", \"name\": \"sum\"\x7d]\x7d\x7d" ]
    Announced.Distinct [sum, now] ∧ Story [sum, now] story ∧ Ends [sum, now] tail ∧
      (toolCalls (({ decoder := .responses {} } : Session).decode
        (story.map Telling.frame ++ tail)).endOfInput.queue).Perm ([sum, now].map Announced.call) := by
  intro sum now story tail
  have hdistinct : Announced.Distinct [sum, now] := ⟨by decide, by decide, by decide, by decide⟩
  have hstory : Story [sum, now] story := by
    refine ⟨by decide +kernel, by decide, fun a ha => ?_⟩
    rcases List.mem_cons.1 ha with rfl | ha
    · exact ⟨["[1]"], 0, by decide, rfl⟩
    · cases List.mem_singleton.1 ha
      exact ⟨[], 1, by decide, rfl⟩
  have htail : Ends [sum, now] tail := by decide +kernel
  exact ⟨hdistinct, hstory, htail, announced_given_once hdistinct hstory htail⟩

end ModelStream.Responses
