/-
Call ids are given out once. Whatever a decoder is given, payloads after the one that ended the
stream and further ends included, the ids of the calls among its events are distinct; and once a
finished item of a Responses stream has given out a call, no later call has either of the two ids the
item carries (`Decoder.call_ids_distinct`).

For the second part the events of a Responses stream are cut into turns: what one payload gives out,
what one item of the closing response gives out, and what the end gives out. Each turn records the ids
of its item on the call board (`Responses.Turn.Lawful`), and a recorded id is not given out any more.
-/
import ModelStream.Proofs.Decoder.Moves
import ModelStream.Proofs.Responses.Quiet

namespace ModelStream

/-- What a decoder is given: a payload, or the end of the stream. -/
inductive Input
  | payload (text : String)
  | finish

/-! ## All backends -/

namespace Decoder

def take (d : Decoder) : Input → List Event × Decoder
  | .payload text => ((d.step text).events, (d.step text).state)
  | .finish => d.finish

/-- The events of these inputs, taken in turn. -/
def drive (d : Decoder) : List Input → List Event × Decoder
  | [] => ([], d)
  | input :: more =>
    let (events, d) := d.take input
    let (later, d) := d.drive more
    (events ++ later, d)

theorem take_gives (d : Decoder) (input : Input) :
    d.boards.calls.Gives (toolCalls (d.take input).1) (d.take input).2.boards.calls := by
  cases input with
  | payload text => exact (d.step_moves text).gives
  | finish =>
    obtain ⟨events, b, hmoves, hevents, hboards⟩ := d.finish_moves
    show d.boards.calls.Gives (toolCalls d.finish.1) d.finish.2.boards.calls
    rw [hevents, hboards, toolCalls_append]
    exact hmoves.gives.trans b.finish_gives

theorem drive_gives (inputs : List Input) (d : Decoder) :
    d.boards.calls.Gives (toolCalls (d.drive inputs).1) (d.drive inputs).2.boards.calls := by
  induction inputs generalizing d with
  | nil => exact .nothing fun _ hid => hid
  | cons input more ih =>
    show d.boards.calls.Gives (toolCalls ((d.take input).1 ++ ((d.take input).2.drive more).1)) _
    rw [toolCalls_append]
    exact (take_gives d input).trans (ih _)

end Decoder

/-! ## Turns of a Responses stream -/

namespace Responses

/-- The call that a signal says is complete. -/
def Signal.completes : Signal → Option CallItem
  | .argumentsDone target arguments =>
    some { id := target.itemId, callId := target.callId, name := arguments.name
           arguments := arguments.text.getD "" }
  | .itemDone _ item => callOf item
  | _ => none

/-- What is given out at one time, and the finished call it comes from. -/
structure Turn where
  item : Option CallItem := none
  events : List Event

namespace Decoder

def rescanTurns (d : Decoder) : Nat → List Json → List Turn
  | _, [] => []
  | position, item :: more =>
    { item := callOf item, events := (d.rescanItem position item).1 } ::
      (d.rescanItem position item).2.rescanTurns (position + 1) more

/-- The turns of one input: a payload is one turn; the end is one for each item of the closing
response, and one for what is open then. -/
def turnsOf (d : Decoder) : Input → List Turn
  | .payload text =>
    [{ item := (Signal.ofText text).toOption.bind (·.2.completes), events := (d.step text).events }]
  | .finish =>
    (d.last.elim [] fun response => (d.reopen response).rescanTurns 0 response.output) ++
      [{ events := d.rescan.2.boards.finish.1 }]

def after (d : Decoder) : Input → Decoder
  | .payload text => (d.step text).state
  | .finish => d.finish.2

def turns (d : Decoder) : List Input → List Turn
  | [] => []
  | input :: more => d.turnsOf input ++ (d.after input).turns more

theorem rescanTurns_events (items : List Json) (d : Decoder) (position : Nat) :
    (d.rescanTurns position items).flatMap (·.events) = (d.rescanItems position items).1 := by
  induction items generalizing d position with
  | nil => rfl
  | cons item more ih =>
    rw [rescanTurns, List.flatMap_cons, ih]
    rfl

theorem turnsOf_events (d : Decoder) (input : Input) :
    (d.turnsOf input).flatMap (·.events) = ((ModelStream.Decoder.responses d).take input).1 := by
  cases input with
  | payload text => exact List.append_nil _
  | finish =>
    have hfound : (d.last.elim [] fun response => (d.reopen response).rescanTurns 0 response.output).flatMap
        (·.events) = d.rescan.1 := by
      unfold rescan
      cases d.last with
      | none => rfl
      | some response => exact rescanTurns_events _ _ _
    rw [turnsOf, List.flatMap_append, hfound]
    exact congrArg (d.rescan.1 ++ ·) (List.append_nil _)

/-- The turns hold all events, in order. -/
theorem turns_events (inputs : List Input) (d : Decoder) :
    (d.turns inputs).flatMap (·.events) = ((ModelStream.Decoder.responses d).drive inputs).1 := by
  induction inputs generalizing d with
  | nil => rfl
  | cons input more ih =>
    have hafter : ((ModelStream.Decoder.responses d).take input).2 = .responses (d.after input) := by
      cases input <;> rfl
    rw [turns, List.flatMap_append, turnsOf_events, ih, ← hafter]
    rfl

end Decoder

/-! ## What a turn records -/

/-- A turn gives out new ids; if its item gives out a call, that is the last one of the turn, and the
ids of the item are recorded. -/
structure Turn.Lawful (b : CallBoard) (t : Turn) (c : CallBoard) : Prop where
  gives : b.Gives (toolCalls t.events) c
  records : ∀ item told call rest, t.item = some item → t.events = told ++ .toolCall call :: rest →
    toolCalls rest = [] ∧ ∀ id, item.Carries id → id ∈ c.given

/-- One turn after the other. -/
inductive Course : CallBoard → List Turn → CallBoard → Prop
  | nil (b : CallBoard) : Course b [] b
  | cons {b c d : CallBoard} {t : Turn} {more : List Turn} (h : t.Lawful b c) (k : Course c more d) :
    Course b (t :: more) d

namespace Course

theorem append {b c d : CallBoard} {turns more : List Turn} (h : Course b turns c) (k : Course c more d) :
    Course b (turns ++ more) d := by
  induction h with
  | nil => exact k
  | cons lawful _ ih => exact .cons lawful (ih k)

theorem gives {b c : CallBoard} {turns : List Turn} (h : Course b turns c) :
    b.Gives (toolCalls (turns.flatMap (·.events))) c := by
  induction h with
  | nil => exact .nothing fun _ hid => hid
  | cons lawful _ ih =>
    rw [List.flatMap_cons, toolCalls_append]
    exact lawful.gives.trans ih

theorem split {t : Turn} {after : List Turn} : ∀ {before : List Turn} {b e : CallBoard},
    Course b (before ++ t :: after) e → ∃ c d, t.Lawful c d ∧ Course d after e
  | [], _, _, .cons lawful rest => ⟨_, _, lawful, rest⟩
  | _ :: _, _, _, .cons _ rest => rest.split

end Course

/-- A turn without an item has nothing to record. -/
theorem Turn.lawful_of_gives {b c : CallBoard} {t : Turn} (h : b.Gives (toolCalls t.events) c)
    (hitem : t.item = none) : t.Lawful b c := by
  refine ⟨h, fun item _ _ _ hsome => ?_⟩
  rw [hitem] at hsome
  cases hsome

namespace Decoder

/-- Completing a call gives out nothing, or that one call with the ids of the item recorded. -/
theorem completeCall_cases (d : Decoder) (key : CallKey) (c : CallItem) :
    (d.completeCall key c).1 = [] ∨ ∃ call, (d.completeCall key c).1 = [.toolCall call] ∧
      ∀ id, c.Carries id → id ∈ (d.completeCall key c).2.calls.given := by
  unfold completeCall
  split
  · exact .inl rfl
  · split
    · next call calls _ =>
      refine .inr ⟨call, rfl, fun id hid => ?_⟩
      exact CallBoard.foldl_mark_given _ calls (.inl (CallItem.carries_iff.1 hid))
    · exact .inl rfl

/-- A turn that completes the call of its item is lawful. -/
theorem completeCall_lawful (d : Decoder) (key : CallKey) (c : CallItem) :
    Turn.Lawful d.calls { item := some c, events := (d.completeCall key c).1 } (d.completeCall key c).2.calls := by
  refine ⟨(completeCall_moves d key c).gives, ?_⟩
  rintro other told call rest hother hevents
  cases hother
  rcases completeCall_cases d key c with hnone | ⟨only, hone, hids⟩
  · rw [hnone] at hevents
    simp at hevents
  · rw [hone] at hevents
    cases told with
    | nil =>
      cases hevents
      exact ⟨rfl, hids⟩
    | cons e told => simp at hevents

/-- The key of the call that a signal says is complete, and what the signal says of the call. -/
def completion (d : Decoder) : Signal → Option (CallKey × CallItem)
  | .argumentsDone target arguments =>
    some (d.callKey target, { id := target.itemId, callId := target.callId, name := arguments.name
                              arguments := arguments.text.getD "" })
  | .itemDone index item => (callOf item).map (.index index, ·)
  | _ => none

theorem completion_completes (d : Decoder) (signal : Signal) : (d.completion signal).map (·.2) = signal.completes := by
  cases signal with
  | itemDone index item => simp [completion, Signal.completes, Function.comp_def]
  | _ => rfl

theorem completion_itemDone (d : Decoder) (index : Nat) {item : Json} {c : CallItem} (h : callOf item = some c) :
    d.completion (.itemDone index item) = some (.index index, c) := by
  rw [completion, h, Option.map_some]

theorem apply_completion {d : Decoder} {signal : Signal} {key : CallKey} {c : CallItem}
    (h : d.completion signal = some (key, c)) (raw : Json) :
    (d.apply raw signal).events = (d.completeCall key c).1 ∧ (d.apply raw signal).state = (d.completeCall key c).2 := by
  cases signal with
  | argumentsDone target arguments =>
    cases h
    exact ⟨rfl, rfl⟩
  | itemDone index item =>
    obtain ⟨call, hcall, hpair⟩ := Option.map_eq_some_iff.1 h
    cases hpair
    have hfinish : d.finishItem index item = d.completeCall (.index index) c := by
      simp only [finishItem, callOf_eq_some.1 hcall]
    simp only [apply, hfinish]
    exact ⟨trivial, trivial⟩
  | _ => cases h

/-- A signal that says a call is complete completes it, under some key. -/
theorem apply_completes (d : Decoder) (raw : Json) {signal : Signal} {c : CallItem} (h : signal.completes = some c) :
    ∃ key, (d.apply raw signal).events = (d.completeCall key c).1 ∧
      (d.apply raw signal).state = (d.completeCall key c).2 := by
  rw [← d.completion_completes] at h
  obtain ⟨⟨key, other⟩, hcompletion, rfl⟩ := Option.map_eq_some_iff.1 h
  exact ⟨key, apply_completion hcompletion raw⟩

theorem apply_lawful (d : Decoder) (raw : Json) (signal : Signal) :
    Turn.Lawful d.calls { item := signal.completes, events := (d.apply raw signal).events }
      (d.apply raw signal).state.calls := by
  -- only a signal that completes a call has something to record
  cases h : signal.completes with
  | none => exact Turn.lawful_of_gives (apply_moves d raw signal).gives rfl
  | some c =>
    obtain ⟨key, hevents, hstate⟩ := d.apply_completes raw h
    rw [hevents, hstate]
    exact completeCall_lawful d key c

theorem step_lawful (d : Decoder) (payload : String) :
    Turn.Lawful d.calls
      { item := (Signal.ofText payload).toOption.bind (·.2.completes), events := (d.step payload).events }
      (d.step payload).state.calls := by
  unfold step
  cases Signal.ofText payload with
  | error problem => exact Turn.lawful_of_gives (.nothing fun _ hid => hid) rfl
  | ok read => exact apply_lawful d read.1 read.2

theorem rescanItem_lawful (d : Decoder) (position : Nat) (item : Json) :
    Turn.Lawful d.calls { item := callOf item, events := (d.rescanItem position item).1 }
      (d.rescanItem position item).2.calls := by
  have hgives := (rescanItem_moves d position item).gives
  unfold callOf rescanItem at *
  cases h : Item.ofValue item with
  | error problem => simp only [h] at hgives; exact Turn.lawful_of_gives hgives rfl
  | ok parsed =>
    cases parsed with
    | call c =>
      have silent : Turn.Lawful d.calls { item := some c, events := [] } d.calls :=
        ⟨.nothing fun _ hid => hid, by simp⟩
      simp only
      split
      · exact silent
      · cases c.callId <|> c.id with
        | none => exact silent
        | some id => exact completeCall_lawful d _ c
    | reasoning id summary => simp only [h] at hgives; exact Turn.lawful_of_gives hgives rfl
    | other => simp only [h] at hgives; exact Turn.lawful_of_gives hgives rfl

/-! ## A whole stream -/

theorem rescanTurns_course (items : List Json) (d : Decoder) (position : Nat) :
    Course d.calls (d.rescanTurns position items) (d.rescanItems position items).2.calls := by
  induction items generalizing d position with
  | nil => exact .nil _
  | cons item more ih => exact .cons (rescanItem_lawful d position item) (ih _ _)

theorem turnsOf_course (d : Decoder) (input : Input) : Course d.calls (d.turnsOf input) (d.after input).calls := by
  cases input with
  | payload text => exact .cons (step_lawful d text) (.nil _)
  | finish =>
    have hend : Course d.rescan.2.calls [{ events := d.rescan.2.boards.finish.1 }] d.finish.2.calls :=
      .cons (Turn.lawful_of_gives d.rescan.2.boards.finish_gives rfl) (.nil _)
    refine Course.append ?_ hend
    unfold rescan
    cases d.last with
    | none => exact .nil _
    | some response => exact rescanTurns_course response.output (d.reopen response) 0

theorem turns_course (inputs : List Input) (d : Decoder) : ∃ b, Course d.calls (d.turns inputs) b := by
  induction inputs generalizing d with
  | nil => exact ⟨_, .nil _⟩
  | cons input more ih =>
    obtain ⟨b, hmore⟩ := ih (d.after input)
    exact ⟨b, (turnsOf_course d input).append hmore⟩

end Decoder

end Responses

/-! ## Distinct ids -/

namespace Decoder

/-- The calls of a stream have distinct ids, whatever the backend and the inputs; and after a call that
a finished item of a Responses stream has given out, no call has the item's own id or its call id. -/
theorem call_ids_distinct :
    (∀ (d : Decoder) (inputs : List Input), ((toolCalls (d.drive inputs).1).map (·.id)).Nodup) ∧
    ∀ (d : Responses.Decoder) (inputs : List Input),
      (d.turns inputs).flatMap (·.events) = ((Decoder.responses d).drive inputs).1 ∧
      ∀ before t after item told call rest, d.turns inputs = before ++ t :: after → t.item = some item →
        t.events = told ++ .toolCall call :: rest →
        ∀ later ∈ toolCalls (rest ++ after.flatMap (·.events)), ¬ item.Carries later.id := by
  refine ⟨fun d inputs => (drive_gives inputs d).distinct, fun d inputs => ⟨d.turns_events inputs, ?_⟩⟩
  intro before t after item told call rest hturns hitem hevents later hlater hid
  -- the turn records the ids of its item, and what is recorded is not given out afterwards
  obtain ⟨b, hcourse⟩ := d.turns_course inputs
  rw [hturns] at hcourse
  obtain ⟨c, e, hlawful, hafter⟩ := hcourse.split
  obtain ⟨hrest, hrecorded⟩ := hlawful.records item told call rest hitem hevents
  rw [toolCalls_append, hrest, List.nil_append] at hlater
  exact hafter.gives.fresh later hlater (hrecorded later.id hid)

/-- A call that is complete under both its ids, and then an item whose call id is the first one's own id. -/
theorem call_ids_distinct_own_id :
    let done := "\x7b\"type\": \"response.function_call_arguments.done\",
      \"item_id\": \"fc\", \"call_id\": \"c\", \"name\": \"f\"\x7d"
    let again := "\x7b\"type\": \"response.output_item.done\", \"output_index\": 1, \"item\":
      \x7b\"type\": \"function_call\", \"call_id\": \"fc\", \"name\": \"f\"\x7d\x7d"
    let item : Responses.CallItem := { id := some "fc", callId := some "c", name := some "f" }
    let call : ToolCall := { id := "c", name := "f", arguments := .obj [], rawArguments := "" }
    let after := (({} : Responses.Decoder).step done).state.turns [.payload again, .finish]
    ({} : Responses.Decoder).turns [.payload done, .payload again, .finish] =
        [] ++ { item := some item, events := [] ++ .toolCall call :: [] } :: after ∧
      ∀ later ∈ toolCalls ([] ++ after.flatMap (·.events)), ¬ item.Carries later.id := by
  intro done again item call after
  have hitem : (Responses.Signal.ofText done).toOption.bind (·.2.completes) = some item := by decide +kernel
  obtain ⟨⟨raw, signal⟩, hmem, hsignal⟩ := Option.bind_eq_some_iff.1 hitem
  have hread := Responses.Signal.ofText_of_mem hmem
  -- on an empty board the item alone decides what is given out, under whatever key
  have hevents : (({} : Responses.Decoder).step done).events = [] ++ .toolCall call :: [] := by
    obtain ⟨key, hevents, -⟩ := ({} : Responses.Decoder).apply_completes raw hsignal
    have hdraft : (({} : CallBoard).update key item.fill).get? key = some { id := some "c", name := some "f" } :=
      CallBoard.get?_update_self ..
    have hname : nonEmpty (some "f") = some "f" := rfl
    have hcomplete := CallBoard.complete_of_get? hdraft (by simp) hname
    simp only [Responses.Decoder.step, hread, hevents, Responses.Decoder.completeCall, hcomplete]
    rfl
  have hturns : ({} : Responses.Decoder).turns [.payload done, .payload again, .finish] =
      [] ++ { item := some item, events := [] ++ .toolCall call :: [] } :: after := by
    rw [Responses.Decoder.turns, Responses.Decoder.turnsOf, hitem, hevents]
    rfl
  exact ⟨hturns, (call_ids_distinct.2 {} [.payload done, .payload again, .finish]).2 [] _ after item [] call []
    hturns rfl rfl⟩

end Decoder

end ModelStream
