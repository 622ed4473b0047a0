/-
Channels of chat streams. The text and the calls that a stream gives out depend on its content, joined,
and on what its fragments say of each index, and on nothing else: however both are cut and mixed, with each
other and with reasoning, usage, faults and empty chunks, two streams that agree on these give out the same
(`channels_independent`). For the text this needs tag names without the characters that delimit tags
(`channels_cut_delimiter`).

`Conveys` says what a part of a stream adds to its channels; there is one lemma for each function of the
decoder.
-/
import ModelStream.Proofs.CallBoard.Fragments
import ModelStream.Proofs.Decoder.CallIds
import ModelStream.Proofs.InlineTag.Pieces
import ModelStream.Proofs.ReasoningBoard
import ModelStream.Proofs.Transcript

namespace ModelStream.Chat

open InlineTag (Plain visible)

/-! ## What chunks say -/

/-- The fragment at an index. -/
def fragmentOf (index : Nat) (id : Option String) (function : Option FunctionDelta) : Fragment :=
  { index, id := nonEmpty id, name := nonEmpty (function.getD {}).name
    arguments := (function.getD {}).arguments.getD "" }

/-- The fragments of a list of calls, of which the first stands at `position`. -/
def fragmentsFrom : Nat → List CallDelta → List Fragment
  | _, [] => []
  | position, c :: more =>
    fragmentOf (c.index.getD position) c.id c.function :: fragmentsFrom (position + 1) more

def Delta.fragments (delta : Delta) : List Fragment :=
  fragmentsFrom 0 (delta.toolCalls.getD []) ++
    delta.functionCall.toList.map fun function => fragmentOf 0 none (some function)

/-- The finish reason says that all calls are complete. -/
def Completes (reason : Option String) : Prop := reason = some "tool_calls" ∨ reason = some "function_call"

instance (reason : Option String) : Decidable (Completes reason) := inferInstanceAs (Decidable (_ ∨ _))

def Choice.strokes (choice : Choice) : List Stroke :=
  (choice.delta.elim [] Delta.fragments).map .fragment ++ if Completes choice.finishReason then [.complete] else []

def Choice.content (choice : Choice) : String := (choice.delta.bind Delta.content).getD ""

/-- All choices of the chunks that payloads spell. -/
def choices (payloads : List String) : List Choice :=
  payloads.flatMap fun payload => (Chunk.ofText payload).toOption.elim [] fun chunk => chunk.choices.getD []

/-- The content of a stream, joined. -/
def content (payloads : List String) : String := String.join ((choices payloads).map Choice.content)

/-- The fragments of a stream and its completions, in order. -/
def strokes (payloads : List String) : List Stroke := (choices payloads).flatMap Choice.strokes

def fragments (payloads : List String) : List Fragment := (strokes payloads).filterMap Stroke.fragment?

/-! ## What a part of a stream adds to its channels -/

/-- Between the two decoders the events show what this content shows, and give out the calls of these
strokes. -/
structure Conveys (d : Decoder) (content : String) (strokes : List Stroke) (events : List Event) (after : Decoder) :
    Prop where
  tags : after.tags.tags = d.tags.tags
  settled : d.tags.Settled → after.tags.Settled
  text : ∀ more, visible (d.tags.remaining (content.toList ++ more)) =
    visibleText events ++ visible (after.tags.remaining more)
  calls : d.calls.play strokes = (toolCalls events, after.calls)

namespace Conveys

variable {d d' d'' : Decoder} {text text' : String} {strokes strokes' : List Stroke} {events events' : List Event}

theorem trans (h : Conveys d text strokes events d') (k : Conveys d' text' strokes' events' d'') :
    Conveys d (text ++ text') (strokes ++ strokes') (events ++ events') d'' where
  tags := k.tags.trans h.tags
  settled hs := k.settled (h.settled hs)
  text more := by
    rw [String.toList_append, List.append_assoc, h.text, k.text, visibleText_append, String.append_assoc]
  calls := by
    rw [CallBoard.play_append, h.calls, k.calls, toolCalls_append]

/-- Nothing is added to the channels. -/
theorem mute (htags : d'.tags = d.tags) (hcalls : d'.calls = d.calls) (hevents : ∀ e ∈ events, e.Mute) :
    Conveys d "" [] events d' where
  tags := by rw [htags]
  settled h := by rwa [htags]
  text more := by rw [visibleText_of_mute hevents, htags]; simp
  calls := by rw [toolCalls_of_mute hevents, hcalls]; rfl

/-- Nothing is added, and nothing is given out. -/
theorem still (htags : d'.tags = d.tags) (hcalls : d'.calls = d.calls) : Conveys d "" [] [] d' := by
  refine mute htags hcalls fun e he => ?_
  cases he

end Conveys

namespace Decoder

theorem think_mute (d : Decoder) (text : String) :
    (d.think text).2.tags = d.tags ∧ (d.think text).2.calls = d.calls ∧ ∀ e ∈ (d.think text).1, e.Mute := by
  rcases h : d.reasoning.push .unnamed text with ⟨event, reasoning⟩
  simp only [think, h]
  refine ⟨trivial, trivial, fun e he => ?_⟩
  cases Option.mem_toList.1 he
  rw [ReasoningBoard.push_event h]
  exact ⟨rfl, rfl⟩

theorem think?_conveys (d : Decoder) (text : Option String) :
    Conveys d "" [] (d.think? text).1 (d.think? text).2 := by
  cases text with
  | none => exact .still rfl rfl
  | some text =>
    obtain ⟨htags, hcalls, hmute⟩ := d.think_mute text
    rw [think?]
    exact .mute htags hcalls hmute

theorem tell_reasoning (d : Decoder) (text : String) (more : List InlineTag.Segment) :
    d.tell (.reasoning text :: more) =
      ((d.think text).1 ++ ((d.think text).2.tell more).1, ((d.think text).2.tell more).2) := by
  rw [tell]

theorem tell_channels (segments : List InlineTag.Segment) (d : Decoder) :
    (d.tell segments).2.tags = d.tags ∧ (d.tell segments).2.calls = d.calls ∧
      toolCalls (d.tell segments).1 = [] ∧
      visibleText (d.tell segments).1 = visible (InlineTag.marks segments) := by
  rw [InlineTag.visible_marks]
  induction segments generalizing d with
  | nil => exact ⟨rfl, rfl, rfl, rfl⟩
  | cons segment segments ih =>
    cases segment with
    | visible text =>
      obtain ⟨htags, hcalls, hsilent, htext⟩ := ih d
      refine ⟨htags, hcalls, hsilent, ?_⟩
      show visibleText (.delta text :: (d.tell segments).1) = _
      rw [visibleText_cons, htext]
      exact (String.join_cons ..).symm
    | reasoning text =>
      obtain ⟨htags, hcalls, hmute⟩ := d.think_mute text
      obtain ⟨htags', hcalls', hsilent, htext⟩ := ih (d.think text).2
      rw [tell_reasoning]
      refine ⟨htags'.trans htags, hcalls'.trans hcalls, ?_, ?_⟩
      · rw [toolCalls_append, toolCalls_of_mute hmute, hsilent, List.append_nil]
      · rw [visibleText_append, visibleText_of_mute hmute, htext]
        exact String.empty_append ..

theorem read?_conveys {d : Decoder} (hplain : Plain d.tags.tags) (content : Option String) :
    Conveys d (content.getD "") [] (d.read? content).1 (d.read? content).2 := by
  unfold read?
  split
  · next text hcontent =>
    have htext : content = some text := by
      cases content with
      | none => cases hcontent
      | some said => exact congrArg some (Option.some.inj ((Option.filter_eq_some_iff.1 hcontent).1))
    subst htext
    obtain ⟨htags, hcalls, hsilent, htext⟩ := tell_channels (d.tags.push text).1 { d with tags := (d.tags.push text).2 }
    refine ⟨?_, fun _ => ?_, fun more => ?_, ?_⟩
    · rw [htags]
      exact d.tags.push_tags text
    · rw [htags]
      exact InlineTag.Scanner.settled_push hplain text
    · rw [htags, htext, Option.getD_some, InlineTag.Scanner.remaining_push hplain, InlineTag.visible_append]
    · rw [hsilent, hcalls]
      rfl
  · next hcontent =>
    have hempty : content.getD "" = "" := by
      cases content with
      | none => rfl
      | some said => simpa [nonEmpty, Option.filter_some] using hcontent
    rw [hempty]
    exact .still rfl rfl

theorem addFragment_conveys (d : Decoder) (index : Nat) (id : Option String) (function : Option FunctionDelta) :
    Conveys d "" [.fragment (fragmentOf index id function)] [] (d.addFragment (.index index) id function) where
  tags := rfl
  settled h := h
  text _ := (String.empty_append ..).symm
  calls := rfl

theorem addFragments_conveys (deltas : List CallDelta) (d : Decoder) (position : Nat) :
    Conveys d "" ((fragmentsFrom position deltas).map .fragment) [] (d.addFragments position deltas) := by
  induction deltas generalizing d position with
  | nil => exact .still rfl rfl
  | cons c more ih =>
    exact (addFragment_conveys d (c.index.getD position) c.id c.function).trans (ih _ (position + 1))

theorem addFunction?_conveys (d : Decoder) (function : Option FunctionDelta) :
    Conveys d "" ((function.toList.map fun function => fragmentOf 0 none (some function)).map .fragment) []
      (d.addFunction? function) := by
  cases function with
  | none => exact .still rfl rfl
  | some function => exact addFragment_conveys d 0 none (some function)

theorem applyDelta_conveys {d : Decoder} (hplain : Plain d.tags.tags) (delta : Delta) :
    Conveys d (delta.content.getD "") (delta.fragments.map .fragment) (d.applyDelta delta).1 (d.applyDelta delta).2 := by
  have hfirst := think?_conveys d delta.reasoningContent
  rcases h₁ : d.think? delta.reasoningContent with ⟨first, d₁⟩
  rw [h₁] at hfirst
  have hsecond := think?_conveys d₁ delta.reasoning
  rcases h₂ : d₁.think? delta.reasoning with ⟨second, d₂⟩
  rw [h₂] at hsecond
  have hplain₂ : Plain d₂.tags.tags := by
    rw [hsecond.tags, hfirst.tags]
    exact hplain
  have hthird := read?_conveys hplain₂ delta.content
  rcases h₃ : d₂.read? delta.content with ⟨third, d₃⟩
  rw [h₃] at hthird
  have hcalls := (addFragments_conveys (delta.toolCalls.getD []) d₃ 0).trans
    (addFunction?_conveys _ delta.functionCall)
  have hall := ((hfirst.trans hsecond).trans hthird).trans hcalls
  simp only [applyDelta, h₁, h₂, h₃]
  simpa [Delta.fragments] using hall

theorem applyReason?_conveys (d : Decoder) (reason : Option String) :
    Conveys d "" (if Completes reason then [.complete] else []) (d.applyReason? reason).events
      (d.applyReason? reason).state := by
  cases reason with
  | none => exact .still rfl rfl
  | some reason =>
    have hcompletes : (reason == "tool_calls" || reason == "function_call") = true ↔ Completes (some reason) := by
      simp [Completes]
    simp only [applyReason?, applyReason, hcompletes]
    split
    · exact
        { tags := rfl
          settled := fun h => h
          text := fun more => by rw [visibleText_calls]; simp
          calls := by simp [CallBoard.play] }
    · split <;> exact .still rfl rfl

theorem applyChoice_conveys {d : Decoder} (hplain : Plain d.tags.tags) (choice : Choice) :
    Conveys d choice.content choice.strokes (d.applyChoice choice).events (d.applyChoice choice).state := by
  have hdelta : Conveys d choice.content ((choice.delta.elim [] Delta.fragments).map .fragment)
      (d.applyDelta? choice.delta).1 (d.applyDelta? choice.delta).2 := by
    unfold Choice.content
    cases choice.delta with
    | none => exact .still rfl rfl
    | some delta => exact applyDelta_conveys hplain delta
  rcases h : d.applyDelta? choice.delta with ⟨events, d'⟩
  rw [h] at hdelta
  have hall := hdelta.trans (applyReason?_conveys d' choice.finishReason)
  simp only [applyChoice, h]
  simpa [Choice.strokes] using hall

theorem applyChoices_conveys (choices : List Choice) {d : Decoder} (hplain : Plain d.tags.tags) :
    Conveys d (String.join (choices.map Choice.content)) (choices.flatMap Choice.strokes)
      (d.applyChoices choices).events (d.applyChoices choices).state := by
  induction choices generalizing d with
  | nil => exact .still rfl rfl
  | cons choice more ih =>
    have hchoice := applyChoice_conveys hplain choice
    have hmore := ih (d := (d.applyChoice choice).state) (by rw [hchoice.tags]; exact hplain)
    have hall := hchoice.trans hmore
    rw [← String.join_cons] at hall
    exact hall

theorem applyChunk_conveys {d : Decoder} (hplain : Plain d.tags.tags) (chunk : Chunk) :
    Conveys d (String.join ((chunk.choices.getD []).map Choice.content))
      ((chunk.choices.getD []).flatMap Choice.strokes) (d.applyChunk chunk).events (d.applyChunk chunk).state := by
  have hclosing : ∀ closing : Closing, Conveys d "" [] (chunk.error.map errorEvent).toList { d with closing } := by
    intro closing
    refine .mute rfl rfl fun e he => ?_
    obtain ⟨error, -, rfl⟩ := Option.map_eq_some_iff.1 (Option.mem_toList.1 he)
    exact ⟨rfl, rfl⟩
  have hchoices : ∀ closing : Closing,
      Conveys d (String.join ((chunk.choices.getD []).map Choice.content))
        ((chunk.choices.getD []).flatMap Choice.strokes)
        ((chunk.error.map errorEvent).toList ++ ({ d with closing }.applyChoices (chunk.choices.getD [])).events)
        ({ d with closing }.applyChoices (chunk.choices.getD [])).state := by
    intro closing
    simpa using (hclosing closing).trans (applyChoices_conveys (chunk.choices.getD []) (d := { d with closing }) hplain)
  exact hchoices _

theorem step_conveys {d : Decoder} (hplain : Plain d.tags.tags) (payload : String) :
    Conveys d (content [payload]) (strokes [payload]) (d.step payload).events (d.step payload).state := by
  unfold step content strokes choices
  cases hchunk : Chunk.ofText payload with
  | ok chunk => simpa [Except.toOption, hchunk] using applyChunk_conveys hplain chunk
  | error problem =>
    have hmute : Conveys d "" [] (Step.unread d .chat problem).events (Step.unread d .chat problem).state := by
      refine .mute rfl rfl fun e he => ?_
      cases List.mem_singleton.1 he
      exact ⟨rfl, rfl⟩
    simpa [Except.toOption, hchunk] using hmute

/-- The end shows what is held back of the content, and gives out the open calls. -/
theorem finish_channels {d : Decoder} (hsettled : d.tags.Settled) (hopen : d.closing.finished = false) :
    visibleText d.finish.1 = visible (d.tags.remaining []) ∧ toolCalls d.finish.1 = d.calls.drain.1 := by
  obtain ⟨-, hcalls, hsilent, htext⟩ := tell_channels d.tags.finish.1 { d with tags := d.tags.finish.2 }
  have hmoves := tell_moves d.tags.finish.1 { d with tags := d.tags.finish.2 }
  rcases htell : tell { d with tags := d.tags.finish.2 } d.tags.finish.1 with ⟨told, e⟩
  rw [htell] at hcalls hsilent htext hmoves
  have hfinish : d.finish.1 = told ++ e.boards.finish.1 := by
    simp only [finish, htell]
    rfl
  have hclosing : e.boards.closing.finished = false := hmoves.finished.trans hopen
  rw [hfinish, visibleText_append, toolCalls_append, htext, hsilent, InlineTag.Scanner.remaining_nil hsettled]
  constructor
  · rw [Boards.finish_visibleText hclosing, String.append_empty]
  · rw [Boards.finish_calls hclosing, List.nil_append]
    exact congrArg (·.drain.1) hcalls

end Decoder

/-! ## Whole streams -/

theorem content_cons (payload : String) (payloads : List String) :
    content (payload :: payloads) = content [payload] ++ content payloads := by
  simp [content, choices, String.join_append]

theorem strokes_cons (payload : String) (payloads : List String) :
    strokes (payload :: payloads) = strokes [payload] ++ strokes payloads := by
  simp [strokes, choices]

theorem drive_payload (d : Decoder) (payload : String) (inputs : List Input) :
    ((ModelStream.Decoder.chat d).drive (.payload payload :: inputs)).1 =
      (d.step payload).events ++ ((ModelStream.Decoder.chat (d.step payload).state).drive inputs).1 := rfl

/-- The channels of a stream and its end. -/
theorem drive_channels (payloads : List String) {d : Decoder} (hplain : Plain d.tags.tags) (hsettled : d.tags.Settled)
    (hopen : d.closing.finished = false) :
    let events := ((ModelStream.Decoder.chat d).drive (payloads.map .payload ++ [.finish])).1
    visibleText events = visible (d.tags.remaining (content payloads).toList) ∧
      toolCalls events = (d.calls.play (strokes payloads)).1 ++ (d.calls.play (strokes payloads)).2.drain.1 := by
  induction payloads generalizing d with
  | nil =>
    obtain ⟨htext, hcalls⟩ := Decoder.finish_channels hsettled hopen
    show visibleText (d.finish.1 ++ []) = _ ∧ toolCalls (d.finish.1 ++ []) = _
    rw [List.append_nil]
    exact ⟨htext, hcalls⟩
  | cons payload payloads ih =>
    have hstep := Decoder.step_conveys hplain payload
    obtain ⟨htext, hcalls⟩ := ih (by rw [hstep.tags]; exact hplain) (hstep.settled hsettled)
      ((d.step_moves payload).finished.trans hopen)
    simp only [List.map_cons, List.cons_append, drive_payload]
    rw [visibleText_append, toolCalls_append, htext, hcalls, content_cons, strokes_cons, CallBoard.play_append,
      hstep.calls, String.toList_append, hstep.text, List.append_assoc]
    exact ⟨rfl, rfl⟩

/-- What a stream and its end come to. -/
def result (d : ModelStream.Decoder) (payloads : List String) : Transcript :=
  .ofEvents (d.drive (payloads.map .payload ++ [.finish])).1

/-- The tags of a new decoder, which has taken nothing in. -/
theorem of_create {tags : List String} {d : ModelStream.Decoder} (h : ModelStream.Decoder.create .chat tags = .ok d) :
    d = .chat { tags := { tags := InlineTag.ofNames tags } } := by
  simp only [ModelStream.Decoder.create, Decoder.ofTags, InlineTag.Scanner.ofNames] at h
  split at h <;> cases h
  rfl

theorem plain_ofNames {tags : List String} (h : ∀ name ∈ tags, '<' ∉ name.toList ∧ '>' ∉ name.toList) :
    Plain (InlineTag.ofNames tags) := by
  intro t ht
  obtain ⟨name, hname, rfl⟩ := List.mem_map.1 (List.mem_filter.1 ht).1
  -- trimming only takes characters away
  have hsub : Text.trim name.toList ⊆ name.toList := fun c hc =>
    (List.dropWhile_sublist _).subset ((Text.trimEnd_prefix _).subset hc)
  exact ⟨fun hmem => (h name hname).1 (hsub hmem), fun hmem => (h name hname).2 (hsub hmem)⟩

/-- Two streams with the same content, whose fragments say the same of every index, and in which no fragment
comes after a completion, come to the same text and the same calls. -/
theorem channels_independent {tags : List String} {d : ModelStream.Decoder}
    (hd : ModelStream.Decoder.create .chat tags = .ok d)
    (hplain : ∀ name ∈ tags, '<' ∉ name.toList ∧ '>' ∉ name.toList) {payloads others : List String}
    (hcontent : content payloads = content others) (hcalls : SameCalls (fragments payloads) (fragments others))
    (horder : Stroke.InOrder (strokes payloads)) (horder' : Stroke.InOrder (strokes others)) :
    (result d payloads).text = (result d others).text ∧ (result d payloads).calls = (result d others).calls := by
  rw [of_create hd]
  have hstart : ({ tags := InlineTag.ofNames tags } : InlineTag.Scanner).Settled := by
    intro run heq
    cases heq
    exact InlineTag.unopened_nil _ _
  have hchannels := fun payloads => drive_channels payloads
    (d := { tags := { tags := InlineTag.ofNames tags } }) (plain_ofNames hplain) hstart rfl
  obtain ⟨htext, hgiven⟩ := hchannels payloads
  obtain ⟨htext', hgiven'⟩ := hchannels others
  have hempty : Ordered.Sorted ({} : CallBoard).drafts := List.Pairwise.nil
  simp only [result, Transcript.ofEvents_text, Transcript.ofEvents_calls]
  rw [htext, htext', hgiven, hgiven', CallBoard.play_drain horder hempty, CallBoard.play_drain horder' hempty, hcontent]
  exact ⟨rfl, CallBoard.drain_collect_congr hcalls⟩

/-- A tag cut in two and calls that are completed early, against one chunk in which the call has its index
by its place. -/
theorem channels_independent_cut :
    let d : ModelStream.Decoder := .chat { tags := { tags := [⟨"t".toList⟩] } }
    let payloads : List String :=
      [ "\x7b\"choices\":[\x7b\"delta\":\x7b\"content\":\"a<t\",\"tool_calls\":[\x7b\"index\":1,\"id\":\"x\",\"function\":\x7b\"name\":\"f\",\"arguments\":\"[\"\x7d\x7d]\x7d\x7d]\x7d",
        "\x7b\"choices\":[\x7b\"delta\":\x7b\"content\":\">b</t> c\"\x7d\x7d]\x7d",
        "\x7b\"choices\":[\x7b\"delta\":\x7b\"tool_calls\":[\x7b\"index\":1,\"function\":\x7b\"arguments\":\"]\"\x7d\x7d]\x7d,\"finish_reason\":\"tool_calls\"\x7d]\x7d" ]
    let others : List String :=
      [ "\x7b\"choices\":[\x7b\"delta\":\x7b\"content\":\"a<t>b</t> c\",\"tool_calls\":[\x7b\x7d,\x7b\"id\":\"x\",\"function\":\x7b\"name\":\"f\",\"arguments\":\"[]\"\x7d\x7d]\x7d\x7d]\x7d" ]
    ModelStream.Decoder.create .chat ["t"] = .ok d ∧
      (∀ name ∈ ["t"], '<' ∉ name.toList ∧ '>' ∉ name.toList) ∧ content payloads = content others ∧
      SameCalls (fragments payloads) (fragments others) ∧ Stroke.InOrder (strokes payloads) ∧
      Stroke.InOrder (strokes others) ∧
      (result d payloads).text = (result d others).text ∧ (result d payloads).calls = (result d others).calls := by
  intro d payloads others
  have hcreate : ModelStream.Decoder.create .chat ["t"] = .ok d := rfl
  have hplain : ∀ name ∈ ["t"], '<' ∉ name.toList ∧ '>' ∉ name.toList := by decide
  have hsaid : content payloads = "a<t>b</t> c" := by decide +kernel
  have hsaid' : content others = "a<t>b</t> c" := by decide +kernel
  have hcontent : content payloads = content others := hsaid.trans hsaid'.symm
  have hstrokes : strokes payloads =
      [ .fragment { index := 1, id := "x", name := "f", arguments := "[" },
        .fragment { index := 1, arguments := "]" }, .complete ] := by
    decide +kernel
  have hothers : strokes others =
      [.fragment { index := 0 }, .fragment { index := 1, id := "x", name := "f", arguments := "[]" }] := by
    decide +kernel
  have hcalls : SameCalls (fragments payloads) (fragments others) := by
    rw [fragments, fragments, hstrokes, hothers]
    refine ⟨fun index => ?_, fun index => ?_, fun index => ?_⟩
    · by_cases h : 1 = index <;> simp [List.filterMap, Stroke.fragment?, lastId, h]
    · by_cases h : 1 = index <;> simp [List.filterMap, Stroke.fragment?, firstName, h]
    · by_cases h : 1 = index <;> by_cases h' : 0 = index <;> simp [List.filterMap, Stroke.fragment?, argumentsOf, h, h']
  have horder : Stroke.InOrder (strokes payloads) := by rw [hstrokes]; decide
  have horder' : Stroke.InOrder (strokes others) := by rw [hothers]; decide
  exact ⟨hcreate, hplain, hcontent, hcalls, horder, horder',
    channels_independent hcreate hplain hcontent hcalls horder horder'⟩

/-- Where a tag name holds a delimiter, a cut behind the second `<` makes visible what the whole tag hides. -/
theorem channels_cut_delimiter :
    let d : ModelStream.Decoder := .chat { tags := { tags := [⟨"a<b".toList⟩] } }
    let payloads : List String :=
      [ "\x7b\"choices\":[\x7b\"delta\":\x7b\"content\":\"<a<b>x</a<b>\"\x7d\x7d]\x7d" ]
    let others : List String :=
      [ "\x7b\"choices\":[\x7b\"delta\":\x7b\"content\":\"<a<\"\x7d\x7d]\x7d",
        "\x7b\"choices\":[\x7b\"delta\":\x7b\"content\":\"b>x</a<b>\"\x7d\x7d]\x7d" ]
    ModelStream.Decoder.create .chat ["a<b"] = .ok d ∧ content payloads = content others ∧
      SameCalls (fragments payloads) (fragments others) ∧ Stroke.InOrder (strokes payloads) ∧
      Stroke.InOrder (strokes others) ∧ (result d payloads).text ≠ (result d others).text := by
  intro d payloads others
  have hstrokes : strokes payloads = [] := by decide +kernel
  have hothers : strokes others = [] := by decide +kernel
  have hcalls : SameCalls (fragments payloads) (fragments others) := by
    rw [fragments, fragments, hstrokes, hothers]
    exact ⟨fun _ => rfl, fun _ => rfl, fun _ => rfl⟩
  exact ⟨rfl, by decide +kernel, hcalls, by rw [hstrokes]; decide, by rw [hothers]; decide, by decide +kernel⟩

end ModelStream.Chat
