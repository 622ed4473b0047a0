/-
Where the reasoning of a Responses stream comes from. A key may be told of in pieces, by finished items and by
the closing response. All its pieces are streamed ones, or all of them are the summary of one finished item: once
a piece that is not blank has come, summaries count for nothing, and once the block of a key has ended, nothing
that comes for the key gives anything out (`reasoning_one_source`).

The events of a stream are cut into passages, each with what it tells of reasoning. A key is silent, speaking or
has ended, and each passage is one step between these (`Tells`).
-/
import ModelStream.Proofs.Decoder.Reasoning
import ModelStream.Proofs.ReasoningBoard.Keys

namespace ModelStream

open Text (trimmed)

theorem Event.Thoughtless.only {e : Event} (h : e.Thoughtless) : ∀ e' ∈ [e], e'.Thoughtless :=
  fun _ he => List.mem_singleton.1 he ▸ h

namespace Responses

/-! ## Passages -/

/-- What a part of a stream tells of reasoning. -/
inductive Origin
  /-- A streamed piece. -/
  | piece (key : ReasoningKey) (text : String)
  /-- A finished item, of the stream or of the closing response. -/
  | item (key : ReasoningKey) (summary : List Json)
  /-- The end of the stream. -/
  | ending
  | other

/-- The key that is told of. -/
def Origin.key? : Origin → Option ReasoningKey
  | .piece key _ | .item key _ => some key
  | .ending | .other => none

/-- What a finished item at an index tells of reasoning. -/
def originOf (index : Nat) (item : Json) : Origin :=
  match Item.ofValue item with
  | .ok (.reasoning id summary) => .item (.named (id.getD (toString index))) summary
  | _ => .other

def Signal.origin : Signal → Origin
  | .reasoningDelta itemId text => .piece (.ofId itemId) text
  | .itemDone index item => originOf index item
  | _ => .other

/-- What a payload tells of reasoning, if it can be read. -/
def payloadOrigin (payload : String) : Origin :=
  match Signal.ofText payload with
  | .ok (_, signal) => signal.origin
  | .error _ => .other

/-- Events that are given out at one time, and what they come from. -/
structure Passage where
  origin : Origin
  events : List Event

namespace Decoder

/-- The items of the closing response, each a passage. -/
def rescanPassages (d : Decoder) : Nat → List Json → List Passage
  | _, [] => []
  | position, item :: more =>
    { origin := originOf position item, events := (d.rescanItem position item).1 } ::
      (d.rescanItem position item).2.rescanPassages (position + 1) more

/-- A stream of payloads: each payload is a passage, then each item of the closing response, then what is open at
the end. -/
def passages (d : Decoder) : List String → List Passage
  | [] => (d.last.elim [] fun response => (d.reopen response).rescanPassages 0 response.output) ++
      [{ origin := .ending, events := d.rescan.2.boards.finish.1 }]
  | payload :: more =>
    { origin := payloadOrigin payload, events := (d.step payload).events } :: (d.step payload).state.passages more

theorem rescanPassages_events (items : List Json) (d : Decoder) (position : Nat) :
    (d.rescanPassages position items).flatMap (·.events) = (d.rescanItems position items).1 := by
  induction items generalizing d position with
  | nil => rfl
  | cons item more ih =>
    rw [rescanPassages, List.flatMap_cons, ih]
    rfl

/-- The passages hold all events, in order. -/
theorem passages_events (payloads : List String) (d : Decoder) : (d.passages payloads).flatMap (·.events) =
    ((ModelStream.Decoder.responses d).drive (payloads.map .payload ++ [.finish])).1 := by
  induction payloads generalizing d with
  | nil =>
    have hfound : (d.last.elim [] fun response => (d.reopen response).rescanPassages 0 response.output).flatMap
        (·.events) = d.rescan.1 := by
      unfold rescan
      cases d.last with
      | none => rfl
      | some response => exact rescanPassages_events _ _ _
    rw [passages, List.flatMap_append, hfound, List.flatMap_singleton]
    exact (List.append_nil _).symm
  | cons payload more ih =>
    rw [passages, List.flatMap_cons, ih]
    rfl

end Decoder

/-- The texts of a summary without the blanks around them, the blank ones left out. -/
def summaryTexts (summary : List Json) : List String :=
  (summary.filterMap fun part => (part.get? "text").bind Json.str?).map trimmed |>.filter (· ≠ "")

/-! ## One passage -/

open ReasoningBoard

variable {b c : ReasoningBoard} {key other : ReasoningKey}

/-- Nothing comes of this: a blank piece, an item without text, or anything for a key that has ended. -/
def Mute (b : ReasoningBoard) : Origin → Prop
  | .piece key text => trimmed text = "" ∨ key ∈ b.ended
  | .item key summary => b.Silent key ∧ summaryTexts summary = [] ∨ key ∈ b.ended
  | .ending | .other => True

/-- What a passage does to the board, and what it gives out. -/
inductive Tells : ReasoningBoard → Passage → ReasoningBoard → Prop
  /-- The events have nothing to do with reasoning. -/
  | aside (b : ReasoningBoard) {events : List Event} (h : ∀ e ∈ events, e.Thoughtless) :
    Tells b { origin := .other, events } b
  | mute {b : ReasoningBoard} {origin : Origin} (h : Mute b origin) : Tells b { origin, events := [] } b
  /-- A piece is given out. -/
  | piece {b c : ReasoningBoard} {key : ReasoningKey} {text : String} (hended : key ∉ b.ended) (hc : c.Speaking key)
    (hrest : ButFor key b c) :
    Tells b { origin := .piece key text, events := [.reasoning (trimmed text) key] } c
  /-- An item ends the block of pieces. -/
  | item {b c : ReasoningBoard} {key : ReasoningKey} (hb : b.Speaking key) (hc : key ∈ c.ended) (hrest : ButFor key b c)
    (summary : List Json) (text : String) (metadata : Json.Fields) :
    Tells b { origin := .item key summary, events := [.reasoningEnd text metadata] } c
  /-- An item gives out its summary, and ends the block. -/
  | summary {b c : ReasoningBoard} {key : ReasoningKey} (hb : b.Silent key) (hc : key ∈ c.ended) (hrest : ButFor key b c)
    (summary : List Json) (text : String) (metadata : Json.Fields) :
    Tells b { origin := .item key summary
              events := (summaryTexts summary).map (.reasoning · key) ++ [.reasoningEnd text metadata] } c

namespace Decoder

theorem summaryTexts_cons (part : Json) (more : List Json) :
    summaryTexts (part :: more) =
      match (part.get? "text").bind Json.str? with
      | some text => if trimmed text = "" then summaryTexts more else trimmed text :: summaryTexts more
      | none => summaryTexts more := by
  unfold summaryTexts
  rw [List.filterMap_cons]
  cases (part.get? "text").bind Json.str? with
  | none => rfl
  | some text =>
    simp only [List.map_cons, List.filter_cons]
    by_cases h : trimmed text = "" <;> simp [h]

/-- The texts of a summary are given out one by one; if there are any, the key speaks then. -/
theorem addSummary_told (summary : List Json) (h : key ∉ b.ended) :
    (addSummary key summary b).1 = (summaryTexts summary).map (.reasoning · key) ∧
      ButFor key b (addSummary key summary b).2 ∧
      (summaryTexts summary = [] → (addSummary key summary b).2 = b) ∧
      (b.Speaking key ∨ summaryTexts summary ≠ [] → (addSummary key summary b).2.Speaking key) := by
  induction summary generalizing b with
  | nil => exact ⟨rfl, .refl key b, fun _ => rfl, fun hb => hb.resolve_right (fun hne => hne rfl)⟩
  | cons part more ih =>
    rw [summaryTexts_cons, addSummary]
    cases (part.get? "text").bind Json.str? with
    | none => exact ih h
    | some text =>
      by_cases htext : trimmed text = ""
      · simp only [push_mute (.inl htext), if_pos htext]
        exact ih h
      · obtain ⟨c, hpush, hc, hbut⟩ := push_speaking h htext
        obtain ⟨htold, hmore, -, hspeaking⟩ := ih hc.2
        simp only [hpush, if_neg htext]
        refine ⟨?_, hbut.trans hmore, fun hnil => (List.cons_ne_nil _ _ hnil).elim, fun _ => hspeaking (.inl hc)⟩
        rw [htold]
        rfl

/-- What a finished item of reasoning does. -/
theorem finishReasoning_tells (d : Decoder) (hd : d.reasoning.Orderly) (key : ReasoningKey) (summary : List Json)
    (item : Json) :
    Tells d.reasoning { origin := .item key summary, events := (d.finishReasoning key summary item).1 }
      (d.finishReasoning key summary item).2.reasoning := by
  unfold finishReasoning
  rcases hd key with hsilent | hspeaking | hended
  · have hisOpen : d.reasoning.isOpen key = false := by simp [isOpen, Ordered.has, hsilent.1]
    obtain ⟨htold, hbut, hsame, hspeaking⟩ := addSummary_told summary hsilent.2
    rw [if_neg (mt (hasEnded_iff _ _).1 hsilent.2)]
    simp only [hisOpen, Bool.false_eq_true, if_false]
    by_cases htexts : summaryTexts summary = []
    · simp only [hsame htexts, htold, htexts, finish_silent hsilent]
      exact .mute (.inl ⟨hsilent, htexts⟩)
    · obtain ⟨text, metadata, c, hfinish, hc, hend⟩ := finish_speaking (hspeaking (.inr htexts)) (item.fields?.getD [])
      simp only [hfinish, htold]
      exact .summary hsilent hc (hbut.trans hend) summary text metadata
  · have hisOpen : d.reasoning.isOpen key = true := by
      obtain ⟨⟨block, hget, -⟩, -⟩ := hspeaking
      simp [isOpen, Ordered.has, hget]
    obtain ⟨text, metadata, c, hfinish, hc, hend⟩ := finish_speaking hspeaking (item.fields?.getD [])
    rw [if_neg (mt (hasEnded_iff _ _).1 hspeaking.2)]
    simp only [hisOpen, if_true, hfinish]
    exact .item hspeaking hc hend summary text metadata
  · rw [if_pos ((hasEnded_iff _ _).2 hended)]
    exact .mute (.inr hended)

theorem completeCall_tells (d : Decoder) (key : CallKey) (c : CallItem) :
    Tells d.reasoning { origin := .other, events := (d.completeCall key c).1 } (d.completeCall key c).2.reasoning := by
  have hreasoning : (d.completeCall key c).2.reasoning = d.reasoning := by
    unfold completeCall
    repeat' split
    all_goals rfl
  rw [hreasoning]
  rcases completeCall_cases d key c with hnone | ⟨call, hcall, -⟩
  · rw [hnone]
    exact .mute trivial
  · rw [hcall]
    exact .aside d.reasoning (Event.Thoughtless.only ⟨fun _ => rfl, rfl⟩)

theorem finishItem_tells (d : Decoder) (hd : d.reasoning.Orderly) (index : Nat) (item : Json) :
    Tells d.reasoning { origin := originOf index item, events := (d.finishItem index item).1 }
      (d.finishItem index item).2.reasoning := by
  unfold finishItem originOf
  cases Item.ofValue item with
  | error problem => exact .aside d.reasoning (Event.Thoughtless.only ⟨fun _ => rfl, rfl⟩)
  | ok parsed =>
    cases parsed with
    | call c => exact completeCall_tells d _ c
    | reasoning id summary => exact finishReasoning_tells d hd _ summary item
    | other => exact .mute trivial

theorem rescanItem_tells (d : Decoder) (hd : d.reasoning.Orderly) (position : Nat) (item : Json) :
    Tells d.reasoning { origin := originOf position item, events := (d.rescanItem position item).1 }
      (d.rescanItem position item).2.reasoning := by
  unfold rescanItem originOf
  cases Item.ofValue item with
  | error problem => exact .mute trivial
  | ok parsed =>
    cases parsed with
    | call c =>
      simp only
      split
      · exact .mute trivial
      · split
        · exact .mute trivial
        · exact completeCall_tells d _ c
    | reasoning id summary => exact finishReasoning_tells d hd _ summary item
    | other => exact .mute trivial

theorem push_tells (b : ReasoningBoard) (key : ReasoningKey) (text : String) :
    Tells b { origin := .piece key text, events := (b.push key text).1.toList } (b.push key text).2 := by
  by_cases hmute : trimmed text = "" ∨ key ∈ b.ended
  · rw [push_mute hmute]
    exact .mute hmute
  · obtain ⟨htext, hended⟩ := not_or.1 hmute
    obtain ⟨c, hpush, hc, hbut⟩ := push_speaking hended htext
    rw [hpush]
    exact .piece hended hc hbut

theorem close_tells (d : Decoder) (outcome : Outcome) (response : Response) :
    Tells d.reasoning { origin := .other, events := (d.close outcome response).1 }
      (d.close outcome response).2.reasoning := by
  simp only [close]
  split
  · exact .aside d.reasoning (Event.Thoughtless.only ⟨fun _ => rfl, rfl⟩)
  · exact .mute trivial

theorem apply_tells (d : Decoder) (hd : d.reasoning.Orderly) (raw : Json) (signal : Signal) :
    Tells d.reasoning { origin := signal.origin, events := (d.apply raw signal).events }
      (d.apply raw signal).state.reasoning := by
  cases signal with
  | started response =>
    simp only [apply]
    cases response.id <;> exact .mute trivial
  | itemAdded index item =>
    have hreasoning : (d.announce index item).reasoning = d.reasoning := by
      unfold announce
      repeat' split
      all_goals rfl
    simp only [apply, hreasoning]
    exact .mute trivial
  | itemDone index item => exact finishItem_tells d hd index item
  | textDelta text =>
    simp only [apply]
    split
    · exact .mute trivial
    · exact .aside d.reasoning (Event.Thoughtless.only ⟨fun _ => rfl, rfl⟩)
  | note => exact .aside d.reasoning (Event.Thoughtless.only ⟨fun _ => rfl, rfl⟩)
  | argumentsDelta target fragment => exact .mute trivial
  | argumentsDone target arguments => exact completeCall_tells d _ _
  | reasoningDelta itemId text =>
    have htells := push_tells d.reasoning (.ofId itemId) text
    rcases h : d.reasoning.push (.ofId itemId) text with ⟨event, reasoning⟩
    simp only [apply, h]
    rwa [h] at htells
  | ended outcome response => exact close_tells d outcome response
  | error code detail => exact .aside d.reasoning (Event.Thoughtless.only ⟨fun _ => rfl, rfl⟩)
  | idle => exact .mute trivial

theorem step_tells (d : Decoder) (hd : d.reasoning.Orderly) (payload : String) :
    Tells d.reasoning { origin := payloadOrigin payload, events := (d.step payload).events }
      (d.step payload).state.reasoning := by
  unfold step payloadOrigin
  cases Signal.ofText payload with
  | ok read => exact apply_tells d hd read.1 read.2
  | error problem => exact .aside d.reasoning (Event.Thoughtless.only ⟨fun _ => rfl, rfl⟩)

end Decoder

/-! ## What a passage does to a key -/

theorem thoughts_aside {events : List Event} (h : ∀ e ∈ events, e.Thoughtless) (key : ReasoningKey) :
    thoughts key events = [] := List.filterMap_eq_nil_iff.2 fun e he => (h e he).thought key

theorem thoughts_told (key k : ReasoningKey) (texts : List String) :
    thoughts key (texts.map (.reasoning · k)) = if k = key then texts else [] := by
  induction texts with
  | nil => simp [thoughts]
  | cons text more ih =>
    rw [List.map_cons, ← List.singleton_append, thoughts_append, ih]
    by_cases h : k = key <;> simp [thoughts, Event.thought?, h]

theorem thoughts_piece (key : ReasoningKey) (text : String) :
    thoughts key [.reasoning (trimmed text) key] = [trimmed text] :=
  (thoughts_told key key [_]).trans (if_pos rfl)

theorem thoughts_piece_of_ne {k : ReasoningKey} (h : k ≠ key) (text : String) :
    thoughts key [.reasoning (trimmed text) k] = [] :=
  (thoughts_told key k [_]).trans (if_neg h)

theorem thoughts_summary (key k : ReasoningKey) (texts : List String) (text : String) (metadata : Json.Fields) :
    thoughts key (texts.map (.reasoning · k) ++ [.reasoningEnd text metadata]) = if k = key then texts else [] := by
  rw [thoughts_append, thoughts_told]
  exact List.append_nil _

theorem blockEnds_told (k : ReasoningKey) (texts : List String) : blockEnds (texts.map (.reasoning · k)) = [] := by
  rw [blockEnds, List.filterMap_eq_nil_iff]
  intro e he
  obtain ⟨text, -, rfl⟩ := List.mem_map.1 he
  rfl

namespace Tells

variable {p : Passage}

/-- A passage that does not tell of a key leaves it as it is. -/
theorem apart (h : Tells b p c) (hne : p.origin.key? ≠ some key) : thoughts key p.events = [] ∧
    (c.Silent key ↔ b.Silent key) ∧ (c.Speaking key ↔ b.Speaking key) ∧ (key ∈ c.ended ↔ key ∈ b.ended) := by
  have other : ∀ {k : ReasoningKey}, k ≠ key → ButFor k b c →
      (c.Silent key ↔ b.Silent key) ∧ (c.Speaking key ↔ b.Speaking key) ∧ (key ∈ c.ended ↔ key ∈ b.ended) :=
    fun hk hbut => ⟨hbut.silent hk.symm, hbut.speaking hk.symm, hbut.ended key hk.symm⟩
  cases h with
  | aside haside => exact ⟨thoughts_aside haside key, .rfl, .rfl, .rfl⟩
  | mute => exact ⟨rfl, .rfl, .rfl, .rfl⟩
  | @piece c k text _ _ hbut =>
    have hk : k ≠ key := fun heq => hne (congrArg some heq)
    exact ⟨thoughts_piece_of_ne hk text, other hk hbut⟩
  | item _ _ hbut => exact ⟨rfl, other (fun heq => hne (congrArg some heq)) hbut⟩
  | @summary c k _ _ hbut summary =>
    have hk : k ≠ key := fun heq => hne (congrArg some heq)
    exact ⟨by rw [thoughts_summary, if_neg hk], other hk hbut⟩

theorem orderly (h : Tells b p c) (hb : b.Orderly) : c.Orderly := by
  intro key
  by_cases hkey : p.origin.key? = some key
  · cases h with
    | aside | mute => exact hb key
    | piece _ hc =>
      cases hkey
      exact .inr (.inl hc)
    | item _ hc =>
      cases hkey
      exact .inr (.inr hc)
    | summary _ hc =>
      cases hkey
      exact .inr (.inr hc)
  · obtain ⟨-, hsilent, hspeaking, hended⟩ := h.apart hkey
    rw [hsilent, hspeaking, hended]
    exact hb key

/-- Once a key has ended, nothing is given out for it. -/
theorem ended (h : Tells b p c) (hk : key ∈ b.ended) :
    key ∈ c.ended ∧ thoughts key p.events = [] ∧ (p.origin.key? = some key → p.events = []) := by
  by_cases hkey : p.origin.key? = some key
  · cases h with
    | aside => cases hkey
    | mute => exact ⟨hk, rfl, fun _ => rfl⟩
    | piece hended =>
      cases hkey
      exact (hended hk).elim
    | item hb =>
      cases hkey
      exact (hb.2 hk).elim
    | summary hb =>
      cases hkey
      exact (hb.2 hk).elim
  · obtain ⟨hnone, -, -, hended⟩ := h.apart hkey
    exact ⟨hended.2 hk, hnone, fun heq => (hkey heq).elim⟩

/-- While a key speaks, only streamed pieces are given out for it. -/
theorem speaking (h : Tells b p c) (hk : b.Speaking key) : (c.Speaking key ∨ key ∈ c.ended) ∧
    (thoughts key p.events = [] ∨
      ∃ text, p.origin = .piece key text ∧ thoughts key p.events = [trimmed text]) := by
  by_cases hkey : p.origin.key? = some key
  · cases h with
    | aside => cases hkey
    | mute => exact ⟨.inl hk, .inl rfl⟩
    | @piece c k text _ hc =>
      cases hkey
      exact ⟨.inl hc, .inr ⟨text, rfl, thoughts_piece key text⟩⟩
    | item _ hc =>
      cases hkey
      exact ⟨.inr hc, .inl rfl⟩
    | summary hb =>
      cases hkey
      exact (hk.not_silent hb).elim
  · obtain ⟨hnone, -, hspeaking, -⟩ := h.apart hkey
    exact ⟨.inl (hspeaking.2 hk), .inl hnone⟩

/-- A silent key stays so, or a piece that is not blank makes it speak, or an item gives out its summary. -/
theorem silent (h : Tells b p c) (hk : b.Silent key) :
    (c.Silent key ∧ thoughts key p.events = [] ∧ ∀ text, p.origin = .piece key text → trimmed text = "") ∨
    (c.Speaking key ∧ ∃ text, p.origin = .piece key text ∧ thoughts key p.events = [trimmed text]) ∨
    (key ∈ c.ended ∧ ∃ summary, p.origin = .item key summary ∧ thoughts key p.events = summaryTexts summary) := by
  by_cases hkey : p.origin.key? = some key
  · cases h with
    | aside => cases hkey
    | mute hmute =>
      refine .inl ⟨hk, rfl, fun text horigin => ?_⟩
      have hpiece : Mute b (.piece key text) := horigin ▸ hmute
      exact hpiece.resolve_right hk.2
    | @piece c k text _ hc =>
      cases hkey
      exact .inr (.inl ⟨hc, text, rfl, thoughts_piece key text⟩)
    | item hb =>
      cases hkey
      exact (hb.not_silent hk).elim
    | @summary c k _ hc _ summary =>
      cases hkey
      exact .inr (.inr ⟨hc, summary, rfl, by rw [thoughts_summary, if_pos rfl]⟩)
  · obtain ⟨hnone, hsilent, -, -⟩ := h.apart hkey
    refine .inl ⟨hsilent.2 hk, hnone, fun text horigin => (hkey ?_).elim⟩
    rw [horigin, Origin.key?]

/-- Only an item ends a block, as the last that comes of it. -/
theorem ends (h : Tells b p c) (hends : blockEnds p.events ≠ []) :
    ∃ key summary told text metadata, p.origin = .item key summary ∧ key ∈ c.ended ∧
      p.events = told ++ [.reasoningEnd text metadata] ∧ blockEnds told = [] := by
  cases h with
  | aside haside => exact (hends (List.filterMap_eq_nil_iff.2 fun e he => (haside e he).blockEnd)).elim
  | mute => exact (hends rfl).elim
  | piece => exact (hends rfl).elim
  | @item c k _ hc _ summary text metadata => exact ⟨k, summary, [], text, metadata, rfl, hc, rfl, rfl⟩
  | @summary c k _ hc _ summary text metadata =>
    exact ⟨k, summary, _, text, metadata, rfl, hc, rfl, blockEnds_told k _⟩

end Tells

/-! ## All passages -/

/-- A stream from a board on: passages, and then the end, which gives out no more pieces. -/
inductive Talk : ReasoningBoard → List Passage → Prop
  | ending (b : ReasoningBoard) {events : List Event} (h : ∀ key, thoughts key events = []) :
    Talk b [{ origin := .ending, events }]
  | cons {b c : ReasoningBoard} {p : Passage} {more : List Passage} (h : Tells b p c) (k : Talk c more) :
    Talk b (p :: more)

/-- Nothing is given out for the key. -/
def Over (key : ReasoningKey) (passages : List Passage) : Prop :=
  ∀ p ∈ passages, thoughts key p.events = [] ∧ (p.origin.key? = some key → p.events = [])

/-- All pieces of the key are streamed ones. -/
def Streamed (key : ReasoningKey) (passages : List Passage) : Prop :=
  ∀ p ∈ passages, thoughts key p.events = [] ∨
    ∃ text, p.origin = .piece key text ∧ thoughts key p.events = [trimmed text]

/-- All pieces of the key are the summary of one finished item, before which no piece came but blank ones. -/
def Summed (key : ReasoningKey) (passages : List Passage) : Prop :=
  ∃ before p after summary, passages = before ++ p :: after ∧ p.origin = .item key summary ∧
    thoughts key p.events = summaryTexts summary ∧
    (∀ q ∈ before, thoughts key q.events = [] ∧ ∀ text, q.origin = .piece key text → trimmed text = "") ∧
    Over key after

theorem Over.streamed {passages : List Passage} (h : Over key passages) : Streamed key passages :=
  fun p hp => .inl (h p hp).1

theorem Streamed.cons {p : Passage} {more : List Passage} (hp : thoughts key p.events = [] ∨
    ∃ text, p.origin = .piece key text ∧ thoughts key p.events = [trimmed text]) (h : Streamed key more) :
    Streamed key (p :: more) := List.forall_mem_cons.2 ⟨hp, h⟩

namespace Talk

variable {passages : List Passage}

theorem ended (h : Talk b passages) (hk : key ∈ b.ended) : Over key passages := by
  induction h with
  | ending b hnone => exact List.forall_mem_singleton.2 ⟨hnone key, nofun⟩
  | cons htells _ ih =>
    obtain ⟨hc, hp⟩ := htells.ended hk
    exact List.forall_mem_cons.2 ⟨hp, ih hc⟩

theorem streamed (h : Talk b passages) (hk : b.Speaking key) : Streamed key passages := by
  induction h with
  | ending b hnone => exact List.forall_mem_singleton.2 (.inl (hnone key))
  | cons htells hmore ih =>
    obtain ⟨hspeaking | hended, hp⟩ := htells.speaking hk
    · exact .cons hp (ih hspeaking)
    · exact .cons hp (hmore.ended hended).streamed

theorem streamed_or_summed (h : Talk b passages) (hk : b.Silent key) : Streamed key passages ∨ Summed key passages := by
  induction h with
  | ending b hnone => exact .inl (List.forall_mem_singleton.2 (.inl (hnone key)))
  | @cons b c p more htells hmore ih =>
    obtain ⟨hsilent, hnone, hblank⟩ | ⟨hspeaking, hpiece⟩ | ⟨hended, summary, horigin, htold⟩ := htells.silent hk
    · rcases ih hsilent with hstreamed | ⟨before, q, after, summary, rfl, hq, htold, hbefore, hafter⟩
      · exact .inl (.cons (.inl hnone) hstreamed)
      · exact .inr ⟨p :: before, q, after, summary, rfl, hq, htold,
          List.forall_mem_cons.2 ⟨⟨hnone, hblank⟩, hbefore⟩, hafter⟩
    · exact .inl (.cons (.inr hpiece) (hmore.streamed hspeaking))
    · exact .inr ⟨[], p, more, summary, rfl, horigin, htold, List.forall_mem_nil _, hmore.ended hended⟩

/-- A passage of a key is not the end, and the stream goes on after it. -/
theorem split (h : Talk b passages) {before after : List Passage} {p : Passage} (heq : passages = before ++ p :: after)
    (hp : p.origin.key? = some key) : ∃ c d, Tells c p d ∧ Talk d after := by
  induction h generalizing before with
  | ending =>
    obtain ⟨-, rfl, -⟩ | ⟨-, hnil⟩ := List.singleton_eq_append_iff.1 heq
    · cases hp
    · cases hnil
  | cons htells hmore ih =>
    cases before with
    | nil =>
      obtain ⟨rfl, rfl⟩ := List.cons.inj heq
      exact ⟨_, _, htells, hmore⟩
    | cons q before => exact ih (List.cons.inj heq).2

end Talk

/-- What is to hold of the passages of a stream and a key. -/
structure OneSource (key : ReasoningKey) (passages : List Passage) : Prop where
  /-- Streamed pieces and summaries are never both given out, nor are two summaries. -/
  source : Streamed key passages ∨ Summed key passages
  /-- After a piece that is not blank, and that no summary came before, summaries count for nothing. -/
  ignored : ∀ before p after text, passages = before ++ p :: after → p.origin = .piece key text → trimmed text ≠ "" →
    (∀ q ∈ before, ∀ summary, q.origin = .item key summary → thoughts key q.events = []) → Streamed key passages
  /-- Nothing is given out after the block has ended. -/
  ended : ∀ before p after, passages = before ++ p :: after → p.origin.key? = some key → blockEnds p.events ≠ [] →
    Over key after

/-- An item without text before a piece that is not blank gave out nothing, and what came later gave out nothing
either. -/
theorem Summed.streamed {before after : List Passage} {p : Passage} {text : String}
    (h : Summed key (before ++ p :: after)) (hp : p.origin = .piece key text) (htext : trimmed text ≠ "")
    (hquiet : ∀ q ∈ before, ∀ summary, q.origin = .item key summary → thoughts key q.events = []) :
    Streamed key (before ++ p :: after) := by
  obtain ⟨earlier, q, later, summary, heq, hq, -, hearlier, hlater⟩ := h
  have hne : p ≠ q := by
    rintro rfl
    rw [hp] at hq
    cases hq
  have hbefore : q ∈ before := by
    rcases List.append_eq_append_iff.1 heq with ⟨rest, hrest, hcons⟩ | ⟨rest, rfl, hcons⟩
    · cases rest with
      | nil => exact (hne (List.cons.inj hcons).1).elim
      | cons r rest =>
        obtain ⟨rfl, -⟩ := List.cons.inj hcons
        exact (htext ((hearlier p (by simp [hrest])).2 text hp)).elim
    · cases rest with
      | nil => exact (hne (List.cons.inj hcons).1.symm).elim
      | cons r rest =>
        obtain ⟨rfl, -⟩ := List.cons.inj hcons
        simp
  rw [heq]
  intro r hr
  rcases List.mem_append.1 hr with hr | hr
  · exact .inl (hearlier r hr).1
  · rcases List.mem_cons.1 hr with rfl | hr
    · exact .inl (hquiet r hbefore summary hq)
    · exact .inl (hlater r hr).1

theorem Talk.oneSource {passages : List Passage} (h : Talk b passages) (hb : b.Silent key) : OneSource key passages where
  source := h.streamed_or_summed hb
  ignored := by
    rintro before p after text rfl hp htext hquiet
    exact (h.streamed_or_summed hb).elim id fun hsummed => hsummed.streamed hp htext hquiet
  ended := by
    intro before p after heq hp hends
    obtain ⟨c, d, htells, hmore⟩ := h.split heq hp
    obtain ⟨k, summary, -, -, -, horigin, hended, -⟩ := htells.ends hends
    rw [horigin] at hp
    obtain rfl := Option.some.inj hp
    exact hmore.ended hended

/-- Where blocks end: with the last event of a finished item, or at the end of the stream. -/
def Passage.EndsWell (p : Passage) : Prop :=
  blockEnds p.events = [] ∨ ∃ key summary told text metadata, p.origin = .item key summary ∧
    p.events = told ++ [.reasoningEnd text metadata] ∧ blockEnds told = []

theorem Talk.concat {passages : List Passage} (h : Talk b passages) :
    ∃ told events, passages = told ++ [{ origin := .ending, events }] ∧ ∀ p ∈ told, p.EndsWell := by
  induction h with
  | @ending b events => exact ⟨[], events, rfl, List.forall_mem_nil _⟩
  | @cons b c p more htells _ ih =>
    obtain ⟨told, events, rfl, htold⟩ := ih
    refine ⟨p :: told, events, rfl, List.forall_mem_cons.2 ⟨?_, htold⟩⟩
    by_cases hends : blockEnds p.events = []
    · exact .inl hends
    · obtain ⟨k, summary, said, text, metadata, horigin, -, hevents, hsaid⟩ := htells.ends hends
      exact .inr ⟨k, summary, said, text, metadata, horigin, hevents, hsaid⟩

namespace Decoder

/-- What is open at the end gives out no pieces. -/
theorem thoughts_finish (b : Boards) (key : ReasoningKey) : thoughts key b.finish.1 = [] := by
  rw [thoughts, List.filterMap_eq_nil_iff]
  intro e he
  by_cases hfinished : b.closing.finished = true
  · rw [Boards.finish_of_finished hfinished] at he
    cases he
  · simp only [Boards.finish, Closing.finish, if_neg hfinished, List.mem_append, List.mem_map, List.mem_singleton] at he
    obtain (⟨call, -, rfl⟩ | he) | rfl := he
    · rfl
    · have hend := b.reasoning.flush_ends e he
      cases e <;> first | rfl | cases hend
    · rfl

theorem rescanPassages_talk (items : List Json) {d : Decoder} (hd : d.reasoning.Orderly) (position : Nat)
    {tail : List Passage} (htail : ∀ b, Talk b tail) : Talk d.reasoning (d.rescanPassages position items ++ tail) := by
  induction items generalizing d position with
  | nil => exact htail d.reasoning
  | cons item more ih =>
    have htells := rescanItem_tells d hd position item
    exact .cons htells (ih (htells.orderly hd) _)

theorem passages_talk (payloads : List String) {d : Decoder} (hd : d.reasoning.Orderly) :
    Talk d.reasoning (d.passages payloads) := by
  induction payloads generalizing d with
  | nil =>
    have hend : ∀ b, Talk b [{ origin := .ending, events := d.rescan.2.boards.finish.1 }] :=
      fun b => .ending b (thoughts_finish _)
    rw [passages]
    cases d.last with
    | none => exact hend d.reasoning
    | some response =>
      have hreopen : (d.reopen response).reasoning.Orderly := hd
      exact rescanPassages_talk response.output hreopen 0 hend
  | cons payload more ih =>
    have htells := step_tells d hd payload
    exact .cons htells (ih (htells.orderly hd))

/-- The pieces of a key that a stream gives out, its end included, are all streamed ones or all from the summary of
one finished item; summaries count for nothing once a piece that is not blank has come; and after the block of a
key has ended, neither pieces nor items, of the stream or of the closing response, give out anything for it. -/
theorem reasoning_one_source (payloads : List String) :
    (passages {} payloads).flatMap (·.events) =
        ((ModelStream.Decoder.responses {}).drive (payloads.map .payload ++ [.finish])).1 ∧
      (∀ key, OneSource key (passages {} payloads)) ∧
      ∃ told events, passages {} payloads = told ++ [{ origin := .ending, events }] ∧ ∀ p ∈ told, p.EndsWell := by
  have hstart : ({} : Decoder).reasoning.Orderly := orderly_start
  have htalk := passages_talk payloads hstart
  exact ⟨passages_events payloads {}, fun key => htalk.oneSource ⟨rfl, List.not_mem_nil⟩, htalk.concat⟩

end Decoder

end Responses

end ModelStream
