/-
Laws of the reasoning board. A board reflects the events given out so far (`ReasoningBoard.Reflects`):
the text of a block is what its key was heard to say, and the keys that have ended are those of the
ends among the events, in order. Every move of a decoder keeps this, and at the end of a stream no key
with something said is left open, so that pieces and ends of reasoning belong together (`Paired`).
-/
import Mathlib.Data.List.Nodup
import ModelStream.Proofs.Boards
import ModelStream.Proofs.Text.Blank

namespace ModelStream

/-! ## Pieces and ends -/

namespace Event

/-- The piece of reasoning that an event adds to the block of a key. -/
def thought? (key : ReasoningKey) : Event → Option String
  | .reasoning text other => if other = key then some text else none
  | _ => none

/-- The text and the metadata of the block that an event ends. -/
def blockEnd? : Event → Option (String × Json.Fields)
  | .reasoningEnd text metadata => some (text, metadata)
  | _ => none

/-- Has nothing to do with reasoning. -/
structure Thoughtless (e : Event) : Prop where
  thought : ∀ key, e.thought? key = none
  blockEnd : e.blockEnd? = none

theorem Aside.thoughtless {e : Event} (h : e.Aside) : e.Thoughtless := by
  cases e <;> first | exact ⟨fun _ => rfl, rfl⟩ | exact h.elim

end Event

/-- The pieces of reasoning that events add to the block of a key, in order. -/
def thoughts (key : ReasoningKey) (events : List Event) : List String := events.filterMap (Event.thought? key)

/-- The blocks of reasoning that events end, in order. -/
def blockEnds (events : List Event) : List (String × Json.Fields) := events.filterMap Event.blockEnd?

@[simp] theorem thoughts_append (key : ReasoningKey) (events later : List Event) :
    thoughts key (events ++ later) = thoughts key events ++ thoughts key later := List.filterMap_append

@[simp] theorem blockEnds_append (events later : List Event) :
    blockEnds (events ++ later) = blockEnds events ++ blockEnds later := List.filterMap_append

theorem mem_thoughts {key : ReasoningKey} {events : List Event} {text : String} :
    text ∈ thoughts key events ↔ .reasoning text key ∈ events := by
  rw [thoughts, List.mem_filterMap]
  constructor
  · rintro ⟨e, hmem, he⟩
    cases e with
    | reasoning said other =>
      rw [Event.thought?, Option.ite_none_right_eq_some] at he
      obtain ⟨rfl, hsaid⟩ := he
      exact Option.some.inj hsaid ▸ hmem
    | _ => cases he
  · intro hmem
    exact ⟨_, hmem, if_pos rfl⟩

theorem Event.Thoughtless.thoughts {e : Event} (h : e.Thoughtless) (key : ReasoningKey) :
    thoughts key [e] = [] := by
  simp [ModelStream.thoughts, h.thought key]

theorem Event.Thoughtless.blockEnds {e : Event} (h : e.Thoughtless) : blockEnds [e] = [] := by
  simp [ModelStream.blockEnds, h.blockEnd]

/-- An end that stands in a list with one more event is that event, or was there before. -/
theorem split_concat {events before after : List Event} {e x : Event} (h : events ++ [e] = before ++ x :: after) :
    (before = events ∧ x = e ∧ after = []) ∨ ∃ rest, after = rest ++ [e] ∧ events = before ++ x :: rest := by
  rcases after.eq_nil_or_concat' with rfl | ⟨rest, last, rfl⟩
  · obtain ⟨rfl, hx⟩ := List.append_inj' h rfl
    exact .inl ⟨rfl, (List.singleton_inj.1 hx).symm, rfl⟩
  · rw [← List.cons_append, ← List.append_assoc] at h
    obtain ⟨hevents, hlast⟩ := List.append_inj' h rfl
    exact .inr ⟨rest, by rw [List.singleton_inj.1 hlast], hevents⟩

/-! ## Operations of the board -/

namespace ReasoningBoard

/-- The text of the block of a key, if it is open. -/
def textOf (b : ReasoningBoard) (key : ReasoningKey) : String := ((Ordered.get? b.blocks key).getD {}).text

theorem textOf_update_self (b : ReasoningBoard) (key : ReasoningKey) (change : ReasoningBlock → ReasoningBlock) :
    (b.update key change).textOf key = (change ((Ordered.get? b.blocks key).getD {})).text := by
  simp [textOf, update]

theorem textOf_update_of_ne {key other : ReasoningKey} (h : other ≠ key) (b : ReasoningBoard)
    (change : ReasoningBlock → ReasoningBlock) : (b.update key change).textOf other = b.textOf other := by
  simp [textOf, update, Ordered.get?_put_of_ne h]

/-- A change of the metadata alone. -/
theorem textOf_update {change : ReasoningBlock → ReasoningBlock} (h : ∀ block, (change block).text = block.text)
    (b : ReasoningBoard) (key other : ReasoningKey) : (b.update key change).textOf other = b.textOf other := by
  by_cases hkey : other = key
  · rw [hkey, textOf_update_self, h]
    rfl
  · exact textOf_update_of_ne hkey b change

@[simp] theorem textOf_begin (b : ReasoningBoard) (key other : ReasoningKey) (seed : Json.Fields) :
    (b.begin key seed).textOf other = b.textOf other := by
  refine textOf_update ?_ b key other
  exact fun _ => rfl

@[simp] theorem textOf_appendMetadata (b : ReasoningBoard) (key other : ReasoningKey) (field fragment : String) :
    (b.appendMetadata key field fragment).textOf other = b.textOf other := by
  refine textOf_update ?_ b key other
  exact fun _ => rfl

theorem hasEnded_iff (b : ReasoningBoard) (key : ReasoningKey) : b.hasEnded key = true ↔ key ∈ b.ended := by
  simp [hasEnded]

theorem push_none {b c : ReasoningBoard} {key : ReasoningKey} {segment : String} (h : b.push key segment = (none, c)) :
    c = b := by
  unfold push at h
  simp only at h
  split at h
  · cases h
    rfl
  · cases h

/-- A push that gives something out adds it to a block that has not ended. -/
theorem push_some {b c : ReasoningBoard} {key : ReasoningKey} {segment : String} {e : Event}
    (h : b.push key segment = (some e, c)) :
    key ∉ b.ended ∧ Text.trimmed segment ≠ "" ∧ e = .reasoning (Text.trimmed segment) key ∧ c.ended = b.ended ∧
      c.textOf key = b.textOf key ++ Text.trimmed segment ∧ ∀ other, other ≠ key → c.textOf other = b.textOf other := by
  unfold push at h
  simp only at h
  split at h
  · cases h
  · next hgo =>
    cases h
    rw [Bool.or_eq_true, not_or, hasEnded_iff] at hgo
    obtain ⟨htext, hended⟩ := hgo
    refine ⟨hended, by simpa using htext, rfl, rfl, ?_, fun other hother => textOf_update_of_ne hother ..⟩
    rw [textOf_update_self]
    rfl

theorem textOf_erase (b : ReasoningBoard) (key other : ReasoningKey) :
    ({ b with blocks := Ordered.erase b.blocks key } : ReasoningBoard).textOf other =
      if other = key then "" else b.textOf other := by
  by_cases h : other = key
  · subst h
    simp [textOf]
  · simp [textOf, Ordered.get?_erase_of_ne h, h]

/-- Ending a block in silence changes no text: the block has ended before, or has nothing to say. -/
theorem finish_none {b c : ReasoningBoard} {key : ReasoningKey} {payload : Json.Fields}
    (h : b.finish key payload = (none, c)) :
    c.ended = b.ended ∧ (∀ other, c.textOf other = b.textOf other) ∧ (key ∉ b.ended → b.textOf key = "") := by
  unfold finish at h
  split at h
  · next hended =>
    cases h
    exact ⟨rfl, fun _ => rfl, fun hkey => (hkey ((hasEnded_iff _ _).1 hended)).elim⟩
  · split at h
    · next hget =>
      cases h
      exact ⟨rfl, fun _ => rfl, fun _ => by simp [textOf, hget]⟩
    · next block hget =>
      simp only at h
      split at h
      · next hempty =>
        cases h
        have htext : b.textOf key = "" := by simpa [textOf, hget] using hempty
        refine ⟨rfl, fun other => ?_, fun _ => htext⟩
        rw [textOf_erase]
        split
        · next hother => rw [hother, htext]
        · rfl
      · cases h

/-- A block that ends has something to say, says it whole, and has it in its metadata. -/
theorem finish_some {b c : ReasoningBoard} {key : ReasoningKey} {payload : Json.Fields} {e : Event}
    (h : b.finish key payload = (some e, c)) :
    key ∉ b.ended ∧ b.textOf key ≠ "" ∧ c.ended = key :: b.ended ∧
      (∀ other, other ≠ key → c.textOf other = b.textOf other) ∧
      ∃ metadata, e = .reasoningEnd (b.textOf key) metadata ∧
        Ordered.get? metadata "text" = some (.str (b.textOf key)) := by
  unfold finish at h
  split at h
  · cases h
  · next hended =>
    split at h
    · cases h
    · next block hget =>
      simp only at h
      split at h
      · cases h
      · next hsome =>
        cases h
        rw [hasEnded_iff] at hended
        have htext : b.textOf key = block.text := by simp [textOf, hget]
        refine ⟨hended, by simpa [htext] using hsome, rfl, fun other hother => ?_, _, by rw [htext], ?_⟩
        · exact (textOf_erase b key other).trans (if_neg hother)
        · rw [Ordered.get?_put_self, htext]

/-! ## The end of a stream -/

/-- Nothing is left to be said under this key: its block has ended, or is empty. -/
def Settled (b : ReasoningBoard) (key : ReasoningKey) : Prop := key ∈ b.ended ∨ b.textOf key = ""

theorem Settled.finish {b c : ReasoningBoard} {key other : ReasoningKey} {payload : Json.Fields}
    {event : Option Event} (h : b.finish key payload = (event, c)) (hkey : other = key ∨ b.Settled other) :
    c.Settled other := by
  cases event with
  | none =>
    obtain ⟨hended, htext, hempty⟩ := finish_none h
    rw [Settled, hended, htext]
    rcases hkey with rfl | hkey
    · by_cases hmem : other ∈ b.ended
      · exact .inl hmem
      · exact .inr (hempty hmem)
    · exact hkey
  | some e =>
    obtain ⟨-, -, hended, hother, -⟩ := finish_some h
    rw [Settled, hended, List.mem_cons]
    by_cases hne : other = key
    · exact .inl (.inl hne)
    · rw [hother other hne]
      exact (hkey.resolve_left hne).imp_left .inr

theorem settled_finishAll (keys : List ReasoningKey) {b : ReasoningBoard} {key : ReasoningKey}
    (h : key ∈ keys ∨ b.Settled key) : (finishAll keys b).2.Settled key := by
  induction keys generalizing b with
  | nil => exact h.resolve_left List.not_mem_nil
  | cons first keys ih =>
    rcases hfinish : b.finish first [] with ⟨event, c⟩
    simp only [finishAll, hfinish]
    refine ih ?_
    rcases h with h | h
    · rcases List.mem_cons.1 h with rfl | h
      · exact .inr (.finish hfinish (.inl rfl))
      · exact .inl h
    · exact .inr (.finish hfinish (.inr h))

theorem finishAll_ends (keys : List ReasoningKey) (b : ReasoningBoard) :
    ∀ e ∈ (finishAll keys b).1, e.blockEnd?.isSome := by
  induction keys generalizing b with
  | nil => exact fun _ he => nomatch he
  | cons key keys ih =>
    intro e he
    rcases hfinish : b.finish key [] with ⟨event, c⟩
    simp only [finishAll, hfinish, List.mem_append, Option.mem_toList] at he
    rcases he with rfl | he
    · obtain ⟨text, metadata, rfl⟩ := finish_event hfinish
      rfl
    · exact ih c e he

/-- A flush gives out ends of blocks only. -/
theorem flush_ends (b : ReasoningBoard) : ∀ e ∈ b.flush.1, e.blockEnd?.isSome := finishAll_ends _ b

/-- A flush leaves nothing to be said. -/
theorem settled_flush (b : ReasoningBoard) (key : ReasoningKey) : b.flush.2.Settled key := by
  refine settled_finishAll _ ?_
  cases hget : Ordered.get? b.blocks key with
  | none => exact .inr (.inr (by simp [textOf, hget]))
  | some block => exact .inl (List.mem_map.2 ⟨_, Ordered.mem_of_get? hget, rfl⟩)

/-! ## What the events so far say of the board -/

/-- The board after these events: the text of a block that has not ended is all that its key said, each
end among the events is the whole text of its key, and nothing more is said under that key. -/
structure Reflects (events : List Event) (b : ReasoningBoard) : Prop where
  text : ∀ key, key ∉ b.ended → b.textOf key = String.join (thoughts key events)
  once : b.ended.Nodup
  spoken : ∀ key ∈ b.ended, thoughts key events ≠ []
  count : (blockEnds events).length = b.ended.length
  ended : ∀ before text metadata after, events = before ++ .reasoningEnd text metadata :: after →
    ∃ key, b.ended.reverse[(blockEnds before).length]? = some key ∧ text = String.join (thoughts key before) ∧
      Ordered.get? metadata "text" = some (.str text) ∧ thoughts key after = []
  plain : ∀ text key, Event.reasoning text key ∈ events → text ≠ "" ∧ Text.trimmed text = text

namespace Reflects

variable {events : List Event} {b c : ReasoningBoard}

theorem start : Reflects [] {} where
  text := fun _ _ => rfl
  once := List.nodup_nil
  spoken := fun _ hkey => nomatch hkey
  count := rfl
  ended := fun before _ _ _ h => by simp at h
  plain := fun _ _ he => nomatch he

/-- What changes no text and ends no block. -/
theorem of_eq (h : Reflects events b) (hended : c.ended = b.ended) (htext : ∀ key, c.textOf key = b.textOf key) :
    Reflects events c where
  text := fun key hkey => (htext key).trans (h.text key (hended ▸ hkey))
  once := hended ▸ h.once
  spoken := hended ▸ h.spoken
  count := hended ▸ h.count
  ended := hended ▸ h.ended
  plain := h.plain

/-- One more event that has nothing to do with reasoning. -/
theorem aside (h : Reflects events b) {e : Event} (he : e.Thoughtless) : Reflects (events ++ [e]) b where
  text := by simpa [he.thoughts] using h.text
  once := h.once
  spoken := by simpa [he.thoughts] using h.spoken
  count := by simpa [he.blockEnds] using h.count
  ended := by
    intro before text metadata after hsplit
    rcases split_concat hsplit with ⟨-, rfl, -⟩ | ⟨rest, rfl, hevents⟩
    · cases he.blockEnd
    · obtain ⟨key, hkey, htext, hmeta, hafter⟩ := h.ended before text metadata rest hevents
      exact ⟨key, hkey, htext, hmeta, by simp [hafter, he.thoughts]⟩
  plain := by
    intro text key hmem
    rcases List.mem_append.1 hmem with hmem | hmem
    · exact h.plain text key hmem
    · cases List.mem_singleton.1 hmem
      simpa [Event.thought?] using he.thought key

theorem push (h : Reflects events b) {key : ReasoningKey} {segment : String} {event : Option Event}
    (hpush : b.push key segment = (event, c)) : Reflects (events ++ event.toList) c := by
  cases event with
  | none =>
    rw [push_none hpush, Option.toList_none, List.append_nil]
    exact h
  | some e =>
    obtain ⟨hnew, hsome, rfl, hended, hself, hother⟩ := push_some hpush
    have hpiece : ∀ k, thoughts k [.reasoning (Text.trimmed segment) key] =
        if key = k then [Text.trimmed segment] else [] := by
      intro k
      by_cases hk : key = k <;> simp [thoughts, Event.thought?, hk]
    constructor
    case text =>
      intro k hk
      rw [hended] at hk
      by_cases hkey : key = k
      · subst hkey
        rw [hself, h.text key hk]
        simp [hpiece, String.join_append]
      · rw [hother k (Ne.symm hkey), h.text k hk]
        simp [hpiece, hkey]
    case once =>
      rw [hended]
      exact h.once
    case spoken =>
      intro k hk
      rw [hended] at hk
      simp [h.spoken k hk]
    case count =>
      rw [hended, Option.toList_some, blockEnds_append, List.length_append, h.count]
      rfl
    case ended =>
      intro before text metadata after hsplit
      rcases split_concat hsplit with ⟨-, he, -⟩ | ⟨rest, rfl, hevents⟩
      · cases he
      · obtain ⟨k, hk, htext, hmeta, hafter⟩ := h.ended before text metadata rest hevents
        -- a block that has ended takes no more pieces
        have hne : key ≠ k := by
          rintro rfl
          exact hnew (List.mem_reverse.1 (List.mem_of_getElem? hk))
        rw [hended]
        exact ⟨k, hk, htext, hmeta, by simp [hafter, hpiece, hne]⟩
    case plain =>
      intro text k hmem
      rcases List.mem_append.1 hmem with hmem | hmem
      · exact h.plain text k hmem
      · cases List.mem_singleton.1 hmem
        exact ⟨hsome, Text.trimmed_trimmed segment⟩

theorem finish (h : Reflects events b) {key : ReasoningKey} {payload : Json.Fields} {event : Option Event}
    (hfinish : b.finish key payload = (event, c)) : Reflects (events ++ event.toList) c := by
  cases event with
  | none =>
    obtain ⟨hended, htext, -⟩ := finish_none hfinish
    rw [Option.toList_none, List.append_nil]
    exact h.of_eq hended htext
  | some e =>
    obtain ⟨hnew, hsome, hended, hother, metadata, rfl, hmetadata⟩ := finish_some hfinish
    have hsilent : ∀ k, thoughts k [.reasoningEnd (b.textOf key) metadata] = [] := fun _ => rfl
    constructor
    case text =>
      intro k hk
      rw [hended, List.mem_cons, not_or] at hk
      rw [hother k hk.1, h.text k hk.2]
      simp [hsilent]
    case once =>
      rw [hended]
      exact List.nodup_cons.2 ⟨hnew, h.once⟩
    case spoken =>
      intro k hk
      rw [Option.toList_some, thoughts_append, hsilent, List.append_nil]
      rw [hended] at hk
      rcases List.mem_cons.1 hk with rfl | hk
      · intro hnone
        exact hsome (by rw [h.text k hnew, hnone]; rfl)
      · exact h.spoken k hk
    case count =>
      rw [hended, Option.toList_some, blockEnds_append, List.length_append, h.count]
      rfl
    case ended =>
      intro before text other after hsplit
      rw [hended, List.reverse_cons]
      rcases split_concat hsplit with ⟨rfl, he, rfl⟩ | ⟨rest, rfl, hevents⟩
      · cases he
        refine ⟨key, ?_, h.text key hnew, hmetadata, rfl⟩
        rw [h.count, ← List.length_reverse, List.getElem?_concat_length]
      · obtain ⟨k, hk, htext, hmeta, hafter⟩ := h.ended before text other rest hevents
        refine ⟨k, ?_, htext, hmeta, by simp [hafter, hsilent]⟩
        rw [List.getElem?_append_left (List.getElem?_eq_some_iff.1 hk).1]
        exact hk
    case plain =>
      intro text k hmem
      rcases List.mem_append.1 hmem with hmem | hmem
      · exact h.plain text k hmem
      · cases List.mem_singleton.1 hmem

/-- Calls have nothing to do with reasoning. -/
theorem calls (h : Reflects events b) (calls : List ToolCall) : Reflects (events ++ calls.map .toolCall) b := by
  induction calls generalizing events with
  | nil => simpa using h
  | cons call calls ih =>
    rw [List.map_cons, List.append_cons]
    exact ih (h.aside ⟨fun _ => rfl, rfl⟩)

/-- What was said under a settled key has also ended. -/
theorem mem_ended (h : Reflects events b) {key : ReasoningKey} (hsettled : b.Settled key)
    (hsaid : thoughts key events ≠ []) : key ∈ b.ended := by
  by_contra hopen
  have hjoin : String.join (thoughts key events) = "" := by
    rw [← h.text key hopen]
    exact hsettled.resolve_left hopen
  cases hsay : thoughts key events with
  | nil => exact hsaid hsay
  | cons text more =>
    -- the first piece is not empty, so that the whole is not either
    have hmem : .reasoning text key ∈ events := mem_thoughts.1 (by simp [hsay])
    rw [hsay, String.join_cons, String.append_eq_empty_iff] at hjoin
    exact (h.plain text key hmem).1 hjoin.1

end Reflects

end ReasoningBoard

/-! ## Pieces and ends together -/

/-- Pieces and ends of reasoning belong together. `keys` are the keys under which something is said,
each once, and the blocks end in their order: one end for each key, with all that the key says as its
text and in its metadata, and after everything that the key says. -/
structure Paired (keys : List ReasoningKey) (events : List Event) : Prop where
  once : keys.Nodup
  spoken : ∀ key, key ∈ keys ↔ ∃ text, Event.reasoning text key ∈ events
  count : (blockEnds events).length = keys.length
  ended : ∀ before text metadata after, events = before ++ .reasoningEnd text metadata :: after →
    ∃ key, keys[(blockEnds before).length]? = some key ∧ text = String.join (thoughts key events) ∧
      Ordered.get? metadata "text" = some (.str text) ∧ ∀ late, Event.reasoning late key ∉ after
  plain : ∀ text key, Event.reasoning text key ∈ events → text ≠ "" ∧ Text.trimmed text = text

theorem ReasoningBoard.Reflects.paired {events : List Event} {b : ReasoningBoard} (h : b.Reflects events)
    (hsettled : ∀ key, b.Settled key) : Paired b.ended.reverse events where
  once := List.nodup_reverse.2 h.once
  spoken := by
    intro key
    rw [List.mem_reverse]
    constructor
    · intro hkey
      obtain ⟨text, htext⟩ := List.exists_mem_of_ne_nil _ (h.spoken key hkey)
      exact ⟨text, mem_thoughts.1 htext⟩
    · rintro ⟨text, htext⟩
      exact h.mem_ended (hsettled key) (List.ne_nil_of_mem (mem_thoughts.2 htext))
  count := by rw [h.count, List.length_reverse]
  ended := by
    rintro before text metadata after rfl
    obtain ⟨key, hkey, htext, hmetadata, hafter⟩ := h.ended before text metadata after rfl
    have hwhole : thoughts key (before ++ .reasoningEnd text metadata :: after) = thoughts key before := by
      have hend : thoughts key [.reasoningEnd text metadata] = [] := rfl
      rw [List.append_cons, thoughts_append, thoughts_append, hend, hafter, List.append_nil, List.append_nil]
    refine ⟨key, hkey, by rw [hwhole, htext], hmetadata, fun late hlate => ?_⟩
    have hnone : late ∈ thoughts key after := mem_thoughts.2 hlate
    rw [hafter] at hnone
    cases hnone
  plain := h.plain

/-! ## Moves -/

namespace Boards

variable {b c : Boards} {events more : List Event}

theorem Move.reflects (h : Move b more c) (hb : b.reasoning.Reflects events) :
    c.reasoning.Reflects (events ++ more) := by
  cases h with
  | tell he => exact hb.aside he.thoughtless
  | learn | draft | discard | mark =>
    rw [List.append_nil]
    exact hb
  | complete => exact hb.calls _
  | begin key seed =>
    rw [List.append_nil]
    exact hb.of_eq rfl fun _ => ReasoningBoard.textOf_begin ..
  | annotate key field fragment =>
    rw [List.append_nil]
    exact hb.of_eq rfl fun _ => ReasoningBoard.textOf_appendMetadata ..
  | push h => exact hb.push h
  | finish h => exact hb.finish h

theorem Moves.reflects (h : Moves b more c) (hb : b.reasoning.Reflects events) :
    c.reasoning.Reflects (events ++ more) := by
  induction h generalizing events with
  | nil => rwa [List.append_nil]
  | cons move _ ih =>
    rw [← List.append_assoc]
    exact ih (move.reflects hb)

end Boards

end ModelStream
