/-
Tool blocks of an Anthropic stream, told from its signals alone: which have begun, which are open, and
the pieces of arguments that came for each. In an orderly stream, in which blocks begin at new indices
under new ids and only open blocks take arguments, the call board is known from this history: its drafts
are the open blocks with their arguments joined, and the ids given out are those of blocks that have
stopped (`Holds`). What a block's beginning, a piece of arguments and a stop do to the board keeps it so.
-/
import Mathlib.Data.List.Induction
import Mathlib.Data.List.Nodup
import ModelStream.Anthropic.Decoder
import ModelStream.Proofs.CallBoard.Drain
import ModelStream.Proofs.Decoder.Moves

namespace ModelStream.Anthropic

/-! ## Histories of signals -/

/-- A tool block as it begins. -/
structure ToolBlock where
  index : Nat
  id : String
  name : String
  deriving Repr, DecidableEq

namespace Signal

/-- The tool block that a signal begins. -/
def begins? : Signal → Option ToolBlock
  | .blockStart index block =>
    match Block.ofValue block with
    | .ok (.toolUse id name) => some { index, id, name }
    | _ => none
  | _ => none

/-- The index for which a signal has a piece of arguments, and the piece. -/
def fragment? : Signal → Option (Nat × String)
  | .blockDelta index (.arguments fragment) => some (index, fragment)
  | _ => none

end Signal

/-- The tool blocks that have begun, in order. -/
def begun (history : List Signal) : List ToolBlock := history.filterMap Signal.begins?

/-- What a signal does to the open tool blocks. -/
def follow (blocks : List ToolBlock) : Signal → List ToolBlock
  | .blockStop index => blocks.filter (·.index ≠ index)
  | s => blocks ++ s.begins?.toList

/-- The tool blocks that have begun and not stopped. -/
def openBlocks (history : List Signal) : List ToolBlock := history.foldl follow []

/-- The pieces of arguments for an index, joined in order. -/
def argumentsAt (index : Nat) (history : List Signal) : String :=
  String.join (history.filterMap fun s => s.fragment?.bind fun f => if f.1 = index then some f.2 else none)

/-- The call of a block, with the arguments that have come for it. -/
def ToolBlock.call (b : ToolBlock) (history : List Signal) : ToolCall :=
  { id := b.id, name := b.name, arguments := parseArguments (argumentsAt b.index history)
    rawArguments := argumentsAt b.index history }

/-- Arguments come for open blocks only, when these are open at the start. -/
def Fed (blocks : List ToolBlock) : List Signal → Prop
  | [] => True
  | s :: more => (∀ f ∈ s.fragment?, ∃ b ∈ blocks, b.index = f.1) ∧ Fed (follow blocks s) more

instance : (blocks : List ToolBlock) → (history : List Signal) → Decidable (Fed blocks history)
  | _, [] => .isTrue trivial
  | blocks, s :: more =>
    have := instDecidableFed (follow blocks s) more
    inferInstanceAs (Decidable (_ ∧ _))

/-- Tool blocks begin at new indices, under new ids and with names, and arguments come for open blocks
only. -/
structure Orderly (history : List Signal) : Prop where
  indices : ((begun history).map (·.index)).Nodup
  ids : ((begun history).map (·.id)).Nodup
  named : ∀ b ∈ begun history, b.id ≠ "" ∧ b.name ≠ ""
  fed : Fed [] history

instance (history : List Signal) : Decidable (Orderly history) :=
  decidable_of_iff
    (((begun history).map (·.index)).Nodup ∧ ((begun history).map (·.id)).Nodup ∧
      (∀ b ∈ begun history, b.id ≠ "" ∧ b.name ≠ "") ∧ Fed [] history)
    ⟨fun ⟨hindices, hids, hnamed, hfed⟩ => ⟨hindices, hids, hnamed, hfed⟩,
      fun h => ⟨h.indices, h.ids, h.named, h.fed⟩⟩

/-! ## One more signal -/

variable {history : List Signal} {s : Signal} {b : ToolBlock}

theorem Signal.fragment?_of_begins (hs : s.begins? = some b) : s.fragment? = none := by
  cases s with
  | blockStart => rfl
  | _ => cases hs

theorem follow_of_begins (hs : s.begins? = some b) (blocks : List ToolBlock) : follow blocks s = blocks ++ [b] := by
  cases s with
  | blockStart => simp [follow, hs]
  | _ => cases hs

theorem follow_of_fragment {f : Nat × String} (hs : s.fragment? = some f) (blocks : List ToolBlock) :
    follow blocks s = blocks := by
  cases s with
  | blockDelta => exact List.append_nil _
  | _ => cases hs

theorem begun_append (history later : List Signal) : begun (history ++ later) = begun history ++ begun later :=
  List.filterMap_append

theorem begun_concat (history : List Signal) (s : Signal) : begun (history ++ [s]) = begun history ++ s.begins?.toList := by
  rw [begun_append]
  cases h : s.begins? <;> simp [begun, h]

theorem openBlocks_concat (history : List Signal) (s : Signal) :
    openBlocks (history ++ [s]) = follow (openBlocks history) s := by
  simp [openBlocks, List.foldl_append]

theorem argumentsAt_concat (index : Nat) (history : List Signal) (s : Signal) :
    argumentsAt index (history ++ [s]) = argumentsAt index history ++
      (s.fragment?.elim "" fun f => if f.1 = index then f.2 else "") := by
  rw [argumentsAt, argumentsAt, List.filterMap_append, String.join_append]
  cases h : s.fragment? with
  | none => simp [h]
  | some f => by_cases hf : f.1 = index <;> simp [h, hf]

/-- An open block has begun. -/
theorem openBlocks_sublist (history : List Signal) : (openBlocks history).Sublist (begun history) := by
  induction history using List.reverseRecOn with
  | nil => exact List.Sublist.slnil
  | append_singleton history s ih =>
    rw [openBlocks_concat, begun_concat]
    unfold follow
    split
    · exact List.filter_sublist.trans (ih.trans (List.sublist_append_left ..))
    · exact ih.append (List.Sublist.refl _)

theorem mem_begun_of_open (h : b ∈ openBlocks history) : b ∈ begun history := (openBlocks_sublist history).subset h

theorem fed_append (before after : List Signal) (blocks : List ToolBlock) :
    Fed blocks (before ++ after) ↔ Fed blocks before ∧ Fed (before.foldl follow blocks) after := by
  induction before generalizing blocks with
  | nil => simp [Fed]
  | cons s before ih => simp [Fed, ih, and_assoc]

namespace Orderly

theorem before {later : List Signal} (h : Orderly (history ++ later)) : Orderly history := by
  have hbegun := begun_append history later
  refine ⟨?_, ?_, fun b hb => h.named b ?_, ((fed_append history later []).1 h.fed).1⟩
  · have hindices := h.indices
    rw [hbegun, List.map_append] at hindices
    exact hindices.of_append_left
  · have hids := h.ids
    rw [hbegun, List.map_append] at hids
    exact hids.of_append_left
  · rw [hbegun]
    exact List.mem_append_left _ hb

theorem eq_of_index (h : Orderly history) {c : ToolBlock} (hb : b ∈ begun history) (hc : c ∈ begun history)
    (heq : b.index = c.index) : b = c := List.inj_on_of_nodup_map h.indices hb hc heq

theorem eq_of_id (h : Orderly history) {c : ToolBlock} (hb : b ∈ begun history) (hc : c ∈ begun history)
    (heq : b.id = c.id) : b = c := List.inj_on_of_nodup_map h.ids hb hc heq

/-- Arguments that come now are for an open block. -/
theorem fed_now (h : Orderly (history ++ [s])) {index : Nat} {fragment : String}
    (hs : s.fragment? = some (index, fragment)) : ∃ b ∈ openBlocks history, b.index = index :=
  ((fed_append history [s] []).1 h.fed).2.1 _ hs

/-- The block that begins now has not begun before. -/
theorem fresh (h : Orderly (history ++ [s])) (hs : s.begins? = some b) :
    ∀ c ∈ begun history, c.index ≠ b.index ∧ c.id ≠ b.id := by
  have hbegun : begun (history ++ [s]) = begun history ++ [b] := by
    rw [begun_concat, hs]
    rfl
  have hindices := h.indices
  have hids := h.ids
  rw [hbegun, List.map_append, List.nodup_append] at hindices hids
  exact fun c hc =>
    ⟨hindices.2.2 _ (List.mem_map.2 ⟨c, hc, rfl⟩) _ (by simp), hids.2.2 _ (List.mem_map.2 ⟨c, hc, rfl⟩) _ (by simp)⟩

/-- No arguments have come for an index at which no block has begun. -/
theorem argumentsAt_eq_empty (h : Orderly history) {index : Nat} (hindex : ∀ b ∈ begun history, b.index ≠ index) :
    argumentsAt index history = "" := by
  induction history using List.reverseRecOn with
  | nil => rfl
  | append_singleton history s ih =>
    rw [begun_concat] at hindex
    rw [argumentsAt_concat, ih h.before fun b hb => hindex b (List.mem_append_left _ hb)]
    cases hs : s.fragment? with
    | none => rfl
    | some f =>
      obtain ⟨b, hopen, hb⟩ := h.fed_now hs
      have hne : f.1 ≠ index := hb ▸ hindex b (List.mem_append_left _ (mem_begun_of_open hopen))
      simp [hne]

end Orderly

/-! ## The call board of a history -/

/-- The draft of an open block. -/
def ToolBlock.draft (b : ToolBlock) (history : List Signal) : CallDraft :=
  { arguments := argumentsAt b.index history, id := some b.id, name := some b.name }

/-- The drafts are the open blocks, in order, and the ids given out are those of blocks that stopped. -/
structure Holds (history : List Signal) (c : CallBoard) : Prop where
  sorted : Ordered.Sorted c.drafts
  drafts : ∀ p, p ∈ c.drafts ↔ ∃ b ∈ openBlocks history, p = (.index b.index, b.draft history)
  given : ∀ id ∈ c.given, ∃ b ∈ begun history, b ∉ openBlocks history ∧ b.id = id

namespace Holds

variable {c : CallBoard}

theorem start : Holds [] {} where
  sorted := List.Pairwise.nil
  drafts := by simp [openBlocks]
  given := by simp

theorem get?_of_open (h : Holds history c) (hb : b ∈ openBlocks history) :
    c.get? (.index b.index) = some (b.draft history) :=
  (Ordered.get?_eq_some_iff h.sorted).2 ((h.drafts _).2 ⟨b, hb, rfl⟩)

theorem get?_eq_none (h : Holds history c) {index : Nat} (hindex : ∀ b ∈ openBlocks history, b.index ≠ index) :
    c.get? (.index index) = none := by
  cases hget : c.get? (.index index) with
  | none => rfl
  | some d =>
    obtain ⟨b, hb, heq⟩ := (h.drafts _).1 (Ordered.mem_of_get? hget)
    obtain ⟨hkey, -⟩ := Prod.mk.inj heq
    exact (hindex b hb (CallKey.index.inj hkey).symm).elim

/-- A signal that begins nothing, feeds nothing and stops no open block. -/
theorem aside (h : Holds history c) (hbegins : s.begins? = none) (hfragment : s.fragment? = none)
    (hopen : follow (openBlocks history) s = openBlocks history) : Holds (history ++ [s]) c where
  sorted := h.sorted
  drafts p := by
    rw [openBlocks_concat, hopen, h.drafts]
    simp [ToolBlock.draft, argumentsAt_concat, hfragment]
  given id hid := by
    rw [openBlocks_concat, hopen, begun_concat, hbegins]
    simpa using h.given id hid

theorem begin (h : Holds history c) (ho : Orderly (history ++ [s])) (hs : s.begins? = some b) :
    Holds (history ++ [s]) (c.update (.index b.index) fun d => { d with id := some b.id, name := some b.name }) := by
  have hfollow : openBlocks (history ++ [s]) = openBlocks history ++ [b] := by
    rw [openBlocks_concat, follow_of_begins hs]
  have hfragment := Signal.fragment?_of_begins hs
  -- a new index has no draft, and no arguments have come for it
  have hfresh := ho.fresh hs
  have hnone : c.get? (.index b.index) = none :=
    h.get?_eq_none fun other hother => (hfresh other (mem_begun_of_open hother)).1
  have hempty : argumentsAt b.index history = "" := ho.before.argumentsAt_eq_empty fun other ho => (hfresh other ho).1
  have hdraft : ∀ other : ToolBlock, other.draft (history ++ [s]) = other.draft history := by
    intro other
    simp [ToolBlock.draft, argumentsAt_concat, hfragment]
  refine ⟨CallBoard.sorted_update h.sorted .., fun p => ?_, fun id hid => ?_⟩
  · simp only [CallBoard.update, hnone, Option.getD_none, Ordered.mem_put_iff h.sorted, hfollow, List.mem_append,
      List.mem_singleton, h.drafts, hdraft]
    have hself : (CallKey.index b.index, ({ id := some b.id, name := some b.name } : CallDraft)) =
        (.index b.index, b.draft history) := by
      rw [ToolBlock.draft, hempty]
    rw [hself]
    constructor
    · rintro (rfl | ⟨⟨other, hother, rfl⟩, -⟩)
      · exact ⟨b, .inr rfl, rfl⟩
      · exact ⟨other, .inl hother, rfl⟩
    · rintro ⟨other, hother | rfl, rfl⟩
      · exact .inr ⟨⟨other, hother, rfl⟩, fun heq =>
          (hfresh other (mem_begun_of_open hother)).1 (CallKey.index.inj heq)⟩
      · exact .inl rfl
  · obtain ⟨other, hother, hnot, rfl⟩ := h.given id hid
    refine ⟨other, by rw [begun_concat]; exact List.mem_append_left _ hother, ?_, rfl⟩
    rw [hfollow, List.mem_append, List.mem_singleton, not_or]
    exact ⟨hnot, fun heq => (hfresh other hother).2 (heq ▸ rfl)⟩

theorem feed (h : Holds history c) (ho : Orderly (history ++ [s])) {index : Nat} {fragment : String}
    (hs : s.fragment? = some (index, fragment)) : Holds (history ++ [s]) (c.append (.index index) fragment) := by
  have hfollow : openBlocks (history ++ [s]) = openBlocks history := by
    rw [openBlocks_concat, follow_of_fragment hs]
  obtain ⟨b, hb, rfl⟩ := ho.fed_now hs
  have hdraft : ∀ other : ToolBlock, other.draft (history ++ [s]) =
      if other.index = b.index then { other.draft history with arguments := argumentsAt b.index history ++ fragment }
      else other.draft history := by
    intro other
    by_cases hother : other.index = b.index
    · simp [ToolBlock.draft, argumentsAt_concat, hs, hother]
    · simp [ToolBlock.draft, argumentsAt_concat, hs, hother, Ne.symm hother]
  refine ⟨CallBoard.sorted_update h.sorted .., fun p => ?_, fun id hid => ?_⟩
  · simp only [CallBoard.append, CallBoard.update, h.get?_of_open hb, Option.getD_some,
      Ordered.mem_put_iff h.sorted, hfollow, h.drafts, hdraft]
    constructor
    · rintro (rfl | ⟨⟨other, hother, rfl⟩, hne⟩)
      · exact ⟨b, hb, by rw [if_pos rfl]; rfl⟩
      · exact ⟨other, hother, by rw [if_neg fun heq => hne (congrArg _ heq)]⟩
    · rintro ⟨other, hother, rfl⟩
      by_cases heq : other.index = b.index
      · obtain rfl := ho.before.eq_of_index (mem_begun_of_open hother) (mem_begun_of_open hb) heq
        exact .inl (by rw [if_pos rfl]; rfl)
      · rw [if_neg heq]
        exact .inr ⟨⟨other, hother, rfl⟩, fun hkey => heq (CallKey.index.inj hkey)⟩
  · obtain ⟨other, hother, hnot, rfl⟩ := h.given id hid
    exact ⟨other, by rw [begun_concat]; exact List.mem_append_left _ hother, by rwa [hfollow], rfl⟩

/-- An open block that stops is given out with its own id, name and arguments. -/
theorem stop (h : Holds history c) (ho : Orderly history) (hb : b ∈ openBlocks history) :
    ∃ c', c.complete (.index b.index) = (some (b.call history), c') ∧
      Holds (history ++ [.blockStop b.index]) c' := by
  have hbegun := mem_begun_of_open hb
  obtain ⟨hid, hname⟩ := ho.named b hbegun
  have hcallId : (b.draft history).callId (.index b.index) = b.id := by
    simp [CallDraft.callId, ToolBlock.draft, CallBoard.nonEmpty_some hid]
  -- the ids given out are those of other blocks, which have stopped
  have hnew : b.id ∉ c.given := by
    intro hgiven
    obtain ⟨other, hother, hnot, heq⟩ := h.given _ hgiven
    exact hnot (ho.eq_of_id hother hbegun heq ▸ hb)
  have hfollow : openBlocks (history ++ [.blockStop b.index]) = (openBlocks history).filter (·.index ≠ b.index) :=
    openBlocks_concat ..
  have hcomplete := CallBoard.complete_of_get? (h.get?_of_open hb) (hcallId ▸ hnew) (CallBoard.nonEmpty_some hname)
  rw [hcallId] at hcomplete
  refine ⟨_, hcomplete, Ordered.sorted_erase h.sorted _, fun p => ?_, fun id hid => ?_⟩
  · have hdraft : ∀ other : ToolBlock, other.draft (history ++ [.blockStop b.index]) = other.draft history := by
      intro other
      simp [ToolBlock.draft, argumentsAt_concat, Signal.fragment?]
    simp only [CallBoard.mark, CallBoard.discard, Ordered.mem_erase_iff, h.drafts, hfollow, List.mem_filter, hdraft]
    constructor
    · rintro ⟨⟨other, hother, rfl⟩, hne⟩
      exact ⟨other, ⟨hother, by simpa using hne⟩, rfl⟩
    · rintro ⟨other, ⟨hother, hne⟩, rfl⟩
      exact ⟨⟨other, hother, rfl⟩, by simpa using hne⟩
  · rw [begun_concat, hfollow]
    rcases List.mem_cons.1 hid with rfl | hid
    · exact ⟨b, List.mem_append_left _ hbegun, by simp, rfl⟩
    · obtain ⟨other, hother, hnot, rfl⟩ := h.given id hid
      exact ⟨other, List.mem_append_left _ hother, fun hmem => hnot (List.mem_of_mem_filter hmem), rfl⟩

end Holds

end ModelStream.Anthropic
