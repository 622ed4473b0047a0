/-
The flush at the end of a stream. However the boards were filled, their entries stand in key order
(`Boards.Moves.inOrder`), so the flush goes through them in that order; which calls it gives out can be
told from the boards as they stand before it (`CallBoard.due`), though each call that it gives out can
keep back a later one with the same id. The main statement is `Boards.finish_flushes`: the first end
gives out the calls that are due, then the ends of reasoning that are due, then the closing event, and
no end after it gives anything out.
-/
import Mathlib.Data.List.Basic
import ModelStream.Json.Printer
import ModelStream.Proofs.CallBoard.Drain
import ModelStream.Proofs.Closing
import ModelStream.Proofs.ReasoningBoard

namespace ModelStream

/-! ## The order of blocks -/

instance : IsStrictTotalOrder ReasoningKey fun a b => a < b where
  irrefl
    | .unnamed => id
    | .named s => String.lt_irrefl s
  trans
    | .unnamed, .named _, .named _, _, _ => trivial
    | .named _, .named _, .named _, h, k => String.lt_trans h k
  trichotomous
    | .unnamed, .unnamed, _, _ => rfl
    | .unnamed, .named _, h, _ => (h trivial).elim
    | .named _, .unnamed, _, k => (k trivial).elim
    | .named s, .named t, h, k => by rw [String.le_antisymm (String.not_lt.1 k) (String.not_lt.1 h)]

namespace CallBoard

variable {b : CallBoard}

theorem sorted_complete (h : Ordered.Sorted b.drafts) (key : CallKey) :
    Ordered.Sorted (b.complete key).2.drafts := by
  rcases hcomplete : b.complete key with ⟨_ | call, c⟩
  · rw [complete_none hcomplete]
    exact Ordered.sorted_erase h key
  · obtain ⟨d, -, -, -, -, rfl⟩ := complete_some hcomplete
    exact Ordered.sorted_erase h key

end CallBoard

namespace ReasoningBoard

variable {b : ReasoningBoard}

theorem sorted_update (h : Ordered.Sorted b.blocks) (key : ReasoningKey) (change : ReasoningBlock → ReasoningBlock) :
    Ordered.Sorted (b.update key change).blocks := Ordered.sorted_put h ..

theorem sorted_push (h : Ordered.Sorted b.blocks) (key : ReasoningKey) (segment : String) :
    Ordered.Sorted (b.push key segment).2.blocks := by
  unfold push
  simp only
  split
  · exact h
  · exact sorted_update h ..

theorem sorted_finish (h : Ordered.Sorted b.blocks) (key : ReasoningKey) (payload : Json.Fields) :
    Ordered.Sorted (b.finish key payload).2.blocks := by
  unfold finish
  split
  · exact h
  · split
    · exact h
    · simp only
      split <;> exact Ordered.sorted_erase h key

end ReasoningBoard

namespace Boards

/-- What is open stands in key order: calls by index and then by id, blocks by name with the unnamed
one first. -/
structure InOrder (b : Boards) : Prop where
  calls : Ordered.Sorted b.calls.drafts
  reasoning : Ordered.Sorted b.reasoning.blocks

theorem Move.inOrder {b c : Boards} {events : List Event} (h : Move b events c) (hb : b.InOrder) : c.InOrder := by
  obtain ⟨hcalls, hreasoning⟩ := hb
  cases h with
  | tell | learn | mark => exact ⟨hcalls, hreasoning⟩
  | draft key change => exact ⟨CallBoard.sorted_update hcalls key change, hreasoning⟩
  | discard key => exact ⟨Ordered.sorted_erase hcalls key, hreasoning⟩
  | @complete key call calls h =>
    refine ⟨?_, hreasoning⟩
    have hsorted := CallBoard.sorted_complete hcalls key
    rwa [h] at hsorted
  | begin key seed => exact ⟨hcalls, ReasoningBoard.sorted_update hreasoning key _⟩
  | annotate key field fragment => exact ⟨hcalls, ReasoningBoard.sorted_update hreasoning key _⟩
  | @push key segment event reasoning h =>
    refine ⟨hcalls, ?_⟩
    have hsorted := ReasoningBoard.sorted_push hreasoning key segment
    rwa [h] at hsorted
  | @finish key payload event reasoning h =>
    refine ⟨hcalls, ?_⟩
    have hsorted := ReasoningBoard.sorted_finish hreasoning key payload
    rwa [h] at hsorted

theorem Moves.inOrder {b c : Boards} {events : List Event} (h : Moves b events c) (hb : b.InOrder) : c.InOrder := by
  induction h with
  | nil => exact hb
  | cons move _ ih => exact ih (move.inOrder hb)

end Boards

/-! ## Calls that are due -/

namespace CallBoard

/-- The call of a draft is due: its id is not given out yet, and no draft before it has a call with
that id. -/
def Due (b : CallBoard) (key : CallKey) (call : ToolCall) : Prop :=
  call.id ∉ b.given ∧ ∀ p ∈ b.drafts, p.1 < key → ∀ other ∈ p.2.call? p.1, other.id ≠ call.id

instance (b : CallBoard) (key : CallKey) (call : ToolCall) : Decidable (b.Due key call) :=
  inferInstanceAs (Decidable (_ ∧ _))

/-- The calls that are due, in the order of their drafts. -/
def due (b : CallBoard) : List ToolCall :=
  b.drafts.filterMap fun p => (p.2.call? p.1).filter (b.Due p.1 ·)

variable {key : CallKey} {d : CallDraft} {rest : List (CallKey × CallDraft)}

/-- Nothing stands before the first draft. -/
theorem due_first (h : Ordered.Sorted ((key, d) :: rest)) (given : List String) (call : ToolCall) :
    Due { drafts := (key, d) :: rest, given } key call ↔ call.id ∉ given := by
  refine and_iff_left fun p hp hlt => ?_
  rcases List.mem_cons.1 hp with rfl | hp
  · exact (Ordered.not_lt_self _ hlt).elim
  · have hgt := (List.pairwise_cons.1 h).1 p hp
    exact (Ordered.not_lt_self key (Ordered.lt_of_lt_of_lt hgt hlt)).elim

/-- The first draft keeps back the calls that share the id of its own. -/
theorem due_later {later : CallKey} (h : key < later) (given : List String) (call : ToolCall) :
    Due { drafts := (key, d) :: rest, given } later call ↔
      (∀ other ∈ d.call? key, other.id ≠ call.id) ∧ Due { drafts := rest, given } later call := by
  unfold Due
  simp only [List.forall_mem_cons, h, true_imp_iff]
  exact and_left_comm

/-- What a board owes is the call of its first draft, if that is due, and what the rest owes once that
call is given out. -/
theorem due_cons (h : Ordered.Sorted ((key, d) :: rest)) (given : List String) :
    due { drafts := (key, d) :: rest, given } =
      match d.call? key with
      | none => due { drafts := rest, given }
      | some call =>
        if call.id ∈ given then due { drafts := rest, given }
        else call :: due { drafts := rest, given := call.id :: given } := by
  have hlater : ∀ p ∈ rest, key < p.1 := (List.pairwise_cons.1 h).1
  -- the first draft matters to the later ones only through the id of its call
  have hrest : ∀ given', (∀ call : ToolCall,
      (∀ other ∈ d.call? key, other.id ≠ call.id) ∧ call.id ∉ given ↔ call.id ∉ given') →
      (rest.filterMap fun p => (p.2.call? p.1).filter (Due { drafts := (key, d) :: rest, given } p.1 ·)) =
        due { drafts := rest, given := given' } := by
    intro given' hgiven
    refine List.filterMap_congr fun p hp => ?_
    congr 1
    funext call
    rw [decide_eq_decide, due_later (hlater p hp)]
    unfold Due
    rw [← and_assoc, hgiven]
  rw [due, List.filterMap_cons]
  cases hcall : d.call? key with
  | none => exact hrest given fun call => by simp [hcall]
  | some call =>
    by_cases hgiven : call.id ∈ given
    · simp only [Option.filter_some, due_first h, hgiven, not_true_eq_false, decide_false, if_true]
      refine hrest given fun other => ?_
      simp only [hcall, Option.mem_some_iff, forall_eq', and_iff_right_iff_imp]
      exact fun hother heq => hother (heq ▸ hgiven)
    · simp only [Option.filter_some, due_first h, hgiven, not_false_eq_true, decide_true, if_false]
      refine congrArg (call :: ·) (hrest (call.id :: given) fun other => ?_)
      simp only [hcall, Option.mem_some_iff, forall_eq', List.mem_cons, not_or]
      exact and_congr_left' ne_comm

/-- A drain gives out the calls that are due. -/
theorem drain_due {b : CallBoard} (h : Ordered.Sorted b.drafts) : b.drain.1 = b.due := by
  rw [drain_calls h]
  obtain ⟨drafts, given⟩ := b
  induction drafts generalizing given with
  | nil => rfl
  | cons first rest ih =>
    obtain ⟨key, d⟩ := first
    have hrest : ∀ given', firsts given' (rest.filterMap fun p => p.2.call? p.1) = due { drafts := rest, given := given' } :=
      fun given' => ih given' (List.pairwise_cons.1 h).2
    rw [due_cons h, List.filterMap_cons]
    cases hcall : d.call? key with
    | none => exact hrest given
    | some call =>
      simp only [firsts]
      split
      · exact hrest given
      · exact congrArg (call :: ·) (hrest (call.id :: given))

end CallBoard

/-! ## Ends of reasoning that are due -/

namespace ReasoningBoard

/-- The end of a block that has something to say, which its metadata repeats. -/
def dueEnd (ended : List ReasoningKey) (key : ReasoningKey) (block : ReasoningBlock) : Option Event :=
  if key ∉ ended ∧ block.text ≠ "" then
    some (.reasoningEnd block.text (Ordered.put "text" (.str block.text) block.metadata))
  else none

/-- The ends that are due, in the order of the blocks. -/
def due (b : ReasoningBoard) : List Event := b.blocks.filterMap fun p => dueEnd b.ended p.1 p.2

variable {b : ReasoningBoard} {key : ReasoningKey}

theorem finish_due {block : ReasoningBlock} (h : Ordered.get? b.blocks key = some block) :
    (b.finish key []).1 = dueEnd b.ended key block := by
  unfold finish dueEnd
  by_cases hended : key ∈ b.ended
  · simp [(b.hasEnded_iff key).2 hended, hended]
  · have hopen : b.hasEnded key = false := by rwa [Bool.eq_false_iff, ne_eq, hasEnded_iff]
    by_cases htext : block.text = ""
    · simp [hopen, h, htext]
    · simp [hopen, h, htext, hended, Json.Fields.overlay]

/-- Ending a block leaves the others as they are. -/
theorem finish_others {other : ReasoningKey} (h : other ≠ key) (payload : Json.Fields) :
    Ordered.get? (b.finish key payload).2.blocks other = Ordered.get? b.blocks other ∧
      (other ∈ (b.finish key payload).2.ended ↔ other ∈ b.ended) := by
  unfold finish
  split
  · exact ⟨rfl, Iff.rfl⟩
  · split
    · exact ⟨rfl, Iff.rfl⟩
    · simp only
      split
      · exact ⟨Ordered.get?_erase_of_ne h _, Iff.rfl⟩
      · exact ⟨Ordered.get?_erase_of_ne h _, by simp [h]⟩

theorem finishAll_due (entries : List (ReasoningKey × ReasoningBlock)) (h : Ordered.Sorted entries)
    (b : ReasoningBoard) (hopen : ∀ p ∈ entries, Ordered.get? b.blocks p.1 = some p.2) :
    (finishAll (entries.map (·.1)) b).1 = entries.filterMap fun p => dueEnd b.ended p.1 p.2 := by
  -- blocks of keys that have ended stay open, so the board is known only by what it says of `entries`
  induction entries generalizing b with
  | nil => rfl
  | cons first rest ih =>
    obtain ⟨key, block⟩ := first
    obtain ⟨hfirst, hrest⟩ := List.pairwise_cons.1 h
    have hothers : ∀ p ∈ rest, p.1 ≠ key := fun p hp heq => Ordered.not_lt_self key (heq ▸ hfirst p hp)
    have hafter := ih hrest (b.finish key []).2 fun p hp =>
      (finish_others (hothers p hp) []).1.trans (hopen p (List.mem_cons_of_mem _ hp))
    have hsame : (rest.filterMap fun p => dueEnd (b.finish key []).2.ended p.1 p.2) =
        rest.filterMap fun p => dueEnd b.ended p.1 p.2 := by
      refine List.filterMap_congr fun p hp => ?_
      simp only [dueEnd, (finish_others (hothers p hp) []).2]
    rw [List.map_cons, finishAll]
    simp only
    rw [hafter, hsame, finish_due (hopen _ (List.mem_cons_self ..)), List.filterMap_cons]
    cases dueEnd b.ended key block <;> rfl

/-- A flush ends the blocks whose end is due. -/
theorem flush_due (h : Ordered.Sorted b.blocks) : b.flush.1 = b.due :=
  finishAll_due b.blocks h b fun _ hp => (Ordered.get?_eq_some_iff h).2 hp

end ReasoningBoard

/-! ## The end -/

namespace Boards

variable {b : Boards} {events : List Event}

/-- The first end flushes the boards and closes the stream. -/
theorem InOrder.finish (h : b.InOrder) (hopen : b.closing.finished = false) :
    b.finish = (b.calls.due.map .toolCall ++ b.reasoning.due ++ [.ending b.closing.ending],
      { calls := b.calls.drain.2, reasoning := b.reasoning.flush.2, closing := { finished := true } }) := by
  rw [← CallBoard.drain_due h.calls, ← ReasoningBoard.flush_due h.reasoning]
  simp [Boards.finish, Closing.finish, Closing.ending, hopen]

/-- Whatever was done to the boards before: at the first end they stand in key order, the calls and the
ends of reasoning that are due are given out in that order and the closing event after them, and no call
is left open. Whatever is done to the boards after it, no later end gives anything out or changes them. -/
theorem finish_flushes (h : Moves {} events b) :
    b.InOrder ∧
      b.finish.1 = b.calls.due.map .toolCall ++ b.reasoning.due ++ [.ending b.closing.ending] ∧
      b.finish.2.calls.drafts = [] ∧
      ∀ more c, Moves b.finish.2 more c → c.finish = ([], c) := by
  have hopen : b.closing.finished = false := h.finished
  have horder : b.InOrder := h.inOrder ⟨.nil, .nil⟩
  rw [horder.finish hopen]
  refine ⟨horder, rfl, CallBoard.drain_drafts horder.calls, fun more c hmore => ?_⟩
  exact finish_of_finished hmore.finished

/-- Two drafts share an id, one more has that id and no name, and the last is named by its key alone,
which was given out before. -/
theorem finish_flushes_shared :
    ∃ events b, Moves {} events b ∧
      b.calls.drafts.map (fun p => (p.1, p.2.id, p.2.name)) =
        [(.index 2, some "a", none), (.index 9, some "a", some "f"), (.index 10, some "a", some "g"),
          (.id "x", none, some "h")] ∧
      b.calls.given = ["x"] ∧
      (toolCalls b.finish.1).map (fun call => (call.id, call.name, call.rawArguments, call.arguments.render)) =
        [("a", "f", " [3]", "[3]")] ∧
      (blockEnds b.finish.1).map (·.1) = ["first", "later"] ∧
      b.finish.2.finish = ([], b.finish.2) := by
  have hmoves := Moves.cons (.mark {} "x") <|
    .cons (.draft _ (.id "x") fun _ => { name := some "h" }) <|
    .cons (.draft _ (.index 10) fun _ => { id := some "a", name := some "g" }) <|
    .cons (.draft _ (.index 9) fun _ => { arguments := " [3]", id := some "a", name := some "f" }) <|
    .cons (.draft _ (.index 2) fun _ => { id := some "a" }) <|
    .cons (.push _ (Prod.eta (ReasoningBoard.push {} (.named "r") "later")).symm) <|
    .cons (.push _ (Prod.eta (ReasoningBoard.push _ .unnamed "first")).symm) <| .nil _
  obtain ⟨-, hgiven, -, hlater⟩ := finish_flushes hmoves
  refine ⟨_, _, hmoves, by decide +kernel, by decide +kernel, ?_, ?_, hlater [] _ (.nil _)⟩
  · rw [hgiven]
    decide +kernel
  · rw [hgiven]
    decide +kernel

end Boards

end ModelStream
