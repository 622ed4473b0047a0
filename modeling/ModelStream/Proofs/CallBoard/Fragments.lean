/-
Calls put together from fragments that name an index. The board after any fragments is known, index by
index, from the last id, the first name and the joined arguments that they give (`get?_collect`); so the
calls given out at the end depend on these alone, and not on how the fragments of different indices
alternate or where the arguments are cut (`drain_collect_congr`), nor on whether the calls are completed
when their last fragment has come or at the end (`play_drain`).
-/
import Mathlib.Data.List.Induction
import ModelStream.Proofs.CallBoard.Drain

namespace ModelStream

/-- A piece of the call at an index. -/
structure Fragment where
  index : Nat
  id : Option String := none
  name : Option String := none
  arguments : String := ""
  deriving Repr, DecidableEq

/-! ## What fragments say of an index -/

/-- The last id given for an index. -/
def lastId (index : Nat) (fragments : List Fragment) : Option String :=
  (fragments.filterMap fun f => if f.index = index then f.id else none).getLast?

/-- The first name given for an index. -/
def firstName (index : Nat) (fragments : List Fragment) : Option String :=
  (fragments.filterMap fun f => if f.index = index then f.name else none).head?

/-- The pieces of arguments for an index, joined. -/
def argumentsOf (index : Nat) (fragments : List Fragment) : String :=
  String.join (fragments.filterMap fun f => if f.index = index then some f.arguments else none)

/-- Two lists of fragments say the same of every index. -/
structure SameCalls (fragments others : List Fragment) : Prop where
  ids : ∀ index, lastId index fragments = lastId index others
  names : ∀ index, firstName index fragments = firstName index others
  arguments : ∀ index, argumentsOf index fragments = argumentsOf index others

/-- The draft of an index. -/
def draftOf (index : Nat) (fragments : List Fragment) : CallDraft :=
  { arguments := argumentsOf index fragments, id := lastId index fragments, name := firstName index fragments }

/-- Adds a fragment to the draft of its index. -/
def Fragment.extend (f : Fragment) (d : CallDraft) : CallDraft :=
  { arguments := d.arguments ++ f.arguments, id := f.id <|> d.id, name := d.name <|> f.name }

theorem draftOf_concat (index : Nat) (fragments : List Fragment) (f : Fragment) :
    draftOf index (fragments ++ [f]) =
      if f.index = index then f.extend (draftOf index fragments) else draftOf index fragments := by
  by_cases h : f.index = index
  · cases hid : f.id <;> cases hname : f.name <;>
      simp [draftOf, lastId, firstName, argumentsOf, Fragment.extend, h, hid, hname, String.join_append]
  · simp [draftOf, lastId, firstName, argumentsOf, h]

namespace CallBoard

/-- Adds a fragment. -/
def add (b : CallBoard) (f : Fragment) : CallBoard := b.update (.index f.index) f.extend

/-- The board after these fragments. -/
def collect (fragments : List Fragment) : CallBoard := fragments.foldl add {}

theorem collect_concat (fragments : List Fragment) (f : Fragment) :
    collect (fragments ++ [f]) = (collect fragments).add f := by
  simp [collect, List.foldl_append]

theorem sorted_foldl_add (fragments : List Fragment) {b : CallBoard} (h : Ordered.Sorted b.drafts) :
    Ordered.Sorted (fragments.foldl add b).drafts := by
  induction fragments generalizing b with
  | nil => exact h
  | cons f fragments ih => exact ih (sorted_update h _ _)

theorem sorted_collect (fragments : List Fragment) : Ordered.Sorted (collect fragments).drafts :=
  sorted_foldl_add fragments List.Pairwise.nil

theorem collect_given (fragments : List Fragment) : (collect fragments).given = [] := by
  induction fragments using List.reverseRecOn with
  | nil => rfl
  | append_singleton fragments f ih => rw [collect_concat, add, update_given, ih]

/-- The draft of an index, which may be missing only if nothing is said of it. -/
theorem get?_collect (index : Nat) (fragments : List Fragment) :
    ((collect fragments).get? (.index index)).getD {} = draftOf index fragments := by
  induction fragments using List.reverseRecOn with
  | nil => rfl
  | append_singleton fragments f ih =>
    rw [collect_concat, draftOf_concat, add]
    split
    · next h =>
      subst h
      rw [get?_update_self, Option.getD_some, ih]
    · next h => rw [get?_update_of_ne (fun heq => h (CallKey.index.inj heq).symm), ih]

theorem get?_collect_id (id : String) (fragments : List Fragment) : (collect fragments).get? (.id id) = none := by
  induction fragments using List.reverseRecOn with
  | nil => rfl
  | append_singleton fragments f ih =>
    have hne : CallKey.id id ≠ .index f.index := nofun
    rw [collect_concat, add, get?_update_of_ne hne, ih]

/-- The drafts that have a name. -/
def named (b : CallBoard) : List (CallKey × CallDraft) := b.drafts.filter (·.2.name.isSome)

theorem mem_named_collect (fragments : List Fragment) (p : CallKey × CallDraft) :
    p ∈ (collect fragments).named ↔
      ∃ index, p = (.index index, draftOf index fragments) ∧ (draftOf index fragments).name.isSome := by
  obtain ⟨key, d⟩ := p
  rw [named, List.mem_filter, ← Ordered.get?_eq_some_iff (sorted_collect fragments)]
  constructor
  · rintro ⟨hget, hname⟩
    -- fragments name an index, so no draft stands under an id
    cases key with
    | id id => cases (get?_collect_id id fragments).symm.trans hget
    | index index =>
      have hdraft := get?_collect index fragments
      rw [get?, hget, Option.getD_some] at hdraft
      exact ⟨index, by rw [hdraft], hdraft ▸ hname⟩
  · rintro ⟨index, heq, hname⟩
    cases heq
    have hdraft := get?_collect index fragments
    rw [get?] at hdraft
    cases hget : Ordered.get? (collect fragments).drafts (.index index) with
    | none =>
      rw [hget, Option.getD_none] at hdraft
      rw [← hdraft] at hname
      cases hname
    | some d =>
      rw [hget, Option.getD_some] at hdraft
      exact ⟨congrArg some hdraft, hname⟩

/-- A draft without a name is no call. -/
theorem filterMap_named (b : CallBoard) :
    (b.named.filterMap fun p => p.2.call? p.1) = b.drafts.filterMap fun p => p.2.call? p.1 := by
  rw [named, List.filterMap_filter]
  congr 1
  funext p
  cases hname : p.2.name with
  | none => simp [CallDraft.call?, hname, nonEmpty]
  | some name => simp

/-- The calls at the end depend on what the fragments say of each index alone. -/
theorem drain_collect_congr {fragments others : List Fragment} (h : SameCalls fragments others) :
    (collect fragments).drain.1 = (collect others).drain.1 := by
  have hdraft : ∀ index, draftOf index fragments = draftOf index others := by
    intro index
    rw [draftOf, h.ids, h.names, h.arguments]
    rfl
  have hnamed : (collect fragments).named = (collect others).named := by
    refine Ordered.eq_of_mem_iff (List.Pairwise.filter _ (sorted_collect fragments))
      (List.Pairwise.filter _ (sorted_collect others)) fun p => ?_
    rw [mem_named_collect, mem_named_collect]
    simp only [hdraft]
  rw [drain_calls (sorted_collect fragments), drain_calls (sorted_collect others), ← filterMap_named,
    ← filterMap_named, hnamed, collect_given, collect_given]

end CallBoard

/-! ## Fragments and completions -/

/-- What a stream says of its calls: a fragment, or that all of them are complete. -/
inductive Stroke
  | fragment (f : Fragment)
  | complete
  deriving Repr, DecidableEq

namespace Stroke

def fragment? : Stroke → Option Fragment
  | .fragment f => some f
  | .complete => none

/-- No fragment comes after a completion. -/
def InOrder (strokes : List Stroke) : Prop := strokes.Pairwise fun s later => s = .complete → later = .complete

instance (strokes : List Stroke) : Decidable (InOrder strokes) := inferInstanceAs (Decidable (List.Pairwise _ _))

end Stroke

namespace CallBoard

/-- The calls given out along the way, and the board reached. -/
def play (b : CallBoard) : List Stroke → List ToolCall × CallBoard
  | [] => ([], b)
  | .fragment f :: more => (b.add f).play more
  | .complete :: more => (b.drain.1 ++ (b.drain.2.play more).1, (b.drain.2.play more).2)

theorem play_append (strokes later : List Stroke) (b : CallBoard) :
    b.play (strokes ++ later) =
      ((b.play strokes).1 ++ ((b.play strokes).2.play later).1, ((b.play strokes).2.play later).2) := by
  induction strokes generalizing b with
  | nil => rfl
  | cons s strokes ih =>
    cases s with
    | fragment f => exact ih _
    | complete => simp [play, ih]

theorem drain_of_empty {b : CallBoard} (h : b.drafts = []) : b.drain = ([], b) := by
  simp [drain, h, completeAll]

theorem play_of_empty {b : CallBoard} (h : b.drafts = []) {strokes : List Stroke}
    (hstrokes : ∀ s ∈ strokes, s = .complete) : b.play strokes = ([], b) := by
  induction strokes with
  | nil => rfl
  | cons s strokes ih =>
    cases hstrokes s (List.mem_cons_self ..)
    simp [play, drain_of_empty h, ih fun s hs => hstrokes s (List.mem_cons_of_mem _ hs)]

/-- When no fragment comes after a completion, all calls together are those of a drain at the end. -/
theorem play_drain {strokes : List Stroke} (horder : Stroke.InOrder strokes) {b : CallBoard}
    (h : Ordered.Sorted b.drafts) :
    (b.play strokes).1 ++ (b.play strokes).2.drain.1 =
      ((strokes.filterMap Stroke.fragment?).foldl add b).drain.1 := by
  induction strokes generalizing b with
  | nil => rfl
  | cons s strokes ih =>
    obtain ⟨hfirst, hrest⟩ := List.pairwise_cons.1 horder
    cases s with
    | fragment f => exact ih hrest (sorted_update h _ _)
    | complete =>
      -- only completions come after the first one, and they find the board empty
      have hcomplete : ∀ s ∈ strokes, s = .complete := fun s hs => hfirst s hs rfl
      have hnone : (.complete :: strokes).filterMap Stroke.fragment? = [] := by
        refine List.filterMap_eq_nil_iff.2 fun s hs => ?_
        rcases List.mem_cons.1 hs with rfl | hs
        · rfl
        · rw [hcomplete s hs]
          rfl
      have hempty := drain_drafts h
      simp [play, play_of_empty hempty hcomplete, drain_of_empty hempty, hnone]

end CallBoard

end ModelStream
