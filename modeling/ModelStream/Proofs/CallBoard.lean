/-
Laws of the call board: completing a key takes its draft off in every case, and gives a call out only
under an id that was not given out before, which is then recorded. `Gives` is what this comes to over
any number of operations: ids stay recorded, and the calls given out have distinct ids that are new.
-/
import ModelStream.CallBoard

namespace ModelStream

namespace CallBoard

/-! ## One operation -/

@[simp] theorem update_given (b : CallBoard) (key : CallKey) (change : CallDraft → CallDraft) :
    (b.update key change).given = b.given := rfl

@[simp] theorem discard_given (b : CallBoard) (key : CallKey) : (b.discard key).given = b.given := rfl

@[simp] theorem mark_given (b : CallBoard) (id : String) : (b.mark id).given = id :: b.given := rfl

@[simp] theorem get?_update_self (b : CallBoard) (key : CallKey) (change : CallDraft → CallDraft) :
    (b.update key change).get? key = some (change ((b.get? key).getD {})) := by
  simp [get?, update]

theorem get?_update_of_ne {key other : CallKey} (h : other ≠ key) (b : CallBoard)
    (change : CallDraft → CallDraft) : (b.update key change).get? other = b.get? other := by
  simp [get?, update, Ordered.get?_put_of_ne h]

/-- What is taken off is gone, and the other drafts stay. -/
@[simp] theorem get?_discard_self (b : CallBoard) (key : CallKey) : (b.discard key).get? key = none := by
  simp [get?, discard]

theorem get?_discard_of_ne {key other : CallKey} (h : other ≠ key) (b : CallBoard) :
    (b.discard key).get? other = b.get? other := Ordered.get?_erase_of_ne h _

theorem discard_of_get?_none {b : CallBoard} {key : CallKey} (h : b.get? key = none) : b.discard key = b := by
  simp [discard, Ordered.erase_of_get?_none h]

@[simp] theorem get?_mark (b : CallBoard) (id : String) (key : CallKey) : (b.mark id).get? key = b.get? key := rfl

/-- Ids that are recorded one after the other are all recorded, and none is forgotten. -/
theorem foldl_mark_given (ids : List String) (b : CallBoard) {id : String} (h : id ∈ ids ∨ id ∈ b.given) :
    id ∈ (ids.foldl mark b).given := by
  induction ids generalizing b with
  | nil => simpa using h
  | cons x ids ih =>
    refine ih (b.mark x) ?_
    rcases h with h | h
    · rcases List.mem_cons.1 h with rfl | h
      · exact .inr (List.mem_cons_self ..)
      · exact .inl h
    · exact .inr (List.mem_cons_of_mem _ h)

theorem nonEmpty_some {s : String} (h : s ≠ "") : nonEmpty (some s) = some s := by
  simp [nonEmpty, Option.filter_some, h]

theorem wasGiven_iff (b : CallBoard) (id : String) : b.wasGiven id = true ↔ id ∈ b.given := by
  simp [wasGiven]

/-- A call given out is the draft of its key, under an id that is new and then recorded. -/
theorem complete_some {b c : CallBoard} {key : CallKey} {call : ToolCall} (h : b.complete key = (some call, c)) :
    ∃ d : CallDraft, b.get? key = some d ∧ nonEmpty d.name = some call.name ∧
      call = { id := d.callId key, name := call.name, arguments := parseArguments d.arguments
               rawArguments := d.arguments } ∧
      call.id ∉ b.given ∧ c = (b.discard key).mark call.id := by
  unfold complete at h
  split at h
  · cases h
  · next d hd =>
    simp only at h
    split at h
    · cases h
    · next hid =>
      split at h
      · cases h
      · next name hname =>
        cases h
        refine ⟨d, hd, hname, rfl, fun hmem => hid ?_, rfl⟩
        rwa [wasGiven_iff]

/-- When no call is given out the draft is still taken off. -/
theorem complete_none {b c : CallBoard} {key : CallKey} (h : b.complete key = (none, c)) : c = b.discard key := by
  unfold complete at h
  split at h
  · next hd =>
    cases h
    exact (discard_of_get?_none hd).symm
  · simp only at h
    split at h
    · cases h; rfl
    · split at h
      · cases h; rfl
      · cases h

theorem complete_of_get?_none {b : CallBoard} {key : CallKey} (h : b.get? key = none) :
    b.complete key = (none, b) := by
  simp [complete, h]

/-- A draft with a name is given out under an id that is new. -/
theorem complete_of_get? {b : CallBoard} {key : CallKey} {d : CallDraft} {name : String}
    (h : b.get? key = some d) (hid : d.callId key ∉ b.given) (hname : nonEmpty d.name = some name) :
    b.complete key = (some { id := d.callId key, name, arguments := parseArguments d.arguments
                             rawArguments := d.arguments }, (b.discard key).mark (d.callId key)) := by
  have hnew : (b.discard key).wasGiven (d.callId key) = false := by
    rw [Bool.eq_false_iff, ne_eq, wasGiven_iff]
    exact hid
  simp [complete, h, hname, hnew]

/-- The draft of a key is taken off in every case, and the others stay. -/
theorem get?_complete (b : CallBoard) (key other : CallKey) :
    (b.complete key).2.get? other = if other = key then none else b.get? other := by
  have hdiscard : (b.discard key).get? other = if other = key then none else b.get? other := by
    split
    · next heq => rw [heq, get?_discard_self]
    · next hne => exact get?_discard_of_ne hne b
  rcases hcomplete : b.complete key with ⟨_ | call, c⟩
  · rw [complete_none hcomplete, hdiscard]
  · obtain ⟨d, -, -, -, -, rfl⟩ := complete_some hcomplete
    rw [get?_mark, hdiscard]

/-- A completion records one id at most, that of its call. -/
theorem given_complete (b : CallBoard) (key : CallKey) :
    (b.complete key).2.given = (b.complete key).1.toList.map (·.id) ++ b.given := by
  rcases hcomplete : b.complete key with ⟨_ | call, c⟩
  · rw [complete_none hcomplete]
    rfl
  · obtain ⟨d, -, -, -, -, rfl⟩ := complete_some hcomplete
    rfl

theorem drafts_eq_nil_iff {b : CallBoard} : b.drafts = [] ↔ ∀ key, b.get? key = none := by
  obtain ⟨drafts, given⟩ := b
  cases drafts with
  | nil => simp [get?, Ordered.get?]
  | cons first rest =>
    refine iff_of_false (List.cons_ne_nil _ _) fun h => ?_
    simpa [get?, Ordered.get?] using h first.1

/-! ## Calls given out -/

/-- Going from `b` to `c` gives out these calls: under new and distinct ids, which are recorded like
those before. -/
structure Gives (b : CallBoard) (calls : List ToolCall) (c : CallBoard) : Prop where
  kept : b.given ⊆ c.given
  recorded : ∀ call ∈ calls, call.id ∈ c.given
  fresh : ∀ call ∈ calls, call.id ∉ b.given
  distinct : (calls.map (·.id)).Nodup

namespace Gives

theorem nothing {b c : CallBoard} (h : b.given ⊆ c.given) : Gives b [] c :=
  ⟨h, by simp, by simp, List.nodup_nil⟩

/-- Later calls have ids that earlier ones left free. -/
theorem trans {b c d : CallBoard} {calls later : List ToolCall} (h : Gives b calls c) (k : Gives c later d) :
    Gives b (calls ++ later) d where
  kept := fun _ hid => k.kept (h.kept hid)
  recorded := by
    intro call hc
    rcases List.mem_append.1 hc with hc | hc
    · exact k.kept (h.recorded call hc)
    · exact k.recorded call hc
  fresh := by
    intro call hc
    rcases List.mem_append.1 hc with hc | hc
    · exact h.fresh call hc
    · exact fun hid => k.fresh call hc (h.kept hid)
  distinct := by
    rw [List.map_append]
    refine List.nodup_append.2 ⟨h.distinct, k.distinct, fun x hx y hy => ?_⟩
    obtain ⟨call, hc, rfl⟩ := List.mem_map.1 hx
    obtain ⟨other, ho, rfl⟩ := List.mem_map.1 hy
    rintro heq
    exact k.fresh other ho (heq ▸ h.recorded call hc)

theorem complete {b c : CallBoard} {key : CallKey} {call : Option ToolCall} (h : b.complete key = (call, c)) :
    Gives b call.toList c := by
  cases call with
  | none =>
    rw [complete_none h]
    exact nothing fun _ hid => hid
  | some call =>
    obtain ⟨d, -, -, -, hnew, rfl⟩ := complete_some h
    refine ⟨fun _ hid => List.mem_cons_of_mem _ hid, fun x hx => ?_, fun x hx => ?_, by simp⟩
    · cases List.mem_singleton.1 hx
      simp
    · cases List.mem_singleton.1 hx
      exact hnew

end Gives

end CallBoard

end ModelStream
