/-
Draining the call board. The keys of calls are in a total order, and every operation keeps the drafts in
it; so a drain goes through the drafts in key order, and gives out the call of each draft that has a name,
of several with one id the first only (`CallBoard.drain_calls`).
-/
import ModelStream.Proofs.CallBoard
import ModelStream.Proofs.Ordered

namespace ModelStream

/-! ## The order of keys -/

instance : IsStrictTotalOrder CallKey fun a b => a < b where
  irrefl
    | .index n => Nat.lt_irrefl n
    | .id s => String.lt_irrefl s
  trans
    | .index _, .index _, .index _, h, k => Nat.lt_trans h k
    | .index _, _, .id _, _, _ => trivial
    | .id _, .id _, .id _, h, k => String.lt_trans h k
  trichotomous
    | .index m, .index n, h, k => by
      have hle : n ≤ m := Nat.le_of_not_lt h
      have hge : m ≤ n := Nat.le_of_not_lt k
      rw [Nat.le_antisymm hge hle]
    | .index _, .id _, h, _ => (h trivial).elim
    | .id _, .index _, _, k => (k trivial).elim
    | .id s, .id t, h, k => by rw [String.le_antisymm (String.not_lt.1 k) (String.not_lt.1 h)]

/-- The call that a draft is given out as, if it has a name. -/
def CallDraft.call? (key : CallKey) (d : CallDraft) : Option ToolCall :=
  (nonEmpty d.name).map fun name =>
    { id := d.callId key, name, arguments := parseArguments d.arguments, rawArguments := d.arguments }

namespace CallBoard

/-- Of several calls with one id the first, and none with an id that was given out before. -/
def firsts (given : List String) : List ToolCall → List ToolCall
  | [] => []
  | call :: calls => if call.id ∈ given then firsts given calls else call :: firsts (call.id :: given) calls

theorem firsts_eq_self {given : List String} {calls : List ToolCall} (h : (calls.map (·.id)).Nodup)
    (hnew : ∀ call ∈ calls, call.id ∉ given) : firsts given calls = calls := by
  induction calls generalizing given with
  | nil => rfl
  | cons call calls ih =>
    obtain ⟨hcall, hrest⟩ := List.nodup_cons.1 h
    rw [firsts, if_neg (hnew call (List.mem_cons_self ..)), ih hrest]
    intro other hother hmem
    rcases List.mem_cons.1 hmem with heq | hmem
    · exact hcall (List.mem_map.2 ⟨other, hother, heq⟩)
    · exact hnew other (List.mem_cons_of_mem _ hother) hmem

variable {b : CallBoard}

/-! ## Drafts in order -/

theorem sorted_update (h : Ordered.Sorted b.drafts) (key : CallKey) (change : CallDraft → CallDraft) :
    Ordered.Sorted (b.update key change).drafts := Ordered.sorted_put h ..

/-! ## The drain -/

/-- Completing the first draft of a board in order leaves the others. -/
theorem complete_first {key : CallKey} {d : CallDraft} {rest : List (CallKey × CallDraft)}
    (h : Ordered.Sorted ((key, d) :: rest)) (given : List String) :
    complete { drafts := (key, d) :: rest, given } key =
      match d.call? key with
      | none => (none, { drafts := rest, given })
      | some call => if call.id ∈ given then (none, { drafts := rest, given })
        else (some call, { drafts := rest, given := call.id :: given }) := by
  have hrest : Ordered.erase ((key, d) :: rest) key = rest := by
    rw [Ordered.erase_cons, if_pos rfl]
    refine List.filter_eq_self.2 fun p hp => ?_
    have hlt := (List.pairwise_cons.1 h).1 p hp
    have hne : p.1 ≠ key := fun heq => Ordered.not_lt_self key (heq ▸ hlt)
    simpa using hne
  simp only [complete, get?, Ordered.get?, if_true, discard, hrest, CallDraft.call?, wasGiven, mark]
  cases nonEmpty d.name with
  | none => simp
  | some name => simp

theorem completeAll_drafts (entries : List (CallKey × CallDraft)) (h : Ordered.Sorted entries) (given : List String) :
    (completeAll (entries.map (·.1)) { drafts := entries, given }).1 =
        firsts given (entries.filterMap fun p => p.2.call? p.1) ∧
      (completeAll (entries.map (·.1)) { drafts := entries, given }).2.drafts = [] := by
  induction entries generalizing given with
  | nil => exact ⟨rfl, rfl⟩
  | cons first rest ih =>
    obtain ⟨key, d⟩ := first
    have hrest := ih (List.pairwise_cons.1 h).2
    have hfirst := complete_first h given
    rw [List.map_cons, completeAll, hfirst]
    cases hcall : d.call? key with
    | none => simpa [hcall] using hrest given
    | some call =>
      by_cases hgiven : call.id ∈ given
      · simpa [hcall, hgiven, firsts] using hrest given
      · simpa [hcall, hgiven, firsts] using hrest (call.id :: given)

/-- A drain gives out the calls of the drafts in key order, one for each id that is new. -/
theorem drain_calls (h : Ordered.Sorted b.drafts) :
    b.drain.1 = firsts b.given (b.drafts.filterMap fun p => p.2.call? p.1) :=
  (completeAll_drafts b.drafts h b.given).1

/-- A drain takes every draft off the board. -/
theorem drain_drafts (h : Ordered.Sorted b.drafts) : b.drain.2.drafts = [] :=
  (completeAll_drafts b.drafts h b.given).2

end CallBoard

end ModelStream
