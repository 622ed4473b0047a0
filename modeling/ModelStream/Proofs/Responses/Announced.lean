/-
Calls that a Responses stream announces, each under an output index, an item id and a call id of its
own. A call is waiting until it is announced, then open with the arguments so far, then given out
(`Stage`). `Holds` says that a board has the drafts of the open calls and of no others, and that only
calls in the last stage count as given out. Beginning or extending a draft keeps this, and so does
completing one, which gives the call out as it was announced; draining the board gives out all that are
left (`Holds.drain`).
-/
import ModelStream.Proofs.CallBoard
import ModelStream.Proofs.Responses.Quiet

namespace ModelStream.Responses

/-- A call that a stream announces, and the whole text of its arguments. -/
structure Announced where
  index : Nat
  itemId : String
  callId : String
  name : String
  arguments : String
  deriving DecidableEq

namespace Announced

/-- The two ids under which the call may be known as given out. -/
def ids (a : Announced) : List String := [a.itemId, a.callId]

theorem itemId_mem_ids (a : Announced) : a.itemId ∈ a.ids := by simp [ids]

theorem callId_mem_ids (a : Announced) : a.callId ∈ a.ids := by simp [ids]

/-- What is to be given out. -/
def call (a : Announced) : ToolCall where
  id := a.callId
  name := a.name
  arguments := parseArguments a.arguments
  rawArguments := a.arguments

/-- The item that describes the call, with this argument text. -/
def item (a : Announced) (text : String) : CallItem where
  id := some a.itemId
  callId := some a.callId
  name := some a.name
  arguments := text

/-- The draft of the call while these arguments have arrived. -/
def draft (a : Announced) (text : String) : CallDraft where
  arguments := text
  id := some a.callId
  name := some a.name

/-- What an event says names the call, by one or more of its three identifiers. -/
structure Names (a : Announced) (target : Target) : Prop where
  index : ∀ n ∈ target.index, n = a.index
  itemId : ∀ id ∈ target.itemId, id = a.itemId
  callId : ∀ id ∈ target.callId, id = a.callId
  some : target ≠ {}

instance (a : Announced) (target : Target) : Decidable (a.Names target) :=
  decidable_of_iff ((∀ n ∈ target.index, n = a.index) ∧ (∀ id ∈ target.itemId, id = a.itemId) ∧
      (∀ id ∈ target.callId, id = a.callId) ∧ target ≠ {})
    ⟨fun ⟨hindex, hitem, hcall, hsome⟩ => ⟨hindex, hitem, hcall, hsome⟩,
      fun h => ⟨h.index, h.itemId, h.callId, h.some⟩⟩

/-- A finished item that belongs to the call: it may leave out the call id and the arguments, and its
name does not matter any more. -/
structure Describes (a : Announced) (c : CallItem) : Prop where
  id : c.id = some a.itemId
  callId : ∀ id ∈ c.callId, id = a.callId
  arguments : c.arguments = "" ∨ c.arguments = a.arguments

instance (a : Announced) (c : CallItem) : Decidable (a.Describes c) :=
  decidable_of_iff (c.id = some a.itemId ∧ (∀ id ∈ c.callId, id = a.callId) ∧
      (c.arguments = "" ∨ c.arguments = a.arguments))
    ⟨fun ⟨hid, hcall, harg⟩ => ⟨hid, hcall, harg⟩, fun h => ⟨h.id, h.callId, h.arguments⟩⟩

/-- A call that the closing response lists, if the item is one: it has both its ids. -/
def Listed (calls : List Announced) (item : Json) : Prop :=
  ∀ c ∈ callOf item, ∃ a ∈ calls, a.Describes c ∧ c.callId = some a.callId

instance (calls : List Announced) (item : Json) : Decidable (Listed calls item) :=
  inferInstanceAs (Decidable (∀ c ∈ callOf item, _))

/-- The calls are told apart by each of their identifiers, and can be given out. -/
structure Distinct (calls : List Announced) : Prop where
  once : calls.Nodup
  indices : ∀ a ∈ calls, ∀ b ∈ calls, a.index = b.index → a = b
  ids : ∀ a ∈ calls, ∀ b ∈ calls, ∀ id ∈ a.ids, id ∈ b.ids → a = b
  full : ∀ a ∈ calls, a.callId ≠ "" ∧ a.name ≠ ""

theorem Distinct.eq_of_key {calls : List Announced} (hd : Distinct calls) {a b : Announced} (ha : a ∈ calls)
    (hb : b ∈ calls) (h : CallKey.index a.index = .index b.index) : a = b :=
  hd.indices a ha b hb (CallKey.index.inj h)

theorem describes_item (a : Announced) : a.Describes (a.item "") where
  id := rfl
  callId := fun _ hid => (Option.some.inj hid).symm
  arguments := .inl rfl

theorem Describes.carries {a : Announced} {c : CallItem} (h : a.Describes c) {id : String} (hid : c.Carries id) :
    id ∈ a.ids := by
  rcases hid with hid | hid
  · rw [h.id] at hid
    exact Option.some.inj hid ▸ a.itemId_mem_ids
  · exact h.callId id hid ▸ a.callId_mem_ids

/-- A finished item adds nothing to a draft that is complete. -/
theorem Describes.fill {a : Announced} {c : CallItem} (h : a.Describes c) :
    c.fill (a.draft a.arguments) = a.draft a.arguments := by
  have hcall : c.callId = none ∨ c.callId = some a.callId := by
    cases hc : c.callId with
    | none => exact .inl rfl
    | some id => exact .inr (by rw [h.callId id hc])
  rcases hcall with hcall | hcall <;> simpa [CallItem.fill, draft, hcall] using h.arguments.resolve_left

end Announced

/-! ## Stages -/

/-- How far a call has come. -/
inductive Stage
  | waiting
  /-- These arguments have arrived. -/
  | active (text : String)
  | given

/-- The draft that the board holds for a call. -/
def Stage.draft? (a : Announced) : Stage → Option CallDraft
  | .active text => some (a.draft text)
  | .waiting | .given => none

namespace Stage

/-- The call has all its arguments, or has been given out. -/
def Settled (a : Announced) (stage : Stage) : Prop := stage = .active a.arguments ∨ stage = .given

theorem ne_given_of_active {stage : Stage} {text : String} (h : stage = .active text) : stage ≠ .given := by
  rw [h]
  simp

theorem ne_waiting_of_active {stage : Stage} {text : String} (h : stage = .active text) : stage ≠ .waiting := by
  rw [h]
  simp

end Stage

abbrev Stages := Announced → Stage

/-- One call has come this far. -/
def Stages.set (stages : Stages) (a : Announced) (stage : Stage) : Stages :=
  fun b => if b = a then stage else stages b

namespace Stages

@[simp] theorem set_self (stages : Stages) (a : Announced) (stage : Stage) : stages.set a stage a = stage := by
  simp [set]

theorem set_of_ne (stages : Stages) {a b : Announced} (h : b ≠ a) (stage : Stage) :
    stages.set a stage b = stages b := by
  simp [set, h]

theorem set_eq_self {stages : Stages} {a : Announced} {stage : Stage} (h : stages a = stage) :
    stages.set a stage = stages := by
  funext b
  by_cases hb : b = a
  · rw [hb, set_self, h]
  · rw [set_of_ne stages hb]

@[simp] theorem set_set (stages : Stages) (a : Announced) (s t : Stage) :
    (stages.set a s).set a t = stages.set a t := by
  funext b
  by_cases h : b = a <;> simp [set, h]

/-- All calls are settled. -/
def Settled (stages : Stages) (calls : List Announced) : Prop := ∀ a ∈ calls, (stages a).Settled a

theorem Settled.set {stages : Stages} {calls : List Announced} (h : Settled stages calls) (a : Announced) :
    Settled (stages.set a .given) calls := by
  intro b hb
  by_cases hba : b = a
  · rw [hba, set_self]
    exact .inr rfl
  · rw [set_of_ne stages hba]
    exact h b hb

end Stages

/-! ## The board -/

/-- The board holds the drafts of the open calls and nothing else; `given` are the calls given out. -/
structure Holds (calls : List Announced) (stages : Stages) (given : List Announced) (b : CallBoard) : Prop where
  drafts : ∀ a ∈ calls, b.get? (.index a.index) = (stages a).draft? a
  entries : ∀ p ∈ b.drafts, ∃ a ∈ calls, p.1 = .index a.index ∧ p.2.id = some a.callId
  ids : ∀ id ∈ b.given, ∃ a ∈ given, id ∈ a.ids
  once : given.Nodup
  told : ∀ a, a ∈ given ↔ a ∈ calls ∧ stages a = .given

namespace Holds

variable {calls given : List Announced} {stages : Stages} {b : CallBoard} {a : Announced}

theorem get?_of_active (h : Holds calls stages given b) (ha : a ∈ calls) {text : String}
    (hs : stages a = .active text) : b.get? (.index a.index) = some (a.draft text) := by
  rw [h.drafts a ha, hs]
  rfl

theorem get?_of_given (h : Holds calls stages given b) (ha : a ∈ calls) (hs : stages a = .given) :
    b.get? (.index a.index) = none := by
  rw [h.drafts a ha, hs]
  rfl

/-- No id of a call counts as given out before the call is. -/
theorem not_given (h : Holds calls stages given b) (hd : Announced.Distinct calls) (ha : a ∈ calls)
    (hs : stages a ≠ .given) {id : String} (hid : id ∈ a.ids) : id ∉ b.given := by
  intro hmem
  obtain ⟨other, hother, hid'⟩ := h.ids id hmem
  obtain ⟨hcalls, hgiven⟩ := (h.told other).1 hother
  have heq : a = other := hd.ids a ha other hcalls id hid hid'
  exact hs (heq ▸ hgiven)

/-- An open call is found by its call id. -/
theorem find?_eq (h : Holds calls stages given b) (hd : Announced.Distinct calls) (ha : a ∈ calls) {text : String}
    (hs : stages a = .active text) : b.find? a.callId = some (.index a.index) := by
  have hdraft := h.get?_of_active ha hs
  have hkey : Ordered.has b.drafts (.id a.callId) = false := by
    cases hget : Ordered.get? b.drafts (.id a.callId) with
    | none => simp [Ordered.has, hget]
    | some draft =>
      obtain ⟨other, -, hindex, -⟩ := h.entries _ (Ordered.mem_of_get? hget)
      cases hindex
  -- its draft carries the id, so the search ends at some draft that does, and no other call has one
  cases hfind : b.drafts.find? (·.2.id == some a.callId) with
  | none =>
    have hnone := List.find?_eq_none.1 hfind _ (Ordered.mem_of_get? hdraft)
    simp [Announced.draft] at hnone
  | some p =>
    obtain ⟨other, hother, hindex, hid⟩ := h.entries p (List.mem_of_find?_eq_some hfind)
    have hsame : p.2.id = some a.callId := by simpa using List.find?_some hfind
    have heq : a = other := hd.ids a ha other hother a.callId a.callId_mem_ids (by
      rw [hsame] at hid
      exact Option.some.inj hid ▸ other.callId_mem_ids)
    subst heq
    simp [CallBoard.find?, hkey, hfind, hindex]

/-- The draft of a call begins, or grows. -/
theorem update (h : Holds calls stages given b) (hd : Announced.Distinct calls) (ha : a ∈ calls)
    (hs : stages a ≠ .given) {change : CallDraft → CallDraft} {text : String}
    (hchange : change (((stages a).draft? a).getD {}) = a.draft text) :
    Holds calls (stages.set a (.active text)) given (b.update (.index a.index) change) where
  drafts := by
    intro c hc
    by_cases hca : c = a
    · subst hca
      rw [CallBoard.get?_update_self, h.drafts c hc, hchange, Stages.set_self]
      rfl
    · have hkey : CallKey.index c.index ≠ .index a.index := fun heq => hca (hd.eq_of_key hc ha heq)
      rw [CallBoard.get?_update_of_ne hkey, h.drafts c hc, Stages.set_of_ne stages hca]
  entries := by
    intro p hp
    rcases Ordered.mem_of_mem_put hp with rfl | hp
    · refine ⟨a, ha, rfl, ?_⟩
      show (change ((b.get? (.index a.index)).getD {})).id = _
      rw [h.drafts a ha, hchange]
      rfl
    · exact h.entries p hp
  ids := h.ids
  once := h.once
  told := by
    intro c
    rw [h.told c]
    by_cases hca : c = a
    · subst hca
      simp [hs]
    · rw [Stages.set_of_ne stages hca]

theorem mark (h : Holds calls stages given b) (ha : a ∈ given) {id : String} (hid : id ∈ a.ids) :
    Holds calls stages given (b.mark id) where
  drafts := h.drafts
  entries := h.entries
  ids := by
    intro x hx
    rcases List.mem_cons.1 hx with rfl | hx
    · exact ⟨a, ha, hid⟩
    · exact h.ids x hx
  once := h.once
  told := h.told

theorem foldl_mark (ids : List String) (h : Holds calls stages given b) (ha : a ∈ given)
    (hids : ∀ id ∈ ids, id ∈ a.ids) : Holds calls stages given (ids.foldl CallBoard.mark b) := by
  induction ids generalizing b with
  | nil => exact h
  | cons id ids ih =>
    exact ih (h.mark ha (hids id (List.mem_cons_self ..))) fun x hx => hids x (List.mem_cons_of_mem _ hx)

/-- A call that has all its arguments is given out as announced. -/
theorem complete (h : Holds calls stages given b) (hd : Announced.Distinct calls) (ha : a ∈ calls)
    (hs : stages a = .active a.arguments) :
    ∃ c, b.complete (.index a.index) = (some a.call, c) ∧ Holds calls (stages.set a .given) (given ++ [a]) c := by
  have hdraft := h.get?_of_active ha hs
  have hopen : stages a ≠ .given := Stage.ne_given_of_active hs
  obtain ⟨hid, hname⟩ := hd.full a ha
  have hcallId : (a.draft a.arguments).callId (.index a.index) = a.callId := by
    simp [CallDraft.callId, Announced.draft, CallBoard.nonEmpty_some hid]
  have hnamed : nonEmpty (a.draft a.arguments).name = some a.name := CallBoard.nonEmpty_some hname
  have hcomplete := CallBoard.complete_of_get? hdraft
    (by rw [hcallId]; exact h.not_given hd ha hopen a.callId_mem_ids) hnamed
  rw [hcallId] at hcomplete
  refine ⟨_, hcomplete, ?_⟩
  constructor
  · intro c hc
    rw [CallBoard.get?_mark]
    by_cases hca : c = a
    · subst hca
      rw [CallBoard.get?_discard_self, Stages.set_self]
      rfl
    · have hkey : CallKey.index c.index ≠ .index a.index := fun heq => hca (hd.eq_of_key hc ha heq)
      rw [CallBoard.get?_discard_of_ne hkey, h.drafts c hc, Stages.set_of_ne stages hca]
  · intro p hp
    exact h.entries p (Ordered.mem_of_mem_erase hp)
  · intro id hmem
    rcases List.mem_cons.1 hmem with rfl | hmem
    · exact ⟨a, by simp, a.callId_mem_ids⟩
    · obtain ⟨other, hother, hid'⟩ := h.ids id hmem
      exact ⟨other, List.mem_append_left _ hother, hid'⟩
  · refine List.nodup_append.2 ⟨h.once, by simp, ?_⟩
    intro x hx y hy
    cases List.mem_singleton.1 hy
    rintro rfl
    exact hopen ((h.told x).1 hx).2
  · intro c
    rw [List.mem_append, h.told c, List.mem_singleton]
    by_cases hca : c = a
    · subst hca
      simp [ha]
    · rw [Stages.set_of_ne stages hca]
      simp [hca]

/-- Completing the keys of all open calls gives out the calls that were left. -/
theorem completeAll (keys : List CallKey) (h : Holds calls stages given b) (hd : Announced.Distinct calls)
    (hsettled : stages.Settled calls) (hkeys : ∀ key ∈ keys, ∃ a ∈ calls, key = .index a.index)
    (hopen : ∀ a ∈ calls, stages a ≠ .given → .index a.index ∈ keys) :
    ∃ more, (CallBoard.completeAll keys b).1 = more.map Announced.call ∧ (given ++ more).Perm calls := by
  -- the stages carry the induction: a key that comes again finds its call given out
  induction keys generalizing stages given b with
  | nil =>
    refine ⟨[], rfl, ?_⟩
    rw [List.append_nil]
    refine (List.perm_ext_iff_of_nodup h.once hd.once).2 fun a => ?_
    rw [h.told a]
    refine ⟨And.left, fun ha => ⟨ha, ?_⟩⟩
    rcases hsettled a ha with hs | hs
    · have hmem := hopen a ha (Stage.ne_given_of_active hs)
      cases hmem
    · exact hs
  | cons key keys ih =>
    obtain ⟨a, ha, rfl⟩ := hkeys key (List.mem_cons_self ..)
    have hkeys' : ∀ key ∈ keys, ∃ a ∈ calls, key = .index a.index :=
      fun key hkey => hkeys key (List.mem_cons_of_mem _ hkey)
    rcases hsettled a ha with hs | hs
    · obtain ⟨c, hcomplete, hc⟩ := h.complete hd ha hs
      obtain ⟨more, hmore, hperm⟩ := ih hc (hsettled.set a) hkeys' fun x hx hxs => by
        by_cases hxa : x = a
        · rw [hxa, Stages.set_self] at hxs
          exact (hxs rfl).elim
        · rw [Stages.set_of_ne stages hxa] at hxs
          rcases List.mem_cons.1 (hopen x hx hxs) with heq | hmem
          · exact (hxa (hd.eq_of_key hx ha heq)).elim
          · exact hmem
      refine ⟨a :: more, ?_, by rwa [List.append_assoc] at hperm⟩
      simp [CallBoard.completeAll, hcomplete, hmore]
    · have hnone := CallBoard.complete_of_get?_none (h.get?_of_given ha hs)
      obtain ⟨more, hmore, hperm⟩ := ih h hsettled hkeys' fun x hx hxs => by
        rcases List.mem_cons.1 (hopen x hx hxs) with heq | hmem
        · exact (hxs (hd.eq_of_key hx ha heq ▸ hs)).elim
        · exact hmem
      refine ⟨more, ?_, hperm⟩
      simp [CallBoard.completeAll, hnone, hmore]

/-- What is still open at the end is given out then. -/
theorem drain (h : Holds calls stages given b) (hd : Announced.Distinct calls) (hsettled : stages.Settled calls) :
    ∃ more, b.drain.1 = more.map Announced.call ∧ (given ++ more).Perm calls := by
  refine h.completeAll _ hd hsettled ?_ ?_
  · intro key hkey
    obtain ⟨p, hp, rfl⟩ := List.mem_map.1 hkey
    obtain ⟨a, ha, hindex, -⟩ := h.entries p hp
    exact ⟨a, ha, hindex⟩
  · intro a ha hs
    rcases hsettled a ha with hopen | hgiven
    · exact List.mem_map.2 ⟨_, Ordered.mem_of_get? (h.get?_of_active ha hopen), rfl⟩
    · exact (hs hgiven).elim

end Holds

end ModelStream.Responses
