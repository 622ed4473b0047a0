/-
Laws of ordered association lists whose keys ascend. Setting and taking out keys keeps the order; a
list in order is a function from keys to values, and it is known by its entries.
-/
import Mathlib.Order.Defs.Unbundled
import ModelStream.Ordered

namespace ModelStream.Ordered

variable {κ α : Type} [LT κ] [DecidableLT κ] [DecidableEq κ] {entries : List (κ × α)}

omit [DecidableLT κ] [DecidableEq κ] in
/-- The keys ascend. -/
def Sorted (entries : List (κ × α)) : Prop := entries.Pairwise fun p q => p.1 < q.1

omit [LT κ] [DecidableLT κ] in
theorem mem_erase_iff {key : κ} {p : κ × α} : p ∈ erase entries key ↔ p ∈ entries ∧ p.1 ≠ key := by
  simp [erase, List.mem_filter]

omit [DecidableLT κ] in
theorem sorted_erase (h : Sorted entries) (key : κ) : Sorted (erase entries key) := List.Pairwise.filter _ h

/-! ## Some of the keys -/

/-- Setting a key changes nothing about the others. -/
theorem filter_put {p : κ → Bool} {key : κ} (h : p key = false) (value : α) (entries : List (κ × α)) :
    (put key value entries).filter (p ·.1) = entries.filter (p ·.1) := by
  induction entries with
  | nil => simp [put, h]
  | cons first rest ih =>
    obtain ⟨k, v⟩ := first
    unfold put
    split
    · simp [h]
    · split
      · next heq =>
        subst heq
        simp [h]
      · simp [List.filter_cons, ih]

omit [LT κ] [DecidableLT κ] in
theorem filter_erase {p : κ → Bool} {key : κ} (h : p key = false) (entries : List (κ × α)) :
    (erase entries key).filter (p ·.1) = entries.filter (p ·.1) := by
  rw [erase, List.filter_filter]
  refine List.filter_congr fun entry _ => ?_
  by_cases hkey : entry.1 = key <;> simp [hkey, h]

omit [LT κ] [DecidableLT κ] in
theorem get?_filter {p : κ → Bool} {key : κ} (h : p key = true) (entries : List (κ × α)) :
    get? (entries.filter (p ·.1)) key = get? entries key := by
  induction entries with
  | nil => rfl
  | cons first rest ih =>
    obtain ⟨k, v⟩ := first
    by_cases hkey : key = k
    · subst hkey
      simp [get?, h]
    · rw [List.filter_cons]
      split <;> simp [get?, hkey, ih]

omit [LT κ] [DecidableLT κ] in
theorem get?_isSome_of_mem {p : κ × α} (h : p ∈ entries) : (get? entries p.1).isSome := by
  induction entries with
  | nil => cases h
  | cons first rest ih =>
    obtain ⟨k, v⟩ := first
    unfold get?
    split
    · rfl
    · next hkey =>
      rcases List.mem_cons.1 h with rfl | h
      · exact (hkey rfl).elim
      · exact ih h

/-! ## Keys in order -/

variable [IsStrictTotalOrder κ fun a b : κ => a < b]

omit [DecidableLT κ] [DecidableEq κ] in
theorem not_lt_self (key : κ) : ¬ key < key := irrefl_of (fun a b : κ => a < b) key

omit [DecidableLT κ] [DecidableEq κ] in
theorem lt_of_lt_of_lt {a b c : κ} (h : a < b) (k : b < c) : a < c := trans_of (fun a b : κ => a < b) h k

omit [DecidableLT κ] [DecidableEq κ] in
theorem lt_of_not_lt {a b : κ} (h : ¬ a < b) (k : a ≠ b) : b < a :=
  ((trichotomous_of (fun a b : κ => a < b) a b).resolve_left h).resolve_left k

theorem sorted_put (h : Sorted entries) (key : κ) (value : α) : Sorted (put key value entries) := by
  induction entries with
  | nil => exact List.pairwise_singleton ..
  | cons first rest ih =>
    obtain ⟨k, v⟩ := first
    obtain ⟨hfirst, hrest⟩ := List.pairwise_cons.1 h
    unfold put
    split
    · next hlt =>
      refine List.pairwise_cons.2 ⟨fun p hp => ?_, h⟩
      rcases List.mem_cons.1 hp with rfl | hp
      · exact hlt
      · exact lt_of_lt_of_lt hlt (hfirst p hp)
    · next hlt =>
      split
      · next heq =>
        subst heq
        exact List.pairwise_cons.2 ⟨hfirst, hrest⟩
      · next hne =>
        refine List.pairwise_cons.2 ⟨fun p hp => ?_, ih hrest⟩
        rcases mem_of_mem_put hp with rfl | hp
        · exact lt_of_not_lt hlt hne
        · exact hfirst p hp

omit [DecidableLT κ] in
/-- The value of a key is that of its entry. -/
theorem get?_eq_some_iff (h : Sorted entries) {key : κ} {value : α} :
    get? entries key = some value ↔ (key, value) ∈ entries := by
  refine ⟨mem_of_get?, fun hmem => ?_⟩
  induction entries with
  | nil => cases hmem
  | cons first rest ih =>
    obtain ⟨k, v⟩ := first
    obtain ⟨hfirst, hrest⟩ := List.pairwise_cons.1 h
    rcases List.mem_cons.1 hmem with heq | hin
    · cases heq
      simp [get?]
    · have hlt : k < key := hfirst (key, value) hin
      have hne : key ≠ k := fun heq => not_lt_self k (heq ▸ hlt)
      simpa [get?, hne] using ih hrest hin

theorem mem_put_iff (h : Sorted entries) {key : κ} {value : α} {p : κ × α} :
    p ∈ put key value entries ↔ p = (key, value) ∨ p ∈ entries ∧ p.1 ≠ key := by
  obtain ⟨k, v⟩ := p
  rw [← get?_eq_some_iff (sorted_put h key value), ← get?_eq_some_iff h]
  by_cases hk : k = key
  · subst hk
    simp [eq_comm]
  · simp [get?_put_of_ne hk, hk]

omit [DecidableLT κ] [DecidableEq κ] in
/-- Lists in order with the same entries are equal. -/
theorem eq_of_mem_iff {others : List (κ × α)} (h : Sorted entries) (k : Sorted others)
    (hmem : ∀ p, p ∈ entries ↔ p ∈ others) : entries = others := by
  have hnodup : ∀ {l : List (κ × α)}, Sorted l → l.Nodup := by
    intro l hl
    refine List.Pairwise.imp (fun {p q} hlt heq => ?_) hl
    subst heq
    exact not_lt_self p.1 hlt
  have hperm : entries.Perm others := (List.perm_ext_iff_of_nodup (hnodup h) (hnodup k)).2 hmem
  exact hperm.eq_of_pairwise (fun p q _ _ hpq hqp => (not_lt_self p.1 (lt_of_lt_of_lt hpq hqp)).elim) h k

/-! ## Lists of pairs -/

omit [IsStrictTotalOrder κ fun a b : κ => a < b] in
/-- The value of a key is the last one that it was given. -/
theorem get?_ofList (pairs : List (κ × α)) (key : κ) : get? (ofList pairs) key = pairs.reverse.lookup key := by
  have laid : ∀ (pairs entries : List (κ × α)),
      get? (pairs.foldl (fun entries p => put p.1 p.2 entries) entries) key =
        (pairs.reverse.lookup key <|> get? entries key) := by
    intro pairs
    induction pairs with
    | nil => exact fun entries => rfl
    | cons p rest ih =>
      intro entries
      obtain ⟨k, v⟩ := p
      rw [List.foldl_cons, ih, List.reverse_cons, List.lookup_append]
      by_cases hkey : key = k
      · subst hkey
        cases rest.reverse.lookup key <;> simp [List.lookup_cons_self]
      · have hne : (key == k) = false := by simpa using hkey
        cases rest.reverse.lookup key <;> simp [List.lookup_cons, hne, get?_put_of_ne hkey]
  have hall := laid pairs []
  cases hlookup : pairs.reverse.lookup key <;> rw [hlookup] at hall <;> exact hall

theorem sorted_ofList (pairs : List (κ × α)) : Sorted (ofList pairs) := by
  have laid : ∀ (pairs entries : List (κ × α)), Sorted entries →
      Sorted (pairs.foldl (fun entries p => put p.1 p.2 entries) entries) := by
    intro pairs
    induction pairs with
    | nil => exact fun _ h => h
    | cons p rest ih => exact fun _ h => ih _ (sorted_put h p.1 p.2)
  exact laid pairs [] List.Pairwise.nil

omit [IsStrictTotalOrder κ fun a b : κ => a < b] in
theorem mem_of_mem_ofList {pairs : List (κ × α)} {p : κ × α} (h : p ∈ ofList pairs) : p ∈ pairs := by
  have laid : ∀ (pairs entries : List (κ × α)),
      p ∈ pairs.foldl (fun entries p => put p.1 p.2 entries) entries → p ∈ pairs ∨ p ∈ entries := by
    intro pairs
    induction pairs with
    | nil => exact fun _ h => .inr h
    | cons q rest ih =>
      intro entries h
      rcases ih _ h with h | h
      · exact .inl (List.mem_cons_of_mem _ h)
      · rcases mem_of_mem_put h with rfl | h
        · exact .inl (List.mem_cons_self ..)
        · exact .inr h
  exact (laid pairs [] h).resolve_right (by simp)

/-- A key after all others goes to the end. -/
theorem put_last {key : κ} (h : ∀ p ∈ entries, p.1 < key) (value : α) : put key value entries = entries ++ [(key, value)] := by
  induction entries with
  | nil => rfl
  | cons p rest ih =>
    obtain ⟨k, v⟩ := p
    have hlt : k < key := h _ (List.mem_cons_self ..)
    have hnlt : ¬ key < k := fun hk => not_lt_self key (lt_of_lt_of_lt hk hlt)
    have hne : key ≠ k := fun hk => not_lt_self key (hk ▸ hlt)
    rw [put, if_neg hnlt, if_neg hne, ih fun q hq => h q (List.mem_cons_of_mem _ hq)]
    rfl

/-- Sorted entries are those of the list that they are. -/
theorem ofList_of_sorted (h : Sorted entries) : ofList entries = entries := by
  have laid : ∀ (pairs entries : List (κ × α)), Sorted (entries ++ pairs) →
      pairs.foldl (fun entries p => put p.1 p.2 entries) entries = entries ++ pairs := by
    intro pairs
    induction pairs with
    | nil => exact fun entries _ => (List.append_nil entries).symm
    | cons p rest ih =>
      intro entries h
      have hlast : ∀ q ∈ entries, q.1 < p.1 := fun q hq => (List.pairwise_append.1 h).2.2 q hq p (List.mem_cons_self ..)
      rw [List.foldl_cons, put_last hlast, ih _ (by simpa using h)]
      simp
  exact laid entries [] h

end ModelStream.Ordered
