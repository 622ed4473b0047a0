/-
Association lists in ascending order of their keys, every key once. `put` keeps that order, so that
going through the list goes through the keys in order. The look-up laws hold for every list.
-/
namespace ModelStream.Ordered

variable {κ α : Type} [LT κ] [DecidableLT κ] [DecidableEq κ]

/-- Sets the value of a key. -/
def put (key : κ) (value : α) : List (κ × α) → List (κ × α)
  | [] => [(key, value)]
  | (k, v) :: rest =>
    if key < k then (key, value) :: (k, v) :: rest
    else if key = k then (key, value) :: rest
    else (k, v) :: put key value rest

omit [LT κ] [DecidableLT κ] in
/-- The value of a key. -/
def get? (entries : List (κ × α)) (key : κ) : Option α :=
  match entries with
  | [] => none
  | (k, v) :: rest => if key = k then some v else get? rest key

omit [LT κ] [DecidableLT κ] in
def has (entries : List (κ × α)) (key : κ) : Bool := (get? entries key).isSome

omit [LT κ] [DecidableLT κ] in
/-- Takes a key out. -/
def erase (entries : List (κ × α)) (key : κ) : List (κ × α) := entries.filter (·.1 ≠ key)

/-- The entries of a list of pairs; of equal keys the last one counts. -/
def ofList (pairs : List (κ × α)) : List (κ × α) :=
  pairs.foldl (fun entries p => put p.1 p.2 entries) []

/-! ## Look-up -/

@[simp] theorem get?_put_self (key : κ) (value : α) (entries : List (κ × α)) :
    get? (put key value entries) key = some value := by
  induction entries with
  | nil => simp [put, get?]
  | cons p rest ih =>
    obtain ⟨k, v⟩ := p
    unfold put; split
    · simp [get?]
    · split
      · simp [get?]
      · next h => simp [get?, h, ih]

theorem get?_put_of_ne {key other : κ} (h : other ≠ key) (value : α) (entries : List (κ × α)) :
    get? (put key value entries) other = get? entries other := by
  induction entries with
  | nil => simp [put, get?, h]
  | cons p rest ih =>
    obtain ⟨k, v⟩ := p
    unfold put; split
    · simp [get?, h]
    · split
      · next he => subst he; simp [get?, h]
      · simp [get?, ih]

omit [LT κ] [DecidableLT κ] in
@[simp] theorem get?_erase_self (entries : List (κ × α)) (key : κ) : get? (erase entries key) key = none := by
  induction entries with
  | nil => simp [erase, get?]
  | cons p rest ih =>
    unfold erase at *
    by_cases h : p.1 = key
    · simpa [h] using ih
    · simp only [ne_eq, h, not_false_eq_true, decide_true, List.filter_cons_of_pos]
      obtain ⟨k, v⟩ := p
      simp [get?, Ne.symm h]; simpa using ih

omit [LT κ] [DecidableLT κ] in
theorem erase_cons (k : κ) (v : α) (rest : List (κ × α)) (key : κ) :
    erase ((k, v) :: rest) key = if k = key then erase rest key else (k, v) :: erase rest key := by
  by_cases h : k = key <;> simp [erase, h]

omit [LT κ] [DecidableLT κ] in
theorem get?_erase_of_ne {key other : κ} (h : other ≠ key) (entries : List (κ × α)) :
    get? (erase entries key) other = get? entries other := by
  induction entries with
  | nil => rfl
  | cons p rest ih =>
    obtain ⟨k, v⟩ := p
    rw [erase_cons]; split
    · next hk => subst hk; simp [get?, h, ih]
    · simp [get?, ih]

omit [LT κ] [DecidableLT κ] in
/-- A key that is not there is taken out without effect. -/
theorem erase_of_get?_none {key : κ} {entries : List (κ × α)} (h : get? entries key = none) :
    erase entries key = entries := by
  induction entries with
  | nil => rfl
  | cons p rest ih =>
    obtain ⟨k, v⟩ := p
    unfold get? at h; split at h
    · cases h
    · next hk => rw [erase_cons, if_neg (Ne.symm hk), ih h]

/-! ## Entries -/

omit [LT κ] [DecidableLT κ] in
theorem mem_of_get? {entries : List (κ × α)} {key : κ} {value : α} (h : get? entries key = some value) :
    (key, value) ∈ entries := by
  induction entries with
  | nil => cases h
  | cons p rest ih =>
    obtain ⟨k, v⟩ := p
    unfold get? at h; split at h
    · next hk => cases h; subst hk; exact List.mem_cons_self ..
    · exact List.mem_cons_of_mem _ (ih h)

theorem mem_of_mem_put {key : κ} {value : α} {entries : List (κ × α)} {p : κ × α}
    (h : p ∈ put key value entries) : p = (key, value) ∨ p ∈ entries := by
  induction entries with
  | nil => exact .inl (List.mem_singleton.1 h)
  | cons q rest ih =>
    obtain ⟨k, v⟩ := q
    unfold put at h; split at h
    · exact List.mem_cons.1 h
    · split at h
      · rcases List.mem_cons.1 h with h | h
        · exact .inl h
        · exact .inr (List.mem_cons_of_mem _ h)
      · rcases List.mem_cons.1 h with h | h
        · exact .inr (h ▸ List.mem_cons_self ..)
        · exact (ih h).imp_right (List.mem_cons_of_mem _)

omit [LT κ] [DecidableLT κ] in
theorem mem_of_mem_erase {key : κ} {entries : List (κ × α)} {p : κ × α} (h : p ∈ erase entries key) :
    p ∈ entries := (List.mem_filter.1 h).1

end ModelStream.Ordered
