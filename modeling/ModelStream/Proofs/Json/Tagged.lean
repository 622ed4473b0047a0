/-
Reading the kind of an object. A tree that can be read as a value is read as a tagged value of the kind that
stands in a field of the value, if that field is written once (`Reader.tagged_of_value`). A value can be read
once more and gives itself (`Tree.value_ofValue`), and no name is written twice in it.
-/
import Mathlib.Data.String.Basic
import ModelStream.Json.Reading
import ModelStream.Proofs.Ordered

namespace ModelStream.Json

theorem bind_eq_ok {α β : Type} {x : Except Problem α} {f : α → Except Problem β} {b : β} :
    x >>= f = .ok b ↔ ∃ a, x = .ok a ∧ f a = .ok b := by
  cases x with
  | error problem => simp [bind, Except.bind]
  | ok a => simp [bind, Except.bind]

theorem Break.check_eq_ok {cut : Option Break} {u : Unit} : Break.check cut = .ok u ↔ cut = none := by
  cases cut <;> simp [check]

theorem Key.read_eq_ok {key : Key} {name : String} : key.read = .ok name ↔ key = some name := by
  cases key <;> simp [read]

namespace Tree

/-! ## Objects that can be read -/

/-- The names of the fields, as they are written. -/
def names : Tree → List Key
  | .object fields _ => fields.map (·.1)
  | _ => []

theorem values_cons {depth : Nat} {t : Tree} {ts : List Tree} {vs : List Json} (h : values depth (t :: ts) = .ok vs) :
    ∃ v rest, t.value depth = .ok v ∧ values depth ts = .ok rest ∧ vs = v :: rest := by
  simp only [values, bind_eq_ok, pure, Except.pure, Except.ok.injEq] at h
  obtain ⟨v, hv, rest, hrest, rfl⟩ := h
  exact ⟨v, rest, hv, hrest, rfl⟩

theorem fieldValues_cons {depth : Nat} {key : Key} {t : Tree} {more : List (Key × Tree)} {vs : List (String × Json)}
    (h : fieldValues depth ((key, t) :: more) = .ok vs) :
    ∃ name v rest, key = some name ∧ t.value depth = .ok v ∧ fieldValues depth more = .ok rest ∧
      vs = (name, v) :: rest := by
  simp only [fieldValues, bind_eq_ok, Key.read_eq_ok, pure, Except.pure, Except.ok.injEq] at h
  obtain ⟨name, hname, v, hv, rest, hrest, rfl⟩ := h
  exact ⟨name, v, rest, hname, hv, hrest, rfl⟩

theorem fieldValues_names {depth : Nat} {fields : List (Key × Tree)} {vs : List (String × Json)}
    (h : fieldValues depth fields = .ok vs) : fields.map (·.1) = vs.map (some ·.1) := by
  induction fields generalizing vs with
  | nil => cases h; rfl
  | cons field more ih =>
    obtain ⟨name, v, rest, hname, -, hrest, rfl⟩ := fieldValues_cons h
    rw [List.map_cons, List.map_cons, ih hrest, hname]

/-- The value of a list is that of its items, and nothing breaks it off. -/
theorem value_list {depth : Nat} {items : List Tree} {cut : Option Break} {v : Json}
    (h : value depth (.list items cut) = .ok v) :
    ∃ inner vs, depth = inner + 1 ∧ values inner items = .ok vs ∧ cut = none ∧ v = .arr vs := by
  cases depth with
  | zero => cases h
  | succ inner =>
    simp only [value, Nat.add_one_ne_zero, if_false, bind_eq_ok, Break.check_eq_ok, pure, Except.pure,
      Except.ok.injEq] at h
    obtain ⟨vs, hvs, -, hcut, rfl⟩ := h
    exact ⟨inner, vs, rfl, hvs, hcut, rfl⟩

/-- The value of an object is that of its fields, and nothing breaks it off. -/
theorem value_object {depth : Nat} {fields : List (Key × Tree)} {cut : Option Break} {v : Json}
    (h : value depth (.object fields cut) = .ok v) :
    ∃ inner vs, depth = inner + 1 ∧ fieldValues inner fields = .ok vs ∧ cut = none ∧ v = Json.object vs := by
  cases depth with
  | zero => cases h
  | succ inner =>
    simp only [value, Nat.add_one_ne_zero, if_false, bind_eq_ok, Break.check_eq_ok, pure, Except.pure,
      Except.ok.injEq] at h
    obtain ⟨vs, hvs, -, hcut, rfl⟩ := h
    exact ⟨inner, vs, rfl, hvs, hcut, rfl⟩

theorem value_scalar {depth : Nat} {s : Scalar} {v : Json} (h : value depth (.scalar s) = .ok v) :
    ofValue v = .scalar s := by
  unfold value Scalar.value at h
  split at h <;> first | (cases h; rfl) | cases h

theorem eq_text {depth : Nat} {t : Tree} {said : String} (h : t.value depth = .ok (.str said)) :
    t = .scalar (.text (some said)) := by
  cases t with
  | scalar s => exact congrArg Tree.scalar (Tree.scalar.inj (value_scalar h)).symm
  | broken b => cases h
  | list items cut => obtain ⟨_, _, _, _, _, hv⟩ := value_list h; cases hv
  | object fields cut => obtain ⟨_, _, _, _, _, hv⟩ := value_object h; cases hv

/-! ## Values read again -/

theorem values_ofValues {depth : Nat} {vs : List Json} (h : ∀ v ∈ vs, (ofValue v).value depth = .ok v) :
    values depth (ofValues vs) = .ok vs := by
  induction vs with
  | nil => rfl
  | cons v rest ih =>
    rw [ofValues, values, h v (List.mem_cons_self ..), ih fun w hw => h w (List.mem_cons_of_mem _ hw)]
    rfl

theorem fieldValues_ofFields {depth : Nat} {entries : Fields} (h : ∀ p ∈ entries, (ofValue p.2).value depth = .ok p.2) :
    fieldValues depth (ofFields entries) = .ok entries := by
  induction entries with
  | nil => rfl
  | cons p rest ih =>
    rw [ofFields, fieldValues, h p (List.mem_cons_self ..), ih fun q hq => h q (List.mem_cons_of_mem _ hq)]
    rfl

mutual

/-- The value of a tree can be read once more, and gives itself. -/
theorem value_ofValue {depth : Nat} {v : Json} : ∀ {t : Tree}, t.value depth = .ok v → (ofValue v).value depth = .ok v
  | .scalar s, h => by
    rw [value_scalar h]
    exact h
  | .broken b, h => by cases h
  | .list items cut, h => by
    obtain ⟨inner, vs, rfl, hvs, rfl, rfl⟩ := value_list h
    have hagain := values_ofValues (mem_values_ofValue hvs)
    rw [ofValue, value, if_neg (Nat.add_one_ne_zero _), Nat.add_one_sub_one, hagain]
    rfl
  | .object fields cut, h => by
    obtain ⟨inner, vs, rfl, hvs, rfl, rfl⟩ := value_object h
    have hagain : fieldValues inner (ofFields (Ordered.ofList vs)) = .ok (Ordered.ofList vs) :=
      fieldValues_ofFields fun p hp => mem_fieldValues_ofValue hvs p (Ordered.mem_of_mem_ofList hp)
    have hsame : Ordered.ofList (Ordered.ofList vs) = Ordered.ofList vs :=
      Ordered.ofList_of_sorted (Ordered.sorted_ofList vs)
    rw [Json.object, ofValue, value, if_neg (Nat.add_one_ne_zero _), Nat.add_one_sub_one, hagain]
    exact congrArg (fun entries => Except.ok (Json.obj entries)) hsame

theorem mem_values_ofValue {depth : Nat} : ∀ {items : List Tree} {vs : List Json}, values depth items = .ok vs →
    ∀ v ∈ vs, (ofValue v).value depth = .ok v
  | [], _, h => by cases h; simp
  | t :: ts, _, h => by
    obtain ⟨v, rest, hv, hrest, rfl⟩ := values_cons h
    intro w hw
    rcases List.mem_cons.1 hw with rfl | hw
    · exact value_ofValue hv
    · exact mem_values_ofValue hrest w hw

theorem mem_fieldValues_ofValue {depth : Nat} : ∀ {fields : List (Key × Tree)} {vs : List (String × Json)},
    fieldValues depth fields = .ok vs → ∀ p ∈ vs, (ofValue p.2).value depth = .ok p.2
  | [], _, h => by cases h; simp
  | (key, t) :: more, _, h => by
    obtain ⟨name, v, rest, -, hv, hrest, rfl⟩ := fieldValues_cons h
    intro p hp
    rcases List.mem_cons.1 hp with rfl | hp
    · exact value_ofValue hv
    · exact mem_fieldValues_ofValue hrest p hp

end

theorem names_ofValue (entries : Fields) : (ofValue (.obj entries)).names = entries.map (some ·.1) := by
  show (ofFields entries).map (·.1) = _
  induction entries with
  | nil => rfl
  | cons p rest ih => rw [ofFields, List.map_cons, List.map_cons, ih]

/-- Only the value of an object has fields. -/
theorem eq_object_of_get? {depth : Nat} {t : Tree} {v w : Json} {name : String} (h : t.value depth = .ok v)
    (hname : v.get? name = some w) : ∃ vs, v = Json.object vs := by
  cases t with
  | object fields cut =>
    obtain ⟨_, vs, _, _, _, hv⟩ := value_object h
    exact ⟨vs, hv⟩
  | scalar s =>
    have hv := value_scalar h
    cases v with
    | obj entries => cases hv
    | null | bool | number | str | arr => cases hname
  | broken b => cases h
  | list items cut =>
    obtain ⟨_, _, _, _, _, rfl⟩ := value_list h
    cases hname

/-- No name is written twice in a value. -/
theorem count_names_ofValue {depth : Nat} {t : Tree} {v w : Json} {name : String} (h : t.value depth = .ok v)
    (hname : v.get? name = some w) : (ofValue v).names.count (some name) = 1 := by
  obtain ⟨vs, rfl⟩ := eq_object_of_get? h hname
  have hmem : (name, w) ∈ Ordered.ofList vs := Ordered.mem_of_get? hname
  have hnodup : ((Ordered.ofList vs).map (some ·.1)).Nodup := by
    refine List.Pairwise.map _ (fun p q (hlt : p.1 < q.1) heq => ?_) (Ordered.sorted_ofList vs)
    rw [Option.some.inj heq] at hlt
    exact Ordered.not_lt_self q.1 hlt
  rw [Json.object, names_ofValue, hnodup.count, if_pos (List.mem_map.2 ⟨_, hmem, rfl⟩)]

end Tree

namespace Reader

/-! ## Tags -/

variable {name : String} {l : Limits}

/-- Fields without the tag are all kept. -/
theorem splitFields_of_not_mem {fields : List (Key × Tree)} {vs : List (String × Json)}
    (h : Tree.fieldValues l.depth fields = .ok vs) (hnone : some name ∉ fields.map (·.1)) (found : Option String)
    (rest : List (Key × Tree)) :
    splitFields name text l fields found rest = .ok (found, rest.reverse ++ fields) := by
  induction fields generalizing vs rest with
  | nil => simp [splitFields, pure, Except.pure]
  | cons field more ih =>
    obtain ⟨key, t⟩ := field
    obtain ⟨other, v, vs, rfl, hv, hrest, rfl⟩ := Tree.fieldValues_cons h
    simp only [List.map_cons, List.mem_cons, not_or, Option.some.injEq] at hnone
    have hne : (other == name) = false := by simpa using Ne.symm hnone.1
    simp [splitFields, Key.read, hne, hv, bind, Except.bind, ih hrest hnone.2]

/-- The tag is found where it is written once. -/
theorem splitFields_of_mem {fields : List (Key × Tree)} {vs : List (String × Json)} {kind : String}
    (h : Tree.fieldValues l.depth fields = .ok vs) (hone : (fields.map (·.1)).count (some name) = 1)
    (hkind : (name, .str kind) ∈ vs) (rest : List (Key × Tree)) :
    ∃ others, splitFields name text l fields none rest = .ok (some kind, others) := by
  induction fields generalizing vs rest with
  | nil => cases h; simp at hkind
  | cons field more ih =>
    obtain ⟨key, t⟩ := field
    obtain ⟨other, v, vs, rfl, hv, hrest, rfl⟩ := Tree.fieldValues_cons h
    rw [List.map_cons, List.count_cons] at hone
    by_cases hname : other = name
    · subst hname
      -- this is the only one, so the kind stands here
      have hnone : some other ∉ more.map (·.1) := List.count_eq_zero.1 (by simpa using hone)
      have hv' : v = .str kind := by
        rcases List.mem_cons.1 hkind with heq | hmem
        · exact (Prod.mk.inj heq).2.symm
        · rw [Tree.fieldValues_names hrest] at hnone
          exact absurd (List.mem_map.2 ⟨_, hmem, rfl⟩) hnone
      rw [hv'] at hv
      simp [splitFields, Key.read, Tree.eq_text hv, text, bind, Except.bind, pure, Except.pure,
        splitFields_of_not_mem hrest hnone]
    · have hne : (other == name) = false := by simpa using hname
      have hmem : (name, Json.str kind) ∈ vs := (List.mem_cons.1 hkind).resolve_left fun heq =>
        hname (Prod.mk.inj heq).1.symm
      obtain ⟨others, hothers⟩ := ih hrest (by simpa [hname] using hone) hmem ((some other, t) :: rest)
      exact ⟨others, by simpa [splitFields, Key.read, hne, hv, bind, Except.bind] using hothers⟩

/-- A tree that names a kind once is read as a tagged value of this kind. -/
theorem tagged_of_value {t : Tree} {v : Json} {kind : String} (h : t.value l.depth = .ok v)
    (hkind : v.get? name = some (.str kind)) (hone : t.names.count (some name) = 1) :
    ∃ rest, tagged name text l t = .ok (kind, .object rest none) := by
  cases t with
  | object fields cut =>
    obtain ⟨inner, vs, hdepth, hvs, rfl, rfl⟩ := Tree.value_object h
    have hmem : (name, Json.str kind) ∈ vs := Ordered.mem_of_mem_ofList (Ordered.mem_of_get? hkind)
    obtain ⟨others, hothers⟩ := splitFields_of_mem (l := { l with depth := inner }) hvs hone hmem []
    exact ⟨others, by simp [tagged, inside, hdepth, hothers, Break.check, bind, Except.bind, pure, Except.pure]⟩
  | scalar | broken | list => simp [Tree.names] at hone

end Reader

/-! ## Payloads -/

theorem parse_eq_ok {text : String} {v : Json} :
    parse text = .ok v ↔ (Document.ofText text).root.value maxDepth = .ok v ∧ (Document.ofText text).trailing = false := by
  unfold parse Document.value
  rw [bind_eq_ok]
  cases (Document.ofText text).trailing <;> simp [pure, Except.pure, throw, throwThe, MonadExceptOf.throw, bind, Except.bind]

/-- The kind that an object names. -/
def kind? (v : Json) : Option String := (v.get? "type").bind str?

theorem get?_of_kind? {v : Json} {kind : String} (h : v.kind? = some kind) : v.get? "type" = some (.str kind) := by
  obtain ⟨field, hfield, hsaid⟩ := Option.bind_eq_some_iff.1 h
  cases field with
  | str said => rw [hfield, Option.some.inj hsaid]
  | null | bool | number | arr | obj => cases hsaid

/-- A text that names its kind once is read as a tagged value of this kind. -/
theorem Reader.tagged_of_parse {text : String} {v : Json} {kind : String} {l : Limits} (h : parse text = .ok v)
    (hkind : v.kind? = some kind) (hone : (Document.ofText text).root.names.count (some "type") = 1)
    (hdepth : l.depth = maxDepth) :
    ∃ rest, tagged "type" Reader.text l (Document.ofText text).root = .ok (kind, .object rest none) :=
  tagged_of_value (hdepth ▸ (parse_eq_ok.1 h).1) (get?_of_kind? hkind) hone

/-- The value of a text is read as a tagged value of the kind that it names. -/
theorem Reader.tagged_ofValue {text : String} {v : Json} {kind : String} (h : parse text = .ok v)
    (hkind : v.kind? = some kind) :
    ∃ rest, tagged "type" Reader.text {} (.ofValue v) = .ok (kind, .object rest none) := by
  have hvalue := (parse_eq_ok.1 h).1
  have hfield := get?_of_kind? hkind
  exact tagged_of_value (Tree.value_ofValue hvalue) hfield (Tree.count_names_ofValue hvalue hfield)

end ModelStream.Json
