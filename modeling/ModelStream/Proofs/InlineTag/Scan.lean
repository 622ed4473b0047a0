/-
Scanning text of which more may come. When no tag name holds one of the characters that delimit tags, a
tag found in a text is found in every longer text; and a tag that only a longer text shows begins with the
last `<` of the shorter one (`of_opened?_append`, `not_mem_of_begins`). So no tag opens in the text before
what the scanner holds back, whatever comes later (`undecided_split`), and such text need not be scanned
again (`scan_unopened`).
-/
import Mathlib.Data.List.Basic
import Mathlib.Data.List.TakeWhile
import ModelStream.Proofs.InlineTag.Segments

namespace ModelStream.InlineTag

variable {tags : List InlineTag} {t : InlineTag} {text more run : List Char}

/-! ## Openings -/

/-- No name holds a character that delimits tags. -/
def Plain (tags : List InlineTag) : Prop := ∀ t ∈ tags, '<' ∉ t.name ∧ '>' ∉ t.name

/-- The text is the beginning of an opening, but not all of it. -/
def Begins (tags : List InlineTag) (text : List Char) : Prop :=
  ∃ t ∈ tags, text <+: t.opening ∧ text ≠ t.opening

theorem opening_eq (t : InlineTag) : t.opening = '<' :: (t.name ++ ['>']) := rfl

theorem opened?_eq_find? (tags : List InlineTag) (text : List Char) :
    opened? tags text = tags.find? fun t => t.opening.isPrefixOf text := by
  unfold opened?
  split
  · rfl
  · next hhead =>
    refine (List.find?_eq_none.2 fun t _ hfront => ?_).symm
    obtain ⟨rest, rfl⟩ := List.isPrefixOf_iff_prefix.1 hfront
    exact hhead _ rfl

theorem opened?_of_ne {c : Char} (h : c ≠ '<') (tags : List InlineTag) (text : List Char) :
    opened? tags (c :: text) = none := by
  unfold opened?
  split
  · next heq => exact (h (List.cons.inj heq).1).elim
  · rfl

theorem opened?_eq_some (h : opened? tags text = some t) : t ∈ tags ∧ t.opening <+: text := by
  rw [opened?_eq_find?] at h
  have hfront : t.opening.isPrefixOf text = true := by simpa using List.find?_some h
  exact ⟨List.mem_of_find?_eq_some h, List.isPrefixOf_iff_prefix.1 hfront⟩

theorem opened?_eq_none_iff : opened? tags text = none ↔ ∀ t ∈ tags, ¬ t.opening <+: text := by
  simp [opened?_eq_find?, List.find?_eq_none]

/-- The end of an opening is told by its last character. -/
theorem opening_eq_of_prefix {u : InlineTag} (hname : '>' ∉ u.name) (h : t.opening <+: u.opening) :
    t.opening = u.opening := by
  obtain ⟨rest, hrest⟩ := h
  rcases rest.eq_nil_or_concat' with rfl | ⟨rest, last, rfl⟩
  · simpa using hrest
  · have hinner : t.name ++ ['>'] ++ rest = u.name := by
      rw [opening_eq, opening_eq, ← List.append_assoc, List.cons_append, List.cons_append, List.cons_inj_right] at hrest
      exact (List.append_inj' hrest rfl).1
    exact (hname (by simp [← hinner])).elim

theorem opened?_append (hplain : Plain tags) (h : opened? tags text = some t) (more : List Char) :
    opened? tags (text ++ more) = some t := by
  rw [opened?_eq_find?, List.find?_eq_some_iff_append] at h ⊢
  obtain ⟨ht, before, after, rfl, hbefore⟩ := h
  have hfront := List.isPrefixOf_iff_prefix.1 ht
  refine ⟨List.isPrefixOf_iff_prefix.2 (hfront.trans (List.prefix_append ..)), before, after, rfl, fun u hu => ?_⟩
  -- an earlier tag that only the longer text shows would hold the found one, with its end
  have hnot : ¬ u.opening <+: text := by
    intro hshort
    simpa [List.isPrefixOf_iff_prefix.2 hshort] using hbefore u hu
  simp only [Bool.not_eq_true', Bool.eq_false_iff, ne_eq, List.isPrefixOf_iff_prefix]
  intro hlong
  rcases List.prefix_or_prefix_of_prefix hlong (hfront.trans (List.prefix_append text more)) with h | h
  · exact hnot (h.trans hfront)
  · have heq := opening_eq_of_prefix (hplain u (by simp [hu])).2 h
    exact hnot (heq ▸ hfront)

/-- A tag that only the longer text shows is begun by the shorter one. -/
theorem of_opened?_append (h : opened? tags text = none) (k : opened? tags (text ++ more) = some t) :
    Begins tags text := by
  obtain ⟨ht, hlong⟩ := opened?_eq_some k
  have hnot := opened?_eq_none_iff.1 h t ht
  rcases List.prefix_or_prefix_of_prefix hlong (List.prefix_append text more) with hshort | hbegins
  · exact (hnot hshort).elim
  · exact ⟨t, ht, hbegins, fun heq => hnot (heq ▸ List.prefix_refl _)⟩

/-- The beginning of an opening has the delimiter at its front only. -/
theorem not_mem_of_begins (hplain : Plain tags) {c : Char} (h : Begins tags (c :: text)) :
    c = '<' ∧ '<' ∉ text ∧ '>' ∉ text := by
  obtain ⟨t, ht, hfront, hne⟩ := h
  rw [opening_eq, List.cons_prefix_cons] at hfront
  obtain ⟨rfl, htext⟩ := hfront
  rcases List.prefix_concat_iff.1 htext with rfl | hname
  · exact (hne rfl).elim
  · exact ⟨rfl, fun hmem => (hplain t ht).1 (hname.subset hmem), fun hmem => (hplain t ht).2 (hname.subset hmem)⟩

/-! ## Runs without a tag -/

theorem scan_of_not_mem (h : '<' ∉ text) (run : List Char) :
    scan tags 0 (.outside run) text = ([], .outside (text.reverse ++ run)) := by
  induction text generalizing run with
  | nil => rfl
  | cons c text ih =>
    rw [List.mem_cons, not_or] at h
    rw [scan, opened?_of_ne (Ne.symm h.1)]
    simpa using ih h.2 (c :: run)

/-- No tag opens in these characters when `more` comes after them. -/
def Unopened (tags : List InlineTag) (text more : List Char) : Prop :=
  ∀ rest, rest <:+ text → rest ≠ [] → opened? tags (rest ++ more) = none

theorem unopened_nil (tags : List InlineTag) (more : List Char) : Unopened tags [] more :=
  fun _ hrest hne => (hne (List.suffix_nil.1 hrest)).elim

theorem Unopened.suffix {rest : List Char} (h : Unopened tags text more) (hs : rest <:+ text) : Unopened tags rest more :=
  fun u hu => h u (hu.trans hs)

theorem Unopened.concat {c : Char} (h : Unopened tags text (c :: more)) (hc : opened? tags (c :: more) = none) :
    Unopened tags (text ++ [c]) more := by
  intro rest hrest hne
  rcases List.suffix_concat_iff.1 hrest with rfl | ⟨rest, rfl, hs⟩
  · exact (hne rfl).elim
  · rw [List.append_assoc]
    rcases rest.eq_nil_or_concat' with rfl | hcons
    · exact hc
    · exact h rest hs (by obtain ⟨_, _, rfl⟩ := hcons; simp)

theorem scan_unopened (h : Unopened tags text more) (run : List Char) :
    scan tags 0 (.outside run) (text ++ more) = scan tags 0 (.outside (text.reverse ++ run)) more := by
  induction text generalizing run with
  | nil => rfl
  | cons c text ih =>
    have hc := h (c :: text) (List.suffix_refl _) (List.cons_ne_nil _ _)
    rw [List.cons_append] at hc
    rw [List.cons_append, scan, hc]
    simpa using ih (h.suffix (List.suffix_cons ..)) (c :: run)

/-! ## What is held back -/

/-- A list ends in one way only with a delimiter and no delimiter after it. -/
theorem eq_of_suffix {first rest last : List Char} (h : '<' :: rest <:+ first ++ '<' :: last)
    (hrest : '<' ∉ rest) (hlast : '<' ∉ last) : rest = last := by
  rcases List.suffix_or_suffix_of_suffix h (List.suffix_append ..) with hs | hs
  · rcases List.suffix_cons_iff.1 hs with heq | hs
    · exact (List.cons.inj heq).2
    · exact (hlast (hs.subset (List.mem_cons_self ..))).elim
  · rcases List.suffix_cons_iff.1 hs with heq | hs
    · exact (List.cons.inj heq).2.symm
    · exact (hrest (hs.subset (List.mem_cons_self ..))).elim

theorem undecided_of_not_mem (h : '<' ∉ text) : undecided tags text.reverse = [] := by
  have htail : text.reverse.takeWhile (· != '<') = text.reverse := by
    rw [List.takeWhile_eq_self_iff]
    intro c hc
    simpa using fun heq : c = '<' => h (heq ▸ List.mem_reverse.1 hc)
  simp [undecided, htail]

/-- What is held back of a text is told by its last `<` and what follows it. -/
theorem undecided_append {older tail : List Char} (h : '<' ∉ tail) : undecided tags (older ++ '<' :: tail).reverse =
    if '>' ∈ tail then []
    else if "</".toList <+: '<' :: tail ∨ ∃ t ∈ tags, '<' :: tail <+: t.opening then '<' :: tail
    else [] := by
  have htail : (older ++ '<' :: tail).reverse.takeWhile (· != '<') = tail.reverse := by
    rw [List.reverse_append, List.reverse_cons, List.append_assoc, List.takeWhile_append_of_pos]
    · simp
    · intro c hc
      simpa using fun heq : c = '<' => h (heq ▸ List.mem_reverse.1 hc)
  have hlength : (tail.reverse.length == (older ++ '<' :: tail).reverse.length) = false := by simp
  simp only [undecided, htail, hlength, Bool.false_or, List.contains_iff_mem, List.mem_reverse, List.reverse_reverse,
    Bool.or_eq_true, List.isPrefixOf_iff_prefix, List.any_eq_true]

/-- A text without a `<`, or with a last one. -/
theorem last_mark (text : List Char) : '<' ∉ text ∨ ∃ older tail, text = older ++ '<' :: tail ∧ '<' ∉ tail := by
  by_cases h : '<' ∈ text
  · obtain ⟨tail, older, htext, htail⟩ := List.eq_append_cons_of_mem (List.mem_reverse.2 h)
    exact .inr ⟨older.reverse, tail.reverse, by simpa using congrArg List.reverse htext, by simpa using htail⟩
  · exact .inl h

/-- What is given out of a text when the rest of it is held back. -/
theorem take_of_append {safe held : List Char} (h : text = safe ++ held) :
    text.take (text.length - held.length) = safe := by simp [h]

/-- What is held back of a run: its end from the last `<` on, or nothing if no opening begins there. -/
theorem undecided_cases (hplain : Plain tags) (run : List Char) :
    ('<' ∉ run ∧ undecided tags run = []) ∨
      ∃ older tail, run.reverse = older ++ '<' :: tail ∧ '<' ∉ tail ∧
        (undecided tags run = '<' :: tail ∨ undecided tags run = [] ∧ ¬ Begins tags ('<' :: tail)) := by
  have hrun : undecided tags run = undecided tags run.reverse.reverse := by rw [List.reverse_reverse]
  rcases last_mark run.reverse with hnone | ⟨older, tail, htext, htail⟩
  · exact .inl ⟨mt List.mem_reverse.2 hnone, hrun.trans (undecided_of_not_mem hnone)⟩
  · refine .inr ⟨older, tail, htext, htail, ?_⟩
    rw [hrun, htext, undecided_append htail]
    split
    · next hclose => exact .inr ⟨rfl, fun hbegins => (not_mem_of_begins hplain hbegins).2.2 hclose⟩
    · split
      · exact .inl rfl
      · next hno => exact .inr ⟨rfl, fun ⟨t, ht, hfront, _⟩ => hno (.inr ⟨t, ht, hfront⟩)⟩

/-- No opening begins in a run before what is held back of it. -/
theorem undecided_split (hplain : Plain tags) (run : List Char) : ∃ safe,
    run.reverse = safe ++ undecided tags run ∧
      ∀ rest, rest <:+ safe → rest ≠ [] → ¬ Begins tags (rest ++ undecided tags run) := by
  rcases undecided_cases hplain run with ⟨hnone, heq⟩ | ⟨older, tail, hrun, htail, heq | ⟨heq, hdead⟩⟩
  · refine ⟨run.reverse, by simp [heq], ?_⟩
    rintro (_ | ⟨c, rest⟩) hrest hne hbegins
    · exact hne rfl
    · obtain ⟨rfl, -⟩ := not_mem_of_begins hplain hbegins
      exact hnone (List.mem_reverse.1 (hrest.subset (List.mem_cons_self ..)))
  · refine ⟨older, by rw [hrun, heq], ?_⟩
    rintro (_ | ⟨c, rest⟩) hrest hne hbegins
    · exact hne rfl
    · exact (not_mem_of_begins hplain hbegins).2.1 (by simp [heq])
  · refine ⟨run.reverse, by simp [heq], ?_⟩
    rintro (_ | ⟨c, rest⟩) hrest hne hbegins
    · exact hne rfl
    · rw [heq, List.append_nil] at hbegins
      obtain ⟨rfl, hopen, -⟩ := not_mem_of_begins hplain hbegins
      obtain rfl := eq_of_suffix (hrun ▸ hrest) hopen htail
      exact hdead hbegins

end ModelStream.InlineTag
