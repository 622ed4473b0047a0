/-
The segments of a text read as a whole (`parse`): the leftmost opening ends the visible text, the first
closing of the same tag after it ends the reasoning, and reading goes on from there. The scanner comes to
the same segments however the text is cut into pieces, once neighbouring visible segments are joined
(`Scanner.merge_readAll`).

A scan of the whole text finds the same stretches as the search for the leftmost tag does
(`scan_outside`, `scan_inside`); cutting the text changes nothing in what is shown, by the laws of
scanning in pieces; and merged segments are told by what they show (`merge_eq_ofMarks`).
-/
import ModelStream.Proofs.InlineTag.Pieces

namespace ModelStream.InlineTag

open Text

variable {tags : List InlineTag} {t : InlineTag} {text : List Char}

/-! ## The leftmost tag -/

/-- The leftmost place at which the form of a tag stands: the text before the form, the tag, and the text
after the form. -/
def leftmost? (form : InlineTag → List Char) (tags : List InlineTag) :
    List Char → Option (List Char × InlineTag × List Char)
  | [] => none
  | c :: cs =>
    match tags.find? fun t => (form t).isPrefixOf (c :: cs) with
    | some t => some ([], t, (c :: cs).drop (form t).length)
    | none => (leftmost? form tags cs).map fun (before, found) => (c :: before, found)

section Leftmost

variable {form : InlineTag → List Char} {before after : List Char}

theorem leftmost?_cons_some {c : Char} (h : tags.find? (fun t => (form t).isPrefixOf (c :: text)) = some t) :
    leftmost? form tags (c :: text) = some ([], t, (c :: text).drop (form t).length) := by
  rw [leftmost?, h]

theorem leftmost?_cons_none {c : Char} (h : tags.find? (fun t => (form t).isPrefixOf (c :: text)) = none) :
    leftmost? form tags (c :: text) =
      (leftmost? form tags text).map fun (before, found) => (c :: before, found) := by
  rw [leftmost?, h]

theorem eq_append_of_leftmost? (h : leftmost? form tags text = some (before, t, after)) :
    text = before ++ form t ++ after := by
  induction text generalizing before with
  | nil => cases h
  | cons c cs ih =>
    cases hfront : tags.find? fun t => (form t).isPrefixOf (c :: cs) with
    | some u =>
      rw [leftmost?_cons_some hfront] at h
      cases h
      exact (List.prefix_iff_eq_append.1 (List.isPrefixOf_iff_prefix.1 (by simpa using List.find?_some hfront))).symm
    | none =>
      rw [leftmost?_cons_none hfront, Option.map_eq_some_iff] at h
      obtain ⟨⟨before, found⟩, hrest, heq⟩ := h
      cases heq
      rw [ih hrest]
      rfl

/-- No form of the list stands further left. -/
theorem length_le_of_leftmost? (h : leftmost? form tags text = some (before, t, after)) {u : InlineTag} (hu : u ∈ tags)
    {v w : List Char} (hv : text = v ++ form u ++ w) : before.length ≤ v.length := by
  induction text generalizing before v with
  | nil => cases h
  | cons c cs ih =>
    cases hfront : tags.find? fun t => (form t).isPrefixOf (c :: cs) with
    | some u =>
      rw [leftmost?_cons_some hfront] at h
      cases h
      exact Nat.zero_le _
    | none =>
      rw [leftmost?_cons_none hfront, Option.map_eq_some_iff] at h
      obtain ⟨⟨before, found⟩, hrest, heq⟩ := h
      cases heq
      cases v with
      | nil => exact (List.find?_eq_none.1 hfront u hu (List.isPrefixOf_iff_prefix.2 ⟨w, hv.symm⟩)).elim
      | cons d v => exact Nat.succ_le_succ (ih hrest (List.cons.inj hv).2)

theorem leftmost?_eq_none (h : ∀ u ∈ tags, ¬ form u <:+: text) : leftmost? form tags text = none := by
  induction text with
  | nil => rfl
  | cons c cs ih =>
    have hfront : tags.find? (fun t => (form t).isPrefixOf (c :: cs)) = none :=
      List.find?_eq_none.2 fun u hu hfront => h u hu (List.isPrefixOf_iff_prefix.1 hfront).isInfix
    rw [leftmost?_cons_none hfront, ih fun u hu hmem => h u hu (hmem.trans (List.suffix_cons c cs).isInfix)]
    rfl

theorem mem_of_leftmost? (h : leftmost? form tags text = some (before, t, after)) : t ∈ tags := by
  induction text generalizing before with
  | nil => cases h
  | cons c cs ih =>
    cases hfront : tags.find? fun t => (form t).isPrefixOf (c :: cs) with
    | some u =>
      rw [leftmost?_cons_some hfront] at h
      cases h
      exact List.mem_of_find?_eq_some hfront
    | none =>
      rw [leftmost?_cons_none hfront, Option.map_eq_some_iff] at h
      obtain ⟨⟨before, found⟩, hrest, heq⟩ := h
      cases heq
      exact ih hrest

/-- Text in which no form begins may be passed over. -/
theorem leftmost?_skip (h : ∀ rest, rest <:+ before → rest ≠ [] → ∀ u ∈ tags, ¬ form u <+: rest ++ text) :
    leftmost? form tags (before ++ text) =
      (leftmost? form tags text).map fun (inner, found) => (before ++ inner, found) := by
  induction before with
  | nil => simp
  | cons c before ih =>
    have hfront : tags.find? (fun t => (form t).isPrefixOf (c :: (before ++ text))) = none :=
      List.find?_eq_none.2 fun u hu hfront =>
        h (c :: before) (List.suffix_refl _) (List.cons_ne_nil _ _) u hu (List.isPrefixOf_iff_prefix.1 hfront)
    rw [List.cons_append, leftmost?_cons_none hfront, ih fun rest hrest => h rest (hrest.trans (List.suffix_cons c before)),
      Option.map_map]
    rfl

/-- A form is the leftmost of its tag when no other ends before it does. -/
theorem leftmost?_append {inner : List Char} {last : Char} (hform : form t = inner ++ [last]) (after : List Char)
    (h : ¬ form t <:+: before ++ inner) : leftmost? form [t] (before ++ form t ++ after) = some (before, t, after) := by
  induction before with
  | nil =>
    obtain ⟨c, cs, hcons⟩ : ∃ c cs, form t ++ after = c :: cs :=
      List.exists_cons_of_ne_nil (by simp [hform])
    have hfront : [t].find? (fun t => (form t).isPrefixOf (c :: cs)) = some t :=
      List.find?_cons_of_pos (List.isPrefixOf_iff_prefix.2 (hcons ▸ List.prefix_append ..))
    rw [List.nil_append, hcons, leftmost?_cons_some hfront, ← hcons, List.drop_left]
  | cons c before ih =>
    have hfront : [t].find? (fun t => (form t).isPrefixOf (c :: (before ++ form t ++ after))) = none := by
      refine List.find?_eq_none.2 fun u hu hfront => ?_
      rw [List.mem_singleton.1 hu, List.isPrefixOf_iff_prefix] at hfront
      -- a form at the front ends before the last character of this one
      have hshort : c :: before ++ inner <+: c :: (before ++ form t ++ after) :=
        ⟨last :: after, by simp [hform]⟩
      refine h (List.prefix_of_prefix_length_le hfront hshort ?_).isInfix
      simp [hform]
    rw [List.cons_append, List.cons_append, leftmost?_cons_none hfront,
      ih fun hmem => h (hmem.trans (List.suffix_cons c _).isInfix)]
    rfl

end Leftmost

/-! ## The end of an open body -/

/-- The text without the longest piece at its end that begins the form and is not all of it. -/
def withoutBegun (form : List Char) : List Char → List Char
  | [] => []
  | c :: cs => if (c :: cs).isPrefixOf form && c :: cs != form then [] else c :: withoutBegun form cs

/-- `kept` is the text without a piece at its end, which begins the form if there is any, and no longer piece
at its end does. -/
def Uncut (form text kept : List Char) : Prop :=
  ∃ cut, text = kept ++ cut ∧ (cut ≠ [] → cut <+: form ∧ cut ≠ form) ∧
    ∀ rest, rest <:+ text → rest ≠ [] → rest <+: form → rest ≠ form → rest.length ≤ cut.length

theorem Uncut.unique {form kept kept' : List Char} (h : Uncut form text kept) (h' : Uncut form text kept') :
    kept = kept' := by
  obtain ⟨cut, htext, hcut, hlongest⟩ := h
  obtain ⟨cut', htext', hcut', hlongest'⟩ := h'
  have hle : cut.length ≤ cut'.length := by
    by_cases hnil : cut = []
    · simp [hnil]
    · exact hlongest' cut ⟨kept, htext.symm⟩ hnil (hcut hnil).1 (hcut hnil).2
  have hge : cut'.length ≤ cut.length := by
    by_cases hnil : cut' = []
    · simp [hnil]
    · exact hlongest cut' ⟨kept', htext'.symm⟩ hnil (hcut' hnil).1 (hcut' hnil).2
  exact (List.append_inj' (htext.symm.trans htext') (Nat.le_antisymm hle hge)).1

theorem uncut_withoutBegun (form text : List Char) : Uncut form text (withoutBegun form text) := by
  induction text with
  | nil => exact ⟨[], rfl, fun h => (h rfl).elim, fun rest hs _ _ _ => by simp [List.suffix_nil.1 hs]⟩
  | cons c cs ih =>
    rw [withoutBegun]
    split
    · next hbegun =>
      rw [Bool.and_eq_true, List.isPrefixOf_iff_prefix, bne_iff_ne] at hbegun
      exact ⟨c :: cs, rfl, fun _ => hbegun, fun rest hs _ _ _ => hs.length_le⟩
    · next hbegun =>
      rw [Bool.and_eq_true, List.isPrefixOf_iff_prefix, bne_iff_ne] at hbegun
      obtain ⟨cut, htext, hcut, hlongest⟩ := ih
      refine ⟨cut, congrArg (c :: ·) htext, hcut, fun rest hs hne hfront hall => ?_⟩
      rcases List.suffix_cons_iff.1 hs with rfl | hs
      · exact (hbegun ⟨hfront, hall⟩).elim
      · exact hlongest rest hs hne hfront hall

/-- Whether a piece of this length stands at the end of a body and begins the closing tag. -/
def endsBegun (t : InlineTag) (body : List Char) (n : Nat) : Bool :=
  0 < n && (t.closing.take n).reverse.isPrefixOf body

theorem endsBegun_iff {body : List Char} {n : Nat} :
    endsBegun t body n = true ↔ 0 < n ∧ t.closing.take n <:+ body.reverse := by
  rw [endsBegun, Bool.and_eq_true, decide_eq_true_iff, List.isPrefixOf_iff_prefix, ← List.reverse_suffix,
    List.reverse_reverse]

/-- A piece at the end that begins the closing tag and is not all of it is told by its length. -/
theorem endsBegun_length {body rest : List Char} (hs : rest <:+ body.reverse) (hne : rest ≠ [])
    (hfront : rest <+: t.closing) (hall : rest ≠ t.closing) :
    rest.length < t.closing.length ∧ endsBegun t body rest.length = true := by
  refine ⟨Nat.lt_of_le_of_ne hfront.length_le fun h => hall (hfront.eq_of_length h), endsBegun_iff.2 ?_⟩
  rw [← List.prefix_iff_eq_take.1 hfront]
  exact ⟨List.length_pos_iff.2 hne, hs⟩

/-- Of numbers that are tried downwards the first one found is the greatest. -/
theorem le_of_find?_downwards {p : Nat → Bool} {bound m n : Nat} (h : (List.range bound).reverse.find? p = some n)
    (hm : m < bound) (hp : p m = true) : m ≤ n := by
  obtain ⟨-, longer, shorter, hsplit, hlonger⟩ := List.find?_eq_some_iff_append.1 h
  have hmem : m ∈ longer ++ n :: shorter := hsplit ▸ by simpa using hm
  have hdown : (longer ++ n :: shorter).Pairwise (· > ·) := by
    rw [← hsplit, List.pairwise_reverse]
    exact List.pairwise_lt_range
  rcases List.mem_append.1 hmem with hlong | hrest
  · simpa [hp] using hlonger m hlong
  · rcases List.mem_cons.1 hrest with heq | hrest
    · exact Nat.le_of_eq heq
    · exact Nat.le_of_lt (List.rel_of_pairwise_cons (List.pairwise_append.1 hdown).2.1 hrest)

theorem withoutCut_drop (t : InlineTag) (body : List Char) : Scanner.withoutCut t body =
    (body.drop (((List.range t.closing.length).reverse.find? (endsBegun t body)).getD 0)).reverse := rfl

/-- The piece that is found stands at the end of the body, and is not all of the closing tag. -/
theorem split_of_find? {body : List Char} {n : Nat}
    (h : (List.range t.closing.length).reverse.find? (endsBegun t body) = some n) :
    n < t.closing.length ∧ (body.drop n).reverse ++ t.closing.take n = body.reverse := by
  have hlt : n < t.closing.length := by simpa using List.mem_of_find?_eq_some h
  have htake := List.suffix_iff_eq_append.1 (endsBegun_iff.1 (List.find?_some h)).2
  rw [List.length_take_of_le (Nat.le_of_lt hlt), List.length_reverse, ← List.reverse_drop] at htake
  exact ⟨hlt, htake⟩

theorem uncut_withoutCut (t : InlineTag) (body : List Char) :
    Uncut t.closing body.reverse (Scanner.withoutCut t body) := by
  rw [withoutCut_drop]
  cases hfound : (List.range t.closing.length).reverse.find? (endsBegun t body) with
  | none =>
    refine ⟨[], by simp, fun h => (h rfl).elim, fun rest hs hne hfront hall => ?_⟩
    obtain ⟨hlt, hends⟩ := endsBegun_length hs hne hfront hall
    exact (List.find?_eq_none.1 hfound rest.length (by simpa using hlt) hends).elim
  | some n =>
    obtain ⟨hlt, hsplit⟩ := split_of_find? hfound
    have hlength : (t.closing.take n).length = n := List.length_take_of_le (Nat.le_of_lt hlt)
    refine ⟨t.closing.take n, hsplit.symm, fun _ => ⟨List.take_prefix .., fun h => ?_⟩, fun rest hs hne hfront hall => ?_⟩
    · rw [h] at hlength
      omega
    · obtain ⟨hshort, hends⟩ := endsBegun_length hs hne hfront hall
      rw [hlength]
      exact le_of_find?_downwards hfound hshort hends

/-- The scanner leaves out what a whole reading does. -/
theorem withoutCut_eq (t : InlineTag) (body : List Char) :
    Scanner.withoutCut t body = withoutBegun t.closing body.reverse :=
  (uncut_withoutCut t body).unique (uncut_withoutBegun ..)

/-! ## Reading a text as a whole -/

/-- The segment of a visible text, if anything is left of it; `drop` says whether the blanks before it are
dropped. -/
def visibleText (drop : Bool) (cs : List Char) : List Segment :=
  if (kept drop cs).isEmpty then [] else [.visible (String.ofList (kept drop cs))]

/-- The segment of the text between two tags, if it is not blank. -/
def reasoningText (cs : List Char) : List Segment :=
  if (trim cs).isEmpty then [] else [.reasoning (String.ofList (trim cs))]

/-- The segments of a text that is read as a whole. The blanks before visible text are dropped from the first
closing on; a body without its closing ends the text. -/
def parse (tags : List InlineTag) (drop : Bool) (text : List Char) : List Segment :=
  match _hopen : leftmost? opening tags text with
  | none => visibleText drop text
  | some (before, t, after) =>
    match _hclose : leftmost? closing [t] after with
    | none => visibleText drop before ++ reasoningText (withoutBegun t.closing after)
    | some (body, _, rest) => visibleText drop before ++ reasoningText body ++ parse tags true rest
termination_by text.length
decreasing_by
  rw [eq_append_of_leftmost? _hopen, eq_append_of_leftmost? _hclose]
  simp only [List.length_append, opening, List.length_cons]
  omega

/-! ## Scanning a text as a whole -/

theorem scan_skip (tags : List InlineTag) (skip : Nat) (place : Place) (text : List Char) :
    scan tags skip place text = scan tags 0 place (text.drop skip) := by
  induction text generalizing skip with
  | nil => simp [scan]
  | cons c cs ih =>
    cases skip with
    | zero => rfl
    | succ skip =>
      rw [scan]
      exact ih skip

/-- Outside of all tags a scan goes to the leftmost opening. -/
theorem scan_outside (tags : List InlineTag) (run text : List Char) :
    scan tags 0 (.outside run) text =
      match leftmost? opening tags text with
      | none => ([], .outside (text.reverse ++ run))
      | some (before, t, after) =>
        (.visible (run.reverse ++ before) :: (scan tags 0 (.inside t []) after).1,
          (scan tags 0 (.inside t []) after).2) := by
  induction text generalizing run with
  | nil => rfl
  | cons c cs ih =>
    cases hfront : tags.find? fun t => t.opening.isPrefixOf (c :: cs) with
    | some t =>
      have hopened : opened? tags (c :: cs) = some t := (opened?_eq_find? ..).trans hfront
      rw [leftmost?_cons_some hfront]
      simp only [scan, hopened, List.append_nil]
      rw [scan_skip]
      rfl
    | none =>
      have hopened : opened? tags (c :: cs) = none := (opened?_eq_find? ..).trans hfront
      have hstep : scan tags 0 (.outside run) (c :: cs) = scan tags 0 (.outside (c :: run)) cs := by
        simp only [scan, hopened]
      rw [hstep, ih, leftmost?_cons_none hfront]
      rcases leftmost? opening tags cs with _ | ⟨before, t, after⟩ <;> simp

theorem stretches_outside (tags : List InlineTag) (run text : List Char) :
    stretches tags 0 (.outside run) text =
      match leftmost? opening tags text with
      | none => [.visible (run.reverse ++ text)]
      | some (before, t, after) => .visible (run.reverse ++ before) :: stretches tags 0 (.inside t []) after := by
  rw [stretches, scan_outside]
  rcases leftmost? opening tags text with _ | ⟨before, t, after⟩
  · simp [Place.rest]
  · rfl

theorem closing_eq (t : InlineTag) : t.closing = '<' :: '/' :: t.name ++ ['>'] := rfl

/-- A closing ends where the scanner looks for it. -/
theorem closes_iff {body : List Char} {c : Char} :
    (c == '>' && t.closing.reverse.isPrefixOf (c :: body)) = true ↔ t.closing <:+ body.reverse ++ [c] := by
  rw [Bool.and_eq_true, beq_iff_eq, List.isPrefixOf_iff_prefix, ← List.reverse_suffix, List.reverse_reverse,
    List.reverse_cons, and_iff_right_iff_imp]
  rintro ⟨before, hbefore⟩
  rw [closing_eq, ← List.append_assoc] at hbefore
  exact (List.cons.inj (List.append_inj' hbefore rfl).2).1.symm

/-- Behind an opening a scan goes to the first closing of the tag. -/
theorem scan_inside (tags : List InlineTag) (t : InlineTag) {body : List Char} (text : List Char)
    (hbody : ¬ t.closing <:+: body.reverse) :
    scan tags 0 (.inside t body) text =
      match leftmost? closing [t] (body.reverse ++ text) with
      | none => ([], .inside t (text.reverse ++ body))
      | some (inner, _, rest) =>
        (.reasoning inner :: (scan tags 0 (.outside []) rest).1, (scan tags 0 (.outside []) rest).2) := by
  -- no closing ends in what has been read, so the first one that ends is the leftmost
  induction text generalizing body with
  | nil =>
    rw [List.append_nil, leftmost?_eq_none (by simpa using hbody)]
    rfl
  | cons c cs ih =>
    by_cases hclose : t.closing <:+ body.reverse ++ [c]
    · have hstep : scan tags 0 (.inside t body) (c :: cs) =
          (.reasoning ((c :: body).drop t.closing.length).reverse :: (scan tags 0 (.outside []) cs).1,
            (scan tags 0 (.outside []) cs).2) := by
        simp only [scan, if_pos (closes_iff.2 hclose)]
      obtain ⟨inner, hinner⟩ := hclose
      have hread : c :: body = t.closing.reverse ++ inner.reverse := by
        rw [← List.reverse_append, hinner]
        simp
      have hbegun : body.reverse = inner ++ '<' :: '/' :: t.name := by
        rw [closing_eq, ← List.append_assoc] at hinner
        exact (List.append_inj' hinner rfl).1.symm
      have hfirst := leftmost?_append (closing_eq t) cs (hbegun ▸ hbody)
      rw [hinner, List.append_assoc, List.singleton_append] at hfirst
      rw [hstep, hfirst, hread, ← List.length_reverse, List.drop_left, List.reverse_reverse]
    · have hnext : ¬ t.closing <:+: (c :: body).reverse := by
        rw [List.reverse_cons, List.infix_concat_iff]
        exact not_or.2 ⟨hclose, hbody⟩
      have hstep : scan tags 0 (.inside t body) (c :: cs) = scan tags 0 (.inside t (c :: body)) cs := by
        simp only [scan, if_neg (mt closes_iff.1 hclose)]
      rw [hstep, ih hnext]
      simp

theorem not_closing_nil (t : InlineTag) : ¬ t.closing <:+: [] := by simp [closing_eq]

theorem stretches_opened (tags : List InlineTag) (t : InlineTag) (text : List Char) :
    stretches tags 0 (.inside t []) text =
      match leftmost? closing [t] text with
      | none => [.reasoning (withoutBegun t.closing text)]
      | some (inner, _, rest) => .reasoning inner :: stretches tags 0 (.outside []) rest := by
  have hscan := @scan_inside tags t [] text (not_closing_nil t)
  rw [List.reverse_nil, List.nil_append] at hscan
  rw [stretches, hscan]
  rcases leftmost? closing [t] text with _ | ⟨inner, u, rest⟩
  · simp [Place.rest, withoutCut_eq]
  · rfl

theorem marks_visibleText (drop : Bool) (cs : List Char) : marks (visibleText drop cs) = shown drop [.visible cs] := by
  rw [shown, segments_visible, visibleText]
  split <;> rfl

theorem shown_reasoning (drop : Bool) (cs : List Char) : shown drop [.reasoning cs] = marks (reasoningText cs) := rfl

theorem dropping_reasoning (drop : Bool) (cs : List Char) : dropping drop [.reasoning cs] = true := rfl

/-- A text shows what it does when it is read as a whole. -/
theorem shown_stretches (tags : List InlineTag) (drop : Bool) (text : List Char) :
    shown drop (stretches tags 0 (.outside []) text) = marks (parse tags drop text) := by
  fun_induction parse tags drop text with
  | case1 drop text hopen =>
    rw [stretches_outside, hopen, marks_visibleText]
    rfl
  | case2 drop text before t after hopen hclose =>
    rw [stretches_outside, hopen]
    simp only [List.reverse_nil, List.nil_append, stretches_opened, hclose]
    rw [shown_cons, shown_reasoning, marks_append, marks_visibleText]
  | case3 drop text before t after hopen body u rest hclose ih =>
    rw [stretches_outside, hopen]
    simp only [List.reverse_nil, List.nil_append, stretches_opened, hclose]
    rw [shown_cons, shown_cons (.reasoning body), shown_reasoning, dropping_reasoning, ih, marks_append, marks_append,
      marks_visibleText, List.append_assoc]

/-! ## Joining neighbouring segments -/

/-- Visible text in front of segments, in one segment with the visible text they begin with. -/
def visibleBefore (text : String) : List Segment → List Segment
  | .visible next :: rest => .visible (text ++ next) :: rest
  | segments => .visible text :: segments

/-- Segments with neighbouring visible ones joined. -/
def merge : List Segment → List Segment
  | [] => []
  | .visible text :: more => visibleBefore text (merge more)
  | .reasoning text :: more => .reasoning text :: merge more

/-- No visible segment is empty. -/
def Filled (segments : List Segment) : Prop := .visible "" ∉ segments

/-- A mark in front of segments. -/
def Mark.before : Mark → List Segment → List Segment
  | .char c, segments => visibleBefore (String.singleton c) segments
  | .reasoning text, segments => .reasoning text :: segments

/-- The segments that show these marks, with neighbouring visible ones joined. -/
def ofMarks (marks : List Mark) : List Segment := marks.foldr Mark.before []

theorem visibleBefore_append (text next : String) (segments : List Segment) :
    visibleBefore text (visibleBefore next segments) = visibleBefore (text ++ next) segments := by
  rcases segments with _ | ⟨_ | _, _⟩ <;> simp [visibleBefore, String.append_assoc]

theorem foldr_chars (c : Char) (cs : List Char) (segments : List Segment) :
    ((c :: cs).map Mark.char).foldr Mark.before segments = visibleBefore (String.ofList (c :: cs)) segments := by
  induction cs generalizing c with
  | nil => rfl
  | cons d cs ih =>
    rw [List.map_cons, List.foldr_cons, ih d, Mark.before, visibleBefore_append]
    congr 1
    simp

/-- Joined segments are told by what they show. -/
theorem merge_eq_ofMarks {segments : List Segment} (h : Filled segments) : merge segments = ofMarks (marks segments) := by
  induction segments with
  | nil => rfl
  | cons segment more ih =>
    have hmore : merge more = ofMarks (marks more) := ih fun hmem => h (List.mem_cons_of_mem _ hmem)
    rw [marks_cons, ofMarks, List.foldr_append, ← ofMarks, ← hmore]
    cases segment with
    | reasoning text => rfl
    | visible text =>
      obtain ⟨c, cs, hcs⟩ : ∃ c cs, text.toList = c :: cs := by
        refine List.exists_cons_of_ne_nil fun hnil => h ?_
        rw [String.toList_eq_nil_iff.1 hnil]
        exact List.mem_cons_self ..
      rw [Segment.marks, hcs, foldr_chars, ← hcs, String.ofList_toList, merge]

theorem Filled.append {segments later : List Segment} (h : Filled segments) (hlater : Filled later) :
    Filled (segments ++ later) := fun hmem => (List.mem_append.1 hmem).elim h hlater

theorem filled_visible {cs : List Char} (h : ¬ cs.isEmpty = true) : Filled [.visible (String.ofList cs)] := by
  intro hmem
  have hempty : "" = String.ofList cs := Segment.visible.inj (List.mem_singleton.1 hmem)
  exact h (List.isEmpty_iff.2 (by simpa using (congrArg String.toList hempty).symm))

theorem filled_visibleText (drop : Bool) (cs : List Char) : Filled (visibleText drop cs) := by
  rw [visibleText]
  split
  · exact List.not_mem_nil
  · next hne => exact filled_visible hne

theorem filled_reasoningText (cs : List Char) : Filled (reasoningText cs) := by
  rw [reasoningText]
  split <;> simp [Filled]

theorem filled_parse (tags : List InlineTag) (drop : Bool) (text : List Char) : Filled (parse tags drop text) := by
  fun_induction parse tags drop text with
  | case1 => exact filled_visibleText _ _
  | case2 => exact (filled_visibleText _ _).append (filled_reasoningText _)
  | case3 drop text before t after hopen body u rest hclose ih =>
    exact ((filled_visibleText _ _).append (filled_reasoningText _)).append ih

theorem filled_segments (drop : Bool) (found : List Stretch) : Filled (Scanner.segments drop found).1 := by
  induction found generalizing drop with
  | nil => exact List.not_mem_nil
  | cons stretch found ih =>
    cases stretch with
    | visible cs =>
      rw [segments_visible]
      split
      · exact ih drop
      · next hne => exact (filled_visible hne).append (ih false)
    | reasoning cs =>
      show Filled (if (trim cs).isEmpty then _ else _ :: (Scanner.segments true found).1)
      split
      · exact ih true
      · exact List.not_mem_cons_of_ne_of_not_mem Segment.noConfusion (ih true)

/-! ## Reading a text in pieces -/

namespace Scanner

theorem filled_push (s : Scanner) (text : String) : Filled (s.push text).1 := by
  rw [push_eq]
  rcases scan s.tags 0 s.place.start (s.place.held ++ text.toList) with ⟨found, _ | _⟩ <;> exact filled_segments _ _

theorem filled_finish (s : Scanner) : Filled s.finish.1 := by
  unfold finish
  cases s.place with
  | outside run => exact filled_segments _ _
  | inside t body => exact filled_reasoningText _

/-- The segments of a text that comes in pieces, with its end. -/
def readAll (s : Scanner) : List String → List Segment
  | [] => s.finish.1
  | piece :: pieces => (s.push piece).1 ++ (s.push piece).2.readAll pieces

theorem filled_readAll (s : Scanner) (pieces : List String) : Filled (s.readAll pieces) := by
  induction pieces generalizing s with
  | nil => exact s.filled_finish
  | cons piece pieces ih => exact (s.filled_push piece).append (ih _)

/-- All pieces together show what remains of the text. -/
theorem marks_readAll {s : Scanner} (hplain : Plain s.tags) (hsettled : s.Settled) (pieces : List String) :
    marks (s.readAll pieces) = s.remaining (String.join pieces).toList := by
  induction pieces generalizing s with
  | nil => exact (remaining_nil hsettled).symm
  | cons piece pieces ih =>
    rw [readAll, marks_append, ih (push_tags s piece ▸ hplain) (settled_push hplain piece), ← remaining_push hplain]
    simp

/-- Names that are as they are written in a tag. -/
theorem ofNames_eq {names : List String} (hsome : names ≠ [])
    (hnames : ∀ name ∈ names, trimmed name = name ∧ name ≠ "") :
    ofNames names = .ok { tags := names.map fun name => ⟨name.toList⟩ } := by
  have htrim : ∀ name ∈ names, trim name.toList = name.toList := fun name hname => by
    rw [← String.toList_ofList (l := trim name.toList)]
    exact congrArg String.toList (hnames name hname).1
  have htags : InlineTag.ofNames names = names.map fun name => ⟨name.toList⟩ := by
    rw [InlineTag.ofNames, List.map_congr_left fun name hname => by rw [htrim name hname]]
    refine List.filter_eq_self.2 fun t ht => ?_
    obtain ⟨name, hname, rfl⟩ := List.mem_map.1 ht
    simpa using (hnames name hname).2
  rw [ofNames, htags]
  cases names with
  | nil => exact (hsome rfl).elim
  | cons name names => rfl

/-- However a text is cut, the scanner comes to the segments of the whole text. -/
theorem merge_readAll {names : List String} (hsome : names ≠ [])
    (hnames : ∀ name ∈ names, (trimmed name = name ∧ name ≠ "") ∧ '<' ∉ name.toList ∧ '>' ∉ name.toList) :
    ∃ s, ofNames names = .ok s ∧ ∀ pieces : List String,
      merge (s.readAll pieces) =
        merge (parse (names.map fun name => ⟨name.toList⟩) false (String.join pieces).toList) := by
  refine ⟨_, ofNames_eq hsome fun name hname => (hnames name hname).1, fun pieces => ?_⟩
  have hplain : Plain (names.map fun name => ⟨name.toList⟩) := by
    intro t ht
    obtain ⟨name, hname, rfl⟩ := List.mem_map.1 ht
    exact (hnames name hname).2
  have hsettled : Settled { tags := names.map fun name => ⟨name.toList⟩ } := by
    rintro run heq
    cases heq
    exact unopened_nil _ _
  rw [merge_eq_ofMarks (filled_readAll _ _), merge_eq_ofMarks (filled_parse _ _ _), marks_readAll hplain hsettled]
  exact congrArg ofMarks (shown_stretches ..)

/-- An opening, its closing and a blank after it that are all cut, and a tag that is never closed. -/
theorem merge_readAll_cut :
    let names := ["t", "think"]
    let pieces := ["a<<th", "ink>b</th", "ink> ", " c<t>d</", "t"]
    ∃ s, ofNames names = .ok s ∧
      merge (s.readAll pieces) = [.visible "a<", .reasoning "b", .visible "c", .reasoning "d"] ∧
      merge (s.readAll pieces) =
        merge (parse (names.map fun name => ⟨name.toList⟩) false (String.join pieces).toList) := by
  intro names pieces
  have hsome : names ≠ [] := by decide
  obtain ⟨s, hs, hread⟩ := merge_readAll hsome (by decide +kernel)
  refine ⟨s, hs, ?_, hread _⟩
  cases hs
  decide +kernel

end Scanner

end ModelStream.InlineTag
