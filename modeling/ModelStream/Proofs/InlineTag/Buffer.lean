/-
The scanner on a buffer of text with places in bytes. The buffer holds what no segment holds yet; while a tag is
open it begins with the opening of that tag, and the places at which the body begins and up to which the closing
has been looked for are kept from one push to the next. Every cut, every slice, every step back to the beginning
of a character and every difference is checked, so that a place which is not sound leaves no result.

The buffer does what the scanner does (`push?_buffer`, `finish?_buffer`). A round after which there is more to look
for makes the buffer shorter (`round?_shorter`), so that a push ends; and where the search for a closing goes on it
passes over none (`resume?_eq`).
-/
import ModelStream.Proofs.InlineTag.Reference
import ModelStream.Proofs.Text.Offsets

namespace ModelStream.InlineTag

open Text

/-- A tag that is open. -/
structure Span where
  tag : InlineTag
  /-- Where the body begins. -/
  start : Nat
  /-- Up to where the closing has been looked for. -/
  searched : Nat

/-- Where the search for the closing goes on: so far back that a closing which has only been begun is found. -/
def Span.resume? (span : Span) (pending : List Char) : Option Nat := do
  let overlap ← sub? (size span.tag.closing) 1
  back? pending (max (span.searched - overlap) span.start)

/-- How much of a text without an opening cannot become a tag any more. -/
def safe? (tags : List InlineTag) (text : List Char) : Option Nat :=
  match last? '<' text with
  | none => some (size text)
  | some mark => do
    let (_, tail) ← cut? text mark
    if tail.contains '>' then return size text
    else if "</".toList.isPrefixOf tail || tags.any fun t => tail.isPrefixOf t.opening then return mark
    else return size text

/-- The first of these places such that the text ends with the form up to there. -/
def begun? (form text : List Char) : List Nat → Option (Option Nat)
  | [] => some none
  | n :: more => do
    let (piece, _) ← cut? form n
    if piece.isSuffixOf text then return some n else begun? form text more

/-- A text without the longest piece at its end that begins the form and is not all of it. -/
def withoutBegun? (form text : List Char) : Option (List Char) := do
  match ← begun? form text ((charOffsets form).drop 1).reverse with
  | none => return text
  | some n =>
    let stop ← sub? (size text) n
    let (kept, _) ← cut? text stop
    return kept

structure Buffer where
  tags : List InlineTag
  pending : List Char := []
  span : Option Span := none
  /-- Blanks before the next visible text are dropped. -/
  dropBlanks : Bool := false

namespace Buffer

/-- Looks for the closing of a tag: the segments, the buffer, and whether there is more to look for. -/
def close? (b : Buffer) (span : Span) : Option (List Segment × Buffer × Bool) := do
  let start ← span.resume? b.pending
  let (_, rest) ← cut? b.pending start
  match leftmost? closing [span.tag] rest with
  | none => return ([], { b with span := some { span with searched := size b.pending } }, false)
  | some (before, _, _) =>
    let stop := start + size before
    let body ← slice? b.pending span.start stop
    let (_, rest) ← cut? b.pending (stop + size span.tag.closing)
    return (reasoningText body, { b with pending := rest, span := none, dropBlanks := true }, true)

/-- One round: what stands before the next opening is visible, and what stands before its closing is reasoning. -/
def round? (b : Buffer) : Option (List Segment × Buffer × Bool) :=
  match b.span with
  | some span => { b with span := none }.close? span
  | none =>
    match leftmost? opening b.tags b.pending with
    | none => do
      let safe ← safe? b.tags b.pending
      let (visible, rest) ← cut? b.pending safe
      let (out, dropBlanks) := Scanner.segments b.dropBlanks [.visible visible]
      return (out, { b with pending := rest, dropBlanks }, false)
    | some (before, tag, _) => do
      let start := size before
      let (visible, rest) ← cut? b.pending start
      let (out, dropBlanks) := Scanner.segments b.dropBlanks [.visible visible]
      let body ← sub? (start + size tag.opening) start
      let (later, b, more) ← { b with pending := rest, dropBlanks }.close? { tag, start := body, searched := body }
      return (out ++ later, b, more)

/-- A search that finds the closing takes it away. -/
theorem close?_shorter {b c : Buffer} {span : Span} {out : List Segment} (h : b.close? span = some (out, c, true)) :
    c.pending.length < b.pending.length := by
  simp only [close?, Option.bind_eq_bind, Option.bind_eq_some_iff] at h
  obtain ⟨start, -, ⟨passed, rest⟩, -, h⟩ := h
  split at h
  · simp at h
  · next before _ _ _ =>
    simp only [Option.bind_eq_some_iff] at h
    obtain ⟨body, -, ⟨taken, left⟩, hcut, heq⟩ := h
    cases heq
    obtain ⟨hpending, hsize⟩ := eq_of_cut? hcut
    have htaken : taken ≠ [] := by
      rintro rfl
      have hclosing : 0 < size span.tag.closing := size_pos (by simp [closing_eq])
      rw [size_nil] at hsize
      omega
    rw [hpending, List.length_append]
    exact Nat.lt_add_of_pos_left (List.length_pos_iff.2 htaken)

theorem round?_shorter {b c : Buffer} {out : List Segment} (h : b.round? = some (out, c, true)) :
    c.pending.length < b.pending.length := by
  unfold round? at h
  split at h
  · exact close?_shorter h
  · split at h
    · simp only [Option.bind_eq_bind, Option.bind_eq_some_iff] at h
      obtain ⟨safe, -, ⟨visible, rest⟩, -, heq⟩ := h
      cases heq
    · simp only [Option.bind_eq_bind, Option.bind_eq_some_iff] at h
      obtain ⟨⟨visible, rest⟩, hcut, body, -, ⟨later, d, more⟩, hclose, heq⟩ := h
      cases heq
      have hrest := congrArg List.length (eq_of_cut? hcut).1
      rw [List.length_append] at hrest
      refine Nat.lt_of_lt_of_le (close?_shorter hclose) ?_
      rw [hrest]
      exact Nat.le_add_left ..

/-- Rounds until there is nothing more to look for. -/
def read? (b : Buffer) : Option (List Segment × Buffer) :=
  match _hround : b.round? with
  | none => none
  | some (out, c, false) => some (out, c)
  | some (out, c, true) => c.read?.map fun (later, d) => (out ++ later, d)
termination_by b.pending.length
decreasing_by exact round?_shorter _hround

def push? (b : Buffer) (text : String) : Option (List Segment × Buffer) :=
  { b with pending := b.pending ++ text.toList }.read?

def finish? (b : Buffer) : Option (List Segment × Buffer) :=
  match b.span with
  | some span => do
    let (_, body) ← cut? b.pending span.start
    let kept ← withoutBegun? span.tag.closing body
    return (reasoningText kept, { b with pending := [], span := none })
  | none =>
    let (out, dropBlanks) := Scanner.segments b.dropBlanks [.visible b.pending]
    return (out, { b with pending := [], dropBlanks })

end Buffer

/-! ## The buffer of a scanner -/

def Scanner.buffer (s : Scanner) : Buffer :=
  match s.place with
  | .outside run => { tags := s.tags, pending := run.reverse, dropBlanks := s.dropBlanks }
  | .inside t body =>
    let pending := t.opening ++ body.reverse
    { tags := s.tags, pending, span := some { tag := t, start := size t.opening, searched := size pending }
      dropBlanks := s.dropBlanks }

/-- A place whose tag is one of the list, and whose body does not hold the closing. -/
def Place.Open (tags : List InlineTag) : Place → Prop
  | .outside _ => True
  | .inside t body => t ∈ tags ∧ ¬ t.closing <:+: body.reverse

variable {tags : List InlineTag} {t : InlineTag} {text : List Char}

/-- A text is given out up to what is held back. -/
theorem safe?_eq (tags : List InlineTag) (text : List Char) : ∃ safe,
    text = safe ++ undecided tags text.reverse ∧ safe? tags text = some (size safe) := by
  rcases last_mark text with hnone | ⟨older, tail, rfl, htail⟩
  · refine ⟨text, by rw [undecided_of_not_mem hnone, List.append_nil], ?_⟩
    rw [safe?, last?_of_not_mem hnone]
  · have hcontains : ('<' :: tail).contains '>' = true ↔ '>' ∈ tail := by simp
    rw [undecided_append htail, safe?, last?_append older htail]
    simp only [cut?_append, Option.bind_eq_bind, Option.bind_some, hcontains, Bool.or_eq_true,
      List.isPrefixOf_iff_prefix, List.any_eq_true]
    split_ifs
    · exact ⟨_, (List.append_nil _).symm, rfl⟩
    · exact ⟨older, rfl, rfl⟩
    · exact ⟨_, (List.append_nil _).symm, rfl⟩

/-! ## The search for a closing -/

/-- The search goes on within what has been searched, before anything that the closing may begin with. -/
theorem resume?_eq {old : List Char} (hold : ¬ t.closing <:+: old) (text : List Char) :
    ∃ passed left, old = passed ++ left ∧
      Span.resume? { tag := t, start := size t.opening, searched := size (t.opening ++ old) }
        (t.opening ++ (old ++ text)) = some (size (t.opening ++ passed)) ∧
      leftmost? closing [t] (old ++ text) =
        (leftmost? closing [t] (left ++ text)).map fun (before, found) => (passed ++ before, found) := by
  have hclosing : 1 ≤ size t.closing := size_pos (by simp [closing_eq])
  obtain ⟨first, rest, hsplit, hback, hle, hlast⟩ := back?_eq (t.opening ++ (old ++ text))
    (max (size (t.opening ++ old) - (size t.closing - 1)) (size t.opening))
  have hpending : first <+: t.opening ++ (old ++ text) := ⟨rest, hsplit.symm⟩
  -- the place reached is not before the body, and not behind what has been searched
  have hopening : t.opening <+: first :=
    prefix_of_size_le (List.prefix_append ..) hpending (hlast _ _ rfl (Nat.le_max_right ..))
  have hsearched : first <+: t.opening ++ old := by
    refine prefix_of_size_le hpending ⟨text, by simp⟩ (Nat.le_trans hle ?_)
    simp only [size_append]
    omega
  obtain ⟨passed, rfl⟩ := hopening
  obtain ⟨left, rfl⟩ := (List.prefix_append_right_inj _).1 hsearched
  refine ⟨passed, left, rfl, ?_, ?_⟩
  · simp only [Span.resume?, sub?_of_le hclosing, Option.bind_eq_bind, Option.bind_some]
    exact hback
  · rw [List.append_assoc]
    refine leftmost?_skip fun piece hpiece hne u hu hfront => hold ?_
    obtain rfl := List.mem_singleton.1 hu
    -- a closing that begins in what is passed over would end in what has been searched
    have hsize : size u.closing ≤ size (piece ++ left) := by
      have hfirst := size_pos hne
      obtain ⟨before, rfl⟩ := hpiece
      simp only [size_append] at hle ⊢
      omega
    have hwhole : u.closing <+: piece ++ left :=
      prefix_of_size_le hfront ⟨text, List.append_assoc ..⟩ hsize
    exact hwhole.isInfix.trans ((List.suffix_append_inj_of_length_eq rfl).2 ⟨hpiece, rfl⟩).isInfix

theorem close?_eq {old : List Char} (hold : ¬ t.closing <:+: old) (tags : List InlineTag) (text : List Char)
    (span : Option Span) (drop : Bool) :
    Buffer.close? { tags, pending := t.opening ++ (old ++ text), span, dropBlanks := drop }
        { tag := t, start := size t.opening, searched := size (t.opening ++ old) } =
      match leftmost? closing [t] (old ++ text) with
      | none => some ([], Scanner.buffer { tags, place := .inside t (old ++ text).reverse, dropBlanks := drop }, false)
      | some (body, _, rest) => some (reasoningText body, { tags, pending := rest, dropBlanks := true }, true) := by
  obtain ⟨passed, left, rfl, hresume, hleftmost⟩ := resume?_eq hold text
  rw [hleftmost]
  have hcut : cut? (t.opening ++ (passed ++ left ++ text)) (size (t.opening ++ passed)) =
      some (t.opening ++ passed, left ++ text) := by
    rw [← cut?_append]
    simp
  simp only [Buffer.close?, hresume, hcut, Option.bind_eq_bind, Option.bind_some]
  cases hfound : leftmost? closing [t] (left ++ text) with
  | none => simp [Scanner.buffer]
  | some found =>
    obtain ⟨before, u, rest⟩ := found
    obtain rfl := List.mem_singleton.1 (mem_of_leftmost? hfound)
    have hrest := eq_append_of_leftmost? hfound
    have hbody : slice? (u.opening ++ (passed ++ left ++ text)) (size u.opening)
        (size (u.opening ++ passed) + size before) = some (passed ++ before) := by
      rw [← slice?_append u.opening (passed ++ before) (u.closing ++ rest), List.append_assoc passed, hrest]
      simp [Nat.add_assoc]
    have hclose : cut? (u.opening ++ (passed ++ left ++ text))
        (size (u.opening ++ passed) + size before + size u.closing) =
        some (u.opening ++ (passed ++ (before ++ u.closing)), rest) := by
      rw [← cut?_append, List.append_assoc passed, hrest]
      simp [Nat.add_assoc]
    simp only [hbody, hclose, Option.bind_some, Option.map_some]
    rfl

/-! ## What the buffer reads -/

/-- The segments of a scan that has come to a place, and the scanner there. -/
def Scanner.conclude (tags : List InlineTag) (drop : Bool) : List Stretch × Place → List Segment × Scanner
  | (found, .outside run) =>
    let held := undecided tags run
    let stretches := found ++ [.visible (run.reverse.take (run.length - held.length))]
    ((segments drop stretches).1, { tags, place := .outside held.reverse, dropBlanks := dropping drop stretches })
  | (found, .inside t body) =>
    ((segments drop found).1, { tags, place := .inside t body, dropBlanks := dropping drop found })

namespace Scanner

theorem push_conclude (s : Scanner) (text : String) :
    s.push text = conclude s.tags s.dropBlanks (scan s.tags 0 s.place.start (s.place.held ++ text.toList)) := by
  rw [push_eq]
  rcases scan s.tags 0 s.place.start (s.place.held ++ text.toList) with ⟨found, _ | _⟩ <;> rfl

theorem conclude_cons (tags : List InlineTag) (drop : Bool) (stretch : Stretch) (reached : List Stretch × Place) :
    conclude tags drop (stretch :: reached.1, reached.2) =
      ((segments drop [stretch]).1 ++ (conclude tags (dropping drop [stretch]) reached).1,
        (conclude tags (dropping drop [stretch]) reached).2) := by
  obtain ⟨found, place⟩ := reached
  cases place with
  | outside run =>
    simp only [conclude, List.cons_append]
    rw [segments_cons stretch (_ ++ _), dropping_cons stretch (_ ++ _)]
  | inside t body =>
    simp only [conclude]
    rw [segments_cons stretch found, dropping_cons stretch found]

end Scanner

namespace Buffer

/-- What comes of a round: its segments, and those of what is read next if there is more to look for. -/
def goOn? : Option (List Segment × Buffer × Bool) → Option (List Segment × Buffer)
  | none => none
  | some (out, c, false) => some (out, c)
  | some (out, c, true) => c.read?.map fun (later, d) => (out ++ later, d)

theorem read?_eq (b : Buffer) : b.read? = goOn? b.round? := by
  rw [read?]
  split <;> simp [*, goOn?]

theorem goOn?_before (out : List Segment) (round : Option (List Segment × Buffer × Bool)) :
    goOn? (round.bind fun (later, c, more) => some (out ++ later, c, more)) =
      (goOn? round).map fun (later, c) => (out ++ later, c) := by
  rcases round with _ | ⟨later, c, _ | _⟩
  · rfl
  · rfl
  · simp [goOn?, Function.comp_def]

def shownBy (found : List Segment × Scanner) : List Segment × Buffer := (found.1, found.2.buffer)

/-- From within a body the buffer reads what a scan does, if it does so from the closing on. -/
theorem goOn?_close {old : List Char} (hold : ¬ t.closing <:+: old) (tags : List InlineTag) (text : List Char)
    (span : Option Span) (drop : Bool) (hnext : ∀ rest : List Char, rest.length < (old ++ text).length →
      read? { tags, pending := rest, dropBlanks := true } =
        some (shownBy (Scanner.conclude tags true (scan tags 0 (.outside []) rest)))) :
    goOn? (close? { tags, pending := t.opening ++ (old ++ text), span, dropBlanks := drop }
        { tag := t, start := size t.opening, searched := size (t.opening ++ old) }) =
      some (shownBy (Scanner.conclude tags drop (scan tags 0 (.inside t old.reverse) text))) := by
  have hscan := @scan_inside tags t old.reverse text (by rwa [List.reverse_reverse])
  rw [List.reverse_reverse] at hscan
  rw [close?_eq hold, hscan]
  cases hfound : leftmost? closing [t] (old ++ text) with
  | none => simp [goOn?, shownBy, Scanner.conclude, Scanner.segments, dropping]
  | some found =>
    obtain ⟨body, u, rest⟩ := found
    have hshort : rest.length < (old ++ text).length := by
      rw [eq_append_of_leftmost? hfound]
      simp only [List.length_append, closing_eq, List.length_cons]
      omega
    simp only [goOn?, hnext rest hshort, Scanner.conclude_cons]
    rfl

/-- Outside of all tags the buffer reads what a scan does. -/
theorem read?_outside (tags : List InlineTag) (text : List Char) (drop : Bool) :
    read? { tags, pending := text, dropBlanks := drop } =
      some (shownBy (Scanner.conclude tags drop (scan tags 0 (.outside []) text))) := by
  induction hlength : text.length using Nat.strongRecOn generalizing text drop with
  | ind n ih =>
    rw [read?_eq, scan_outside]
    cases hfound : leftmost? opening tags text with
    | none =>
      obtain ⟨safe, htext, hsafe⟩ := safe?_eq tags text
      have hcut : cut? text (size safe) = some (safe, undecided tags text.reverse) := by
        rw [← cut?_append safe (undecided tags text.reverse), ← htext]
      have hround : round? { tags, pending := text, dropBlanks := drop } =
          some ((Scanner.segments drop [.visible safe]).1,
            { tags, pending := undecided tags text.reverse, dropBlanks := dropping drop [.visible safe] }, false) := by
        simp only [round?, hfound, hsafe, hcut, Option.bind_eq_bind, Option.bind_some]
        rfl
      have htake := take_of_append htext
      simp [hround, goOn?, shownBy, Scanner.conclude, Scanner.buffer, htake]
    | some found =>
      obtain ⟨before, t, after⟩ := found
      have htext := eq_append_of_leftmost? hfound
      have hcut : cut? text (size before) = some (before, t.opening ++ after) := by
        rw [← cut?_append before (t.opening ++ after), htext, List.append_assoc]
      have hround : round? { tags, pending := text, dropBlanks := drop } =
          (close? { tags, pending := t.opening ++ ([] ++ after), dropBlanks := dropping drop [.visible before] }
              { tag := t, start := size t.opening, searched := size (t.opening ++ []) }).bind
            fun (later, c, more) => some ((Scanner.segments drop [.visible before]).1 ++ later, c, more) := by
        simp only [round?, hfound, hcut, Option.bind_eq_bind, Option.bind_some, Nat.add_comm (size before), sub?_add,
          List.append_nil, List.nil_append]
        rfl
      rw [hround, goOn?_before, goOn?_close (not_closing_nil t)]
      · simp only [Scanner.conclude_cons]
        rfl
      · intro rest hrest
        refine ih rest.length ?_ rest true rfl
        rw [← hlength, htext]
        simp only [List.nil_append, List.length_append] at hrest ⊢
        omega

theorem push?_buffer {s : Scanner} (h : s.place.Open s.tags) (text : String) :
    s.buffer.push? text = some (shownBy (s.push text)) := by
  rw [push?, Scanner.push_conclude]
  obtain ⟨tags, place, drop⟩ := s
  cases place with
  | outside run => exact read?_outside tags (run.reverse ++ text.toList) drop
  | inside t body =>
    have hread := goOn?_close h.2 tags text.toList none drop fun rest _ => read?_outside tags rest true
    rw [List.reverse_reverse] at hread
    rw [read?_eq]
    simp only [Scanner.buffer, round?, List.append_assoc]
    exact hread

/-! ## The end of the text -/

theorem begun?_eq (form text : List Char) (lengths : List Nat) :
    begun? form text (lengths.map fun n => size (form.take n)) =
      some ((lengths.find? fun n => (form.take n).isSuffixOf text).map fun n => size (form.take n)) := by
  induction lengths with
  | nil => rfl
  | cons n more ih =>
    have hcut : cut? form (size (form.take n)) = some (form.take n, form.drop n) := by
      rw [← cut?_append, List.take_append_drop]
    rw [List.map_cons, begun?]
    simp only [hcut, Option.bind_eq_bind, Option.bind_some, ih]
    cases hends : (form.take n).isSuffixOf text with
    | true => simp [hends]
    | false => simp [hends]

/-- The pieces are tried from the longest one downwards. -/
theorem find?_begun (t : InlineTag) (body : List Char) :
    (((List.range t.closing.length).drop 1).reverse.find? fun n => (t.closing.take n).isSuffixOf body.reverse) =
      (List.range t.closing.length).reverse.find? (endsBegun t body) := by
  obtain ⟨m, hm⟩ : ∃ m, t.closing.length = m + 1 := ⟨_, rfl⟩
  have hsame : (fun n => (t.closing.take n).isSuffixOf body.reverse) ∘ Nat.succ = endsBegun t body ∘ Nat.succ := by
    funext n
    simp [endsBegun, List.isSuffixOf]
  have hzero : endsBegun t body 0 = false := by simp [endsBegun]
  rw [hm, List.range_succ_eq_map, List.drop_one, List.tail_cons, List.reverse_cons, List.find?_append, ← List.map_reverse,
    List.find?_map, List.find?_map, hsame]
  simp [hzero]

theorem withoutBegun?_eq (t : InlineTag) (body : List Char) :
    withoutBegun? t.closing body.reverse = some (Scanner.withoutCut t body) := by
  have hlengths : ((charOffsets t.closing).drop 1).reverse =
      ((List.range t.closing.length).drop 1).reverse.map fun n => size (t.closing.take n) := by
    rw [charOffsets, List.map_reverse, List.map_drop]
  rw [withoutBegun?, hlengths, begun?_eq, find?_begun, withoutCut_drop]
  cases hfound : (List.range t.closing.length).reverse.find? (endsBegun t body) with
  | none => rfl
  | some n =>
    simp only [Option.map_some, Option.bind_eq_bind, Option.bind_some, ← (split_of_find? hfound).2, size_append, sub?_add,
      cut?_append, Option.getD_some]
    rfl

theorem finish?_buffer (s : Scanner) : s.buffer.finish? = some (shownBy s.finish) := by
  obtain ⟨tags, place, drop⟩ := s
  cases place with
  | outside run => rfl
  | inside t body =>
    simp only [finish?, Scanner.buffer, cut?_append, withoutBegun?_eq, Option.bind_eq_bind, Option.bind_some]
    rfl

end Buffer

end ModelStream.InlineTag
