/-
What holds of the scanner's buffer at all times. Whatever names the tags have, and whatever is pushed and finished
in whatever order, every place of the buffer is sound, nothing is held back but what may become a tag
(`Buffer.Sound`), the buffer has the result that the scanner has, and no visible segment holds an opening
(`run?_sound`).
-/
import ModelStream.Proofs.InlineTag.Buffer

namespace ModelStream.InlineTag

open Text

variable {tags : List InlineTag} {t : InlineTag} {text more : List Char}

namespace Buffer

/-- A buffer whose places are sound, and which holds nothing back but what may become a tag. -/
structure Sound (b : Buffer) : Prop where
  /-- While a tag is open, its opening stands at the front, and nowhere after it its closing. -/
  opened : ∀ span, b.span = some span → span.tag ∈ b.tags ∧ span.start = size span.tag.opening ∧
    span.start ≤ span.searched ∧ span.searched ≤ size b.pending ∧
    ∃ body, b.pending = span.tag.opening ++ body ∧ ¬ span.tag.closing <:+: body
  /-- Otherwise there is nothing, or a `<` that a tag may begin with. -/
  held : b.span = none → b.pending = [] ∨ ∃ tail, b.pending = '<' :: tail ∧ '<' ∉ tail ∧ '>' ∉ tail ∧
    (Begins b.tags b.pending ∨ "</".toList <+: b.pending)

end Buffer

/-! ## Where scans end -/

theorem Place.Open.start {place : Place} (h : place.Open tags) : place.start.Open tags := by
  cases place <;> exact h

theorem Place.Open.scan {skip : Nat} {place : Place} (h : place.Open tags) (text : List Char) :
    (InlineTag.scan tags skip place text).2.Open tags := by
  fun_induction InlineTag.scan tags skip place text with
  | case1 => exact h
  | case2 skip place c cs ih => exact ih h
  | case3 run c cs t hopened found place hscan ih =>
    rw [hscan] at ih
    exact ih ⟨(opened?_eq_some hopened).1, not_closing_nil t⟩
  | case4 run c cs hopened ih => exact ih trivial
  | case5 t body c cs hclose found place hscan ih =>
    rw [hscan] at ih
    exact ih trivial
  | case6 t body c cs hclose ih =>
    refine ih ⟨h.1, ?_⟩
    rw [List.reverse_cons, List.infix_concat_iff]
    exact not_or.2 ⟨mt closes_iff.2 hclose, h.2⟩

/-- What is held back begins like a tag. -/
theorem undecided_held (tags : List InlineTag) (text : List Char) : undecided tags text.reverse = [] ∨
    ∃ tail, undecided tags text.reverse = '<' :: tail ∧ '<' ∉ tail ∧ '>' ∉ tail ∧
      (Begins tags ('<' :: tail) ∨ "</".toList <+: '<' :: tail) := by
  rcases last_mark text with hnone | ⟨older, tail, rfl, htail⟩
  · exact .inl (undecided_of_not_mem hnone)
  · rw [undecided_append htail]
    split
    · exact .inl rfl
    · next hclose =>
      split
      · next hbegun =>
        refine .inr ⟨tail, rfl, htail, hclose, hbegun.symm.imp_left fun ⟨t, ht, hfront⟩ => ⟨t, ht, hfront, ?_⟩⟩
        exact fun heq => hclose ((List.cons.inj heq).2 ▸ by simp)
      · exact .inl rfl

/-! ## What stays sound -/

namespace Buffer

theorem sound_outside (tags : List InlineTag) (drop : Bool) (text : List Char) :
    Sound { tags, pending := undecided tags text.reverse, dropBlanks := drop } where
  opened := nofun
  held _ := by
    rcases undecided_held tags text with hnone | ⟨tail, htail, hopen, hclose, hbegun⟩
    · exact .inl hnone
    · exact .inr ⟨tail, htail, hopen, hclose, htail ▸ hbegun⟩

theorem sound_inside {body : List Char} (ht : t ∈ tags) (hbody : ¬ t.closing <:+: body.reverse) (drop : Bool) :
    (Scanner.buffer { tags, place := .inside t body, dropBlanks := drop }).Sound where
  opened := by
    rintro span heq
    cases heq
    exact ⟨ht, rfl, by simp, Nat.le_refl _, body.reverse, rfl, hbody⟩
  held := nofun

theorem sound_conclude {reached : List Stretch × Place} (h : reached.2.Open tags) (drop : Bool) :
    (Scanner.conclude tags drop reached).2.buffer.Sound := by
  obtain ⟨found, place⟩ := reached
  cases place with
  | outside run =>
    have hsound := sound_outside tags (Scanner.conclude tags drop (found, .outside run)).2.dropBlanks run.reverse
    rw [List.reverse_reverse] at hsound
    simpa only [Scanner.buffer, Scanner.conclude, List.reverse_reverse] using hsound
  | inside t body => exact sound_inside h.1 h.2 _

/-- A scanner whose buffer is sound does not hold the closing of its open tag. -/
theorem Sound.place {s : Scanner} (h : s.buffer.Sound) : s.place.Open s.tags := by
  obtain ⟨tags, place, drop⟩ := s
  cases place with
  | outside run => trivial
  | inside t body =>
    obtain ⟨ht, -, -, -, rest, hrest, hclosing⟩ := h.opened _ rfl
    exact ⟨ht, (List.append_cancel_left hrest) ▸ hclosing⟩

theorem Sound.push {s : Scanner} (h : s.buffer.Sound) (text : String) : (s.push text).2.buffer.Sound := by
  rw [Scanner.push_conclude]
  exact sound_conclude (h.place.start.scan _) _

theorem sound_finish (s : Scanner) : s.finish.2.buffer.Sound := by
  have hplace : s.finish.2.place = .outside [] := by
    unfold Scanner.finish
    split <;> rfl
  constructor
  · intro span hspan
    simp [Scanner.buffer, hplace] at hspan
  · exact fun _ => .inl (by simp [Scanner.buffer, hplace])

end Buffer

/-! ## What is visible -/

/-- No visible segment holds an opening. -/
def Clean (tags : List InlineTag) (out : List Segment) : Prop :=
  ∀ text, .visible text ∈ out → ∀ t ∈ tags, ¬ t.opening <:+: text.toList

theorem Clean.append {out later : List Segment} (h : Clean tags out) (k : Clean tags later) : Clean tags (out ++ later) :=
  fun text hmem => (List.mem_append.1 hmem).elim (h text) (k text)

theorem Unopened.no_opening (h : Unopened tags text more) (ht : t ∈ tags) : ¬ t.opening <:+: text := by
  rintro ⟨before, after, rfl⟩
  have hsuffix : t.opening ++ after <:+ before ++ t.opening ++ after := ⟨before, by simp⟩
  have hnone := h _ hsuffix (by simp [opening_eq])
  rw [List.append_assoc] at hnone
  exact opened?_eq_none_iff.1 hnone t ht (List.prefix_append ..)

/-- No tag opens in a visible stretch that a scan finds. -/
theorem unopened_of_mem_scan {skip : Nat} {place : Place} {cs : List Char} (hready : place.Ready tags skip text)
    (h : .visible cs ∈ (scan tags skip place text).1) : ∃ more, Unopened tags cs more := by
  fun_induction scan tags skip place text with
  | case1 => cases h
  | case2 skip place c rest ih => exact ih (hready.skip rest) h
  | case3 run c rest t hopened found place hscan ih =>
    rw [hscan] at ih
    rcases List.mem_cons.1 h with heq | hmem
    · obtain rfl := Stretch.visible.inj heq
      exact ⟨c :: rest, (hready run rfl).2⟩
    · exact ih Place.ready_inside hmem
  | case4 run c rest hopened ih => exact ih (hready.next hopened) h
  | case5 t body c rest hclose found place hscan ih =>
    rw [hscan] at ih
    rcases List.mem_cons.1 h with heq | hmem
    · cases heq
    · exact ih (Place.ready_start (.outside []) _) hmem
  | case6 t body c rest hclose ih => exact ih Place.ready_inside h

theorem clean_segments {stretches : List Stretch}
    (h : ∀ cs, .visible cs ∈ stretches → ∀ t ∈ tags, ¬ t.opening <:+: cs) (drop : Bool) :
    Clean tags (Scanner.segments drop stretches).1 := by
  induction stretches generalizing drop with
  | nil => exact nofun
  | cons stretch more ih =>
    have hmore := ih fun cs hmem => h cs (List.mem_cons_of_mem _ hmem)
    rw [segments_cons]
    refine .append ?_ (hmore _)
    cases stretch with
    | reasoning cs =>
      have hout : (Scanner.segments drop [.reasoning cs]).1 = reasoningText cs := rfl
      rw [hout, reasoningText]
      split <;> simp [Clean]
    | visible cs =>
      have hkept : kept drop cs <:+ cs := by
        rw [kept]
        split
        · exact List.dropWhile_suffix _
        · exact List.suffix_refl _
      rw [segments_visible]
      split
      · exact nofun
      · intro text hmem t ht hinner
        obtain rfl := Segment.visible.inj (List.mem_singleton.1 hmem)
        rw [String.toList_ofList] at hinner
        exact h cs (List.mem_cons_self ..) t ht (hinner.trans hkept.isInfix)

theorem clean_push (s : Scanner) (text : String) : Clean s.tags (s.push text).1 := by
  have hready : s.place.start.Ready s.tags 0 (s.place.held ++ text.toList) := Place.ready_start _ _
  have hfound : ∀ cs, .visible cs ∈ (scan s.tags 0 s.place.start (s.place.held ++ text.toList)).1 →
      ∀ t ∈ s.tags, ¬ t.opening <:+: cs := by
    intro cs hmem t ht
    obtain ⟨more, hmore⟩ := unopened_of_mem_scan hready hmem
    exact hmore.no_opening ht
  have hruns := unopened_of_scan 0 s.place.start (s.place.held ++ text.toList) hready
  rw [Scanner.push_conclude]
  rcases hscan : scan s.tags 0 s.place.start (s.place.held ++ text.toList) with ⟨found, place⟩
  rw [hscan] at hfound hruns
  cases place with
  | inside t body => exact clean_segments hfound _
  | outside run =>
    refine clean_segments (fun cs hmem t ht hinner => ?_) _
    rcases List.mem_append.1 hmem with hmem | hmem
    · exact hfound cs hmem t ht hinner
    · obtain rfl := Stretch.visible.inj (List.mem_singleton.1 hmem)
      exact (hruns run rfl).no_opening ht (hinner.trans (List.take_prefix ..).isInfix)

/-- What was held back holds no opening, for it does not hold the end of one. -/
theorem clean_finish {s : Scanner} (h : s.buffer.Sound) : Clean s.tags s.finish.1 := by
  obtain ⟨tags, place, drop⟩ := s
  cases place with
  | inside t body =>
    show Clean tags (reasoningText (Scanner.withoutCut t body))
    rw [reasoningText]
    split <;> simp [Clean]
  | outside run =>
    have hheld : '>' ∉ run.reverse := by
      rcases h.held rfl with hnone | ⟨tail, htail, -, hclose, -⟩
      · rw [show run.reverse = [] from hnone]
        exact List.not_mem_nil
      · rw [show run.reverse = '<' :: tail from htail]
        simpa using hclose
    have hone : ∀ cs, Stretch.visible cs ∈ [Stretch.visible run.reverse] → ∀ t ∈ tags, ¬ t.opening <:+: cs := by
      intro cs hmem t ht hinner
      obtain rfl := Stretch.visible.inj (List.mem_singleton.1 hmem)
      exact hheld (hinner.subset (by simp [opening_eq]))
    exact clean_segments hone drop

/-! ## Any number of operations -/

inductive Operation
  | push (text : String)
  | finish

namespace Scanner

def act (s : Scanner) : Operation → List Segment × Scanner
  | .push text => s.push text
  | .finish => s.finish

/-- The segments of each operation, and the scanner after all of them. -/
def run (s : Scanner) : List Operation → List (List Segment) × Scanner
  | [] => ([], s)
  | operation :: more =>
    let (out, s) := s.act operation
    let (later, s) := s.run more
    (out :: later, s)

theorem act_tags (s : Scanner) (operation : Operation) : (s.act operation).2.tags = s.tags := by
  cases operation with
  | push text => exact push_tags s text
  | finish =>
    unfold act finish
    simp only
    split <;> rfl

end Scanner

namespace Buffer

def act? (b : Buffer) : Operation → Option (List Segment × Buffer)
  | .push text => b.push? text
  | .finish => b.finish?

def run? (b : Buffer) : List Operation → Option (List (List Segment) × Buffer)
  | [] => some ([], b)
  | operation :: more => do
    let (out, b) ← b.act? operation
    let (later, b) ← b.run? more
    return (out :: later, b)

/-- One operation on a sound buffer. -/
theorem act?_buffer {s : Scanner} (h : s.buffer.Sound) (operation : Operation) :
    s.buffer.act? operation = some ((s.act operation).1, (s.act operation).2.buffer) ∧
      (s.act operation).2.buffer.Sound ∧ Clean s.tags (s.act operation).1 := by
  cases operation with
  | push text => exact ⟨push?_buffer h.place text, h.push text, clean_push s text⟩
  | finish => exact ⟨finish?_buffer s, sound_finish s, clean_finish h⟩

/-- Any number of operations on a sound buffer. -/
theorem run?_buffer {s : Scanner} (h : s.buffer.Sound) (operations : List Operation) :
    s.buffer.run? operations = some ((s.run operations).1, (s.run operations).2.buffer) ∧
      (s.run operations).2.buffer.Sound ∧ ∀ out ∈ (s.run operations).1, Clean s.tags out := by
  induction operations generalizing s with
  | nil => exact ⟨rfl, h, fun _ hout => nomatch hout⟩
  | cons operation more ih =>
    obtain ⟨hact, hsound, hclean⟩ := act?_buffer h operation
    obtain ⟨hrun, hlast, hmore⟩ := ih hsound
    rw [Scanner.act_tags] at hmore
    refine ⟨?_, hlast, List.forall_mem_cons.2 ⟨hclean, hmore⟩⟩
    simp only [run?, hact, hrun, Option.bind_eq_bind, Option.bind_some]
    rfl

/-- For every list of tag names that is accepted, whatever characters they hold: after any pushes and ends of text
the buffer has a result, which is that of the scanner; it is sound; and no visible segment holds an opening. -/
theorem run?_sound {names : List String} {s : Scanner} (h : Scanner.ofNames names = .ok s)
    (operations : List Operation) :
    s.buffer.run? operations = some ((s.run operations).1, (s.run operations).2.buffer) ∧
      (s.run operations).2.buffer.Sound ∧ ∀ out ∈ (s.run operations).1, Clean s.tags out := by
  refine run?_buffer ?_ operations
  unfold Scanner.ofNames at h
  split at h
  · cases h
  · cases h
    exact sound_outside _ false []

/-- Tags and texts whose characters have several bytes, cut within the tags; the text ends twice. -/
theorem run?_sound_wide :
    let s : Scanner := { tags := [⟨"denké".toList⟩, ⟨"t".toList⟩] }
    let operations : List Operation :=
      [.push "ä <denk", .push "é>ö€</denk", .push "é𝄞</denké> ü</", .finish, .push "<t>€</", .finish]
    Scanner.ofNames ["denké ", "t"] = .ok s ∧
      (s.run operations).1 = [[.visible "ä "], [], [.reasoning "ö€</denké𝄞", .visible "ü"], [.visible "</"], [],
        [.reasoning "€"]] ∧
      s.buffer.run? operations = some ((s.run operations).1, (s.run operations).2.buffer) ∧
      (s.run operations).2.buffer.Sound ∧ ∀ out ∈ (s.run operations).1, Clean s.tags out := by
  intro s operations
  have hs : Scanner.ofNames ["denké ", "t"] = .ok s := by decide +kernel
  exact ⟨hs, by decide +kernel, run?_sound hs operations⟩

end Buffer

end ModelStream.InlineTag
