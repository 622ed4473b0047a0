/-
Text that the scanner takes in pieces. When no tag name holds a character that delimits tags, all pushes
and the end of the text together show what the whole text shows, however it is cut
(`Scanner.remaining_push`, `Scanner.remaining_nil`).

Scanning resumes with the run of characters that no tag has ended (`shown_scan_append`); what the scanner
has given out of that run is visible in any case, so that only what it held back is scanned again.
-/
import ModelStream.Proofs.InlineTag.Scan

namespace ModelStream.InlineTag

open Text

variable {tags : List InlineTag} {text more : List Char}

/-! ## Scanning to the end -/

/-- What the end of the text makes of the place reached. -/
def Place.rest : Place → List Stretch
  | .outside run => [.visible run.reverse]
  | .inside t body => [.reasoning (Scanner.withoutCut t body)]

/-- The stretches of a text that is scanned to its end. -/
def stretches (tags : List InlineTag) (skip : Nat) (place : Place) (text : List Char) : List Stretch :=
  (scan tags skip place text).1 ++ (scan tags skip place text).2.rest

/-- Where scanning resumes when more text comes. -/
def Place.start : Place → Place
  | .outside _ => .outside []
  | .inside t body => .inside t body

/-- The text that is scanned again then. -/
def Place.held : Place → List Char
  | .outside run => run.reverse
  | .inside .. => []

/-- The run at a place is scanned from its front, and no tag opens in it when `text` comes after it. -/
def Place.Ready (tags : List InlineTag) (skip : Nat) (place : Place) (text : List Char) : Prop :=
  ∀ run, place = .outside run → skip = 0 ∧ Unopened tags run.reverse text

namespace Place

theorem ready_outside {run : List Char} (h : Unopened tags run.reverse text) : Ready tags 0 (.outside run) text := by
  intro run' heq
  cases heq
  exact ⟨rfl, h⟩

theorem ready_inside {t : InlineTag} {body : List Char} {skip : Nat} : Ready tags skip (.inside t body) text := by
  intro run heq
  cases heq

theorem ready_start (place : Place) (text : List Char) : Ready tags 0 place.start text := by
  cases place with
  | outside run => exact ready_outside (unopened_nil _ _)
  | inside t body => exact ready_inside

theorem Ready.skip {skip : Nat} {place : Place} (h : Ready tags (skip + 1) place text) (more : List Char) :
    Ready tags skip place more := fun run heq => absurd (h run heq).1 (Nat.succ_ne_zero _)

theorem Ready.next {run : List Char} {c : Char} (h : Ready tags 0 (.outside run) (c :: text))
    (hopened : opened? tags (c :: text) = none) : Ready tags 0 (.outside (c :: run)) text := by
  refine ready_outside ?_
  rw [List.reverse_cons]
  exact (h run rfl).2.concat hopened

end Place

/-- What is shown from a place on when `more` is all that comes. -/
def resume (tags : List InlineTag) (drop : Bool) (place : Place) (more : List Char) : List Mark :=
  shown drop (stretches tags 0 place.start (place.held ++ more))

theorem shown_visible_append_cons (first second : List Char) (later : List Stretch) (drop : Bool) :
    shown drop (.visible (first ++ second) :: later) = shown drop (.visible first :: .visible second :: later) := by
  obtain ⟨hshown, hdrop⟩ := shown_visible_append first second drop
  rw [shown_cons, hshown, hdrop, ← shown_append]
  rfl

/-- What has been read of a run may be shown first. -/
theorem shown_stretches_append (tags : List InlineTag) (text run before : List Char) (drop : Bool) :
    shown drop (stretches tags 0 (.outside (run ++ before)) text) =
      shown drop (.visible before.reverse :: stretches tags 0 (.outside run) text) := by
  -- the run grows until a tag ends it, and `before` stays at its front
  induction text generalizing run with
  | nil =>
    simp only [stretches, scan, Place.rest, List.reverse_append, List.nil_append]
    exact shown_visible_append_cons ..
  | cons c text ih =>
    cases hopened : opened? tags (c :: text) with
    | none => simpa [stretches, scan, hopened] using ih (c :: run)
    | some t =>
      simp only [stretches, scan, hopened, List.reverse_append, List.cons_append]
      exact shown_visible_append_cons ..

/-- A run without a tag, and text read after it as it is, are scanned again with the same result. -/
theorem resume_outside {run : List Char} (text : List Char) (h : Unopened tags run.reverse (text ++ more))
    (drop : Bool) :
    resume tags drop (.outside (text.reverse ++ run)) more =
      shown drop (stretches tags 0 (.outside run) (text ++ more)) := by
  have hscan := scan_unopened h []
  rw [List.reverse_reverse, List.append_nil] at hscan
  simp only [resume, Place.start, Place.held, stretches, List.reverse_append, List.reverse_reverse, List.append_assoc,
    hscan]

/-- Scanning a text and more after it comes to scanning the text first, and then on from where it ends. -/
theorem shown_scan_append (hplain : Plain tags) (more : List Char) (skip : Nat) (place : Place) (text : List Char)
    (drop : Bool) (hskip : skip ≤ text.length) (hready : place.Ready tags skip (text ++ more)) :
    shown drop (stretches tags skip place (text ++ more)) = shown drop (scan tags skip place text).1 ++
      resume tags (dropping drop (scan tags skip place text).1) (scan tags skip place text).2 more := by
  fun_induction scan tags skip place text generalizing drop with
  | case1 skip place =>
    obtain rfl : skip = 0 := by simpa using hskip
    cases place with
    | outside run => exact (resume_outside [] (hready run rfl).2 drop).symm
    | inside t body => rfl
  | case2 skip place c cs ih => exact ih drop (by simpa using hskip) (hready.skip _)
  | case3 run c cs t hopened found place hscan ih =>
    -- the tag stands within the text, so more text does not change it
    have hopening := (opened?_eq_some hopened).2.length_le
    have hmore : stretches tags 0 (.outside run) (c :: cs ++ more) =
        .visible run.reverse :: stretches tags (t.opening.length - 1) (.inside t []) (cs ++ more) := by
      have happend := opened?_append hplain hopened more
      rw [List.cons_append] at happend
      simp only [stretches, List.cons_append, scan, happend]
    rw [hscan] at ih
    rw [hmore, shown_cons, ih _ (by rw [List.length_cons] at hopening; omega) Place.ready_inside,
      shown_cons _ found, dropping_cons _ found, List.append_assoc]
  | case4 run c cs hopened ih =>
    cases hmore : opened? tags (c :: (cs ++ more)) with
    | none =>
      have hstep : stretches tags 0 (.outside run) (c :: cs ++ more) =
          stretches tags 0 (.outside (c :: run)) (cs ++ more) := by
        simp only [stretches, List.cons_append, scan, hmore]
      rw [hstep]
      exact ih drop (Nat.zero_le _) (hready.next hmore)
    | some t =>
      -- the tag is only begun here: the rest is read as it is, and scanned again when more comes
      have hlong : opened? tags (c :: cs ++ more) = some t := hmore
      have hbegins := of_opened?_append hopened hlong
      rw [← resume_outside (c :: cs) (hready run rfl).2, scan_of_not_mem (not_mem_of_begins hplain hbegins).2.1,
        List.reverse_cons, List.append_assoc]
      rfl
  | case5 t body c cs hclose found place hscan ih =>
    have hmore : stretches tags 0 (.inside t body) (c :: cs ++ more) =
        .reasoning ((c :: body).drop t.closing.length).reverse :: stretches tags 0 (.outside []) (cs ++ more) := by
      simp only [stretches, List.cons_append, scan, hclose, if_true]
    rw [hscan] at ih
    rw [hmore, shown_cons, ih _ (Nat.zero_le _) (Place.ready_start (.outside []) _), shown_cons _ found,
      dropping_cons _ found, List.append_assoc]
  | case6 t body c cs hclose ih =>
    have hstep : stretches tags 0 (.inside t body) (c :: cs ++ more) =
        stretches tags 0 (.inside t (c :: body)) (cs ++ more) := by
      simp only [stretches, List.cons_append, scan, if_neg hclose]
    rw [hstep]
    exact ih drop (Nat.zero_le _) Place.ready_inside

/-- No tag opens in the run in which a scan ends. -/
theorem unopened_of_scan (skip : Nat) (place : Place) (text : List Char) (hready : place.Ready tags skip text) :
    ∀ run, (scan tags skip place text).2 = .outside run → Unopened tags run.reverse [] := by
  fun_induction scan tags skip place text with
  | case1 skip place => exact fun run heq => (hready run heq).2
  | case2 skip place c cs ih => exact ih (hready.skip cs)
  | case3 run c cs t hopened found place hscan ih =>
    rw [hscan] at ih
    exact ih Place.ready_inside
  | case4 run c cs hopened ih => exact ih (hready.next hopened)
  | case5 t body c cs hclose found place hscan ih =>
    rw [hscan] at ih
    exact ih (Place.ready_start (.outside []) _)
  | case6 t body c cs hclose ih => exact ih Place.ready_inside

/-- What is given out of a run is visible in any case, and what is held back is scanned again. -/
theorem resume_undecided (hplain : Plain tags) {run : List Char} (h : Unopened tags run.reverse []) :
    ∃ safe, run.reverse = safe ++ undecided tags run ∧ ∀ drop more,
      resume tags drop (.outside run) more = shown drop [.visible safe] ++
        resume tags (dropping drop [.visible safe]) (.outside (undecided tags run).reverse) more := by
  obtain ⟨safe, hsafe, hdead⟩ := undecided_split hplain run
  refine ⟨safe, hsafe, fun drop more => ?_⟩
  -- a tag that opens before what is held back would have begun in the run, but none begins there
  have hunopened : Unopened tags safe (undecided tags run ++ more) := by
    intro rest hrest hne
    rw [← List.append_assoc]
    by_contra hopens
    obtain ⟨t, ht⟩ := Option.ne_none_iff_exists'.1 hopens
    have hnow : opened? tags (rest ++ undecided tags run) = none := by
      have hsuffix : rest ++ undecided tags run <:+ run.reverse := by
        rw [hsafe]
        exact (List.suffix_append_inj_of_length_eq rfl).2 ⟨hrest, rfl⟩
      simpa using h _ hsuffix (by simp [hne])
    exact hdead rest hrest hne (of_opened?_append hnow ht)
  have hscan := scan_unopened hunopened []
  rw [List.append_nil] at hscan
  have hagain : stretches tags 0 (.outside []) (run.reverse ++ more) =
      stretches tags 0 (.outside safe.reverse) (undecided tags run ++ more) := by
    rw [hsafe, List.append_assoc]
    simp only [stretches, hscan]
  have hbefore := shown_stretches_append tags (undecided tags run ++ more) [] safe.reverse drop
  rw [List.nil_append, List.reverse_reverse] at hbefore
  simp only [resume, Place.start, Place.held, List.reverse_reverse, hagain, hbefore]
  exact shown_cons ..

/-! ## The scanner -/

namespace Scanner

variable {s : Scanner}

/-- Nothing is held back in which a tag opens. -/
def Settled (s : Scanner) : Prop := ∀ run, s.place = .outside run → Unopened s.tags run.reverse []

/-- What a scanner shows when `text` is all that comes. -/
def remaining (s : Scanner) (text : List Char) : List Mark := resume s.tags s.dropBlanks s.place text

theorem push_eq (s : Scanner) (text : String) :
    s.push text = match scan s.tags 0 s.place.start (s.place.held ++ text.toList) with
      | (found, .outside run) =>
        let held := undecided s.tags run
        let safe := run.reverse.take (run.length - held.length)
        ((segments s.dropBlanks (found ++ [.visible safe])).1,
          { s with place := .outside held.reverse, dropBlanks := dropping s.dropBlanks (found ++ [.visible safe]) })
      | (found, place) =>
        ((segments s.dropBlanks found).1, { s with place, dropBlanks := dropping s.dropBlanks found }) := by
  unfold push
  cases s.place with
  | outside run =>
    simp only [Place.start, Place.held]
    rcases scan s.tags 0 (.outside []) (run.reverse ++ text.toList) with ⟨found, place⟩
    cases place <;> rfl
  | inside t body =>
    simp only [Place.start, Place.held]
    rcases scan s.tags 0 (.inside t body) ([] ++ text.toList) with ⟨found, place⟩
    cases place <;> rfl

theorem push_tags (s : Scanner) (text : String) : (s.push text).2.tags = s.tags := by
  rw [push_eq]
  rcases scan s.tags 0 s.place.start (s.place.held ++ text.toList) with ⟨found, _ | _⟩ <;> rfl

theorem settled_push (hplain : Plain s.tags) (text : String) : (s.push text).2.Settled := by
  rw [push_eq]
  have hruns : ∀ run, (scan s.tags 0 s.place.start (s.place.held ++ text.toList)).2 = .outside run →
      Unopened s.tags run.reverse [] := unopened_of_scan _ _ _ (Place.ready_start _ _)
  rcases hscan : scan s.tags 0 s.place.start (s.place.held ++ text.toList) with ⟨found, place⟩
  rw [hscan] at hruns
  cases place with
  | inside => exact nofun
  | outside run =>
    obtain ⟨safe, hsafe, -⟩ := undecided_split hplain run
    rintro held heq
    cases heq
    rw [List.reverse_reverse]
    exact (hruns run rfl).suffix ⟨safe, hsafe.symm⟩

/-- What a push gives out, followed by what is shown later, is what the longer text shows. -/
theorem remaining_push (hplain : Plain s.tags) (text : String) (more : List Char) :
    s.remaining (text.toList ++ more) = marks (s.push text).1 ++ (s.push text).2.remaining more := by
  have happend := shown_scan_append hplain more 0 s.place.start (s.place.held ++ text.toList) s.dropBlanks
    (Nat.zero_le _) (Place.ready_start _ _)
  have hruns : ∀ run, (scan s.tags 0 s.place.start (s.place.held ++ text.toList)).2 = .outside run →
      Unopened s.tags run.reverse [] := unopened_of_scan _ _ _ (Place.ready_start _ _)
  rw [remaining, resume, ← List.append_assoc, happend, push_eq]
  rcases hscan : scan s.tags 0 s.place.start (s.place.held ++ text.toList) with ⟨found, place⟩
  rw [hscan] at hruns
  cases place with
  | inside => rfl
  | outside run =>
    obtain ⟨safe, hsafe, hresume⟩ := resume_undecided hplain (hruns run rfl)
    have htake : run.reverse.take (run.length - (undecided s.tags run).length) = safe := by
      simpa using take_of_append hsafe
    simp only [htake]
    rw [hresume, ← List.append_assoc, ← shown_append, ← dropping_append]
    rfl

/-- The end of the text shows what nothing more shows. -/
theorem remaining_nil (h : s.Settled) : s.remaining [] = marks s.finish.1 := by
  rw [remaining]
  unfold finish
  cases hplace : s.place with
  | outside run =>
    exact resume_outside [] (h run hplace) s.dropBlanks
  | inside t body =>
    show marks (segments s.dropBlanks [.reasoning (withoutCut t body)]).1 = _
    simp only [segments]

end Scanner

end ModelStream.InlineTag
