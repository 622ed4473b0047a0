/-
Framing by blocks, chunk by chunk. A text is its lines, each ended by a line feed, and what is left after the
last one; an empty line ends the block of the lines before it (`Frame.group`). Line ends are joined again over
the text that a buffer keeps whenever a chunk comes, and each time a line under way loses one carriage return
at its end. Such returns are no part of a payload, and they keep a line from being empty only where a line has
nothing but returns. So the frames of a text in which no line is made of several returns do not depend on where
it is cut into chunks (`FrameBuffer.frames_blocks`, `FrameBuffer.blocks_eq_of_flatten_eq`).
-/
import Mathlib.Data.List.DropRight
import ModelStream.Proofs.Frame.Payload

namespace ModelStream

open Text

variable {text rest line : List Char} {lines more block : List (List Char)}

namespace Frame

/-! ## Lines -/

/-- Lines, each ended by a line feed. -/
def lined (lines : List (List Char)) : List Char := lines.flatMap (· ++ ['\n'])

@[simp] theorem lined_nil : lined [] = [] := rfl

theorem lined_cons (line : List Char) (more : List (List Char)) : lined (line :: more) = line ++ '\n' :: lined more := by
  simp [lined]

theorem lined_append (lines more : List (List Char)) : lined (lines ++ more) = lined lines ++ lined more := by
  simp [lined]

/-- A text is its lines and what is left after them. -/
theorem lined_cutLines (text piece : List Char) :
    lined (cutLines piece text).1 ++ (cutLines piece text).2 = piece.reverse ++ text := by
  induction text generalizing piece with
  | nil => simp [cutLines]
  | cons c text ih =>
    rw [cutLines]
    split
    · next hc =>
      have hfeed : c = '\n' := by simpa using hc
      simp [lined_cons, ih, hfeed]
    · rw [ih]
      simp

/-- Lines are cut where they were joined. -/
theorem cutLines_lined (h : ∀ line ∈ lines, '\n' ∉ line) (rest : List Char) :
    cutLines [] (lined lines ++ rest) = (lines ++ (cutLines [] rest).1, (cutLines [] rest).2) := by
  induction lines with
  | nil => rfl
  | cons line more ih =>
    have hline := h line (List.mem_cons_self ..)
    rw [lined_cons, List.append_assoc, List.cons_append, cutLines_line hline, cutLines, if_pos (beq_self_eq_true _),
      ih fun other hother => h other (List.mem_cons_of_mem _ hother)]
    simp

theorem cutLines_of_not_mem (h : '\n' ∉ text) : cutLines [] text = ([], text) := by
  have hline := cutLines_line h [] []
  simpa [cutLines] using hline

theorem not_mem_of_mem_cutLines (text : List Char) {piece : List Char} (h : '\n' ∉ piece) :
    ∀ line ∈ (cutLines piece text).1, '\n' ∉ line := by
  induction text generalizing piece with
  | nil => simp [cutLines]
  | cons c text ih =>
    rw [cutLines]
    split
    · intro line hline
      rcases List.mem_cons.1 hline with rfl | hline
      · simpa using h
      · exact ih (by simp) line hline
    · next hc =>
      have hne : c ≠ '\n' := by simpa using hc
      exact ih (by simp [Ne.symm hne, h])

/-! ## Blocks of lines -/

/-- The blocks of lines and the lines after the last block, when the lines `block` stand before them. -/
def group (block : List (List Char)) : List (List Char) → List (List (List Char)) × List (List Char)
  | [] => ([], block)
  | line :: more =>
    if line = [] ∧ block ≠ [] then (block :: (group [] more).1, (group [] more).2)
    else group (block ++ [line]) more

theorem group_append (lines more block : List (List Char)) :
    group block (lines ++ more) = ((group block lines).1 ++ (group (group block lines).2 more).1,
      (group (group block lines).2 more).2) := by
  induction lines generalizing block with
  | nil => simp [group]
  | cons line lines ih =>
    rw [List.cons_append, group, group]
    split
    · simp [ih]
    · exact ih _

/-- Lines that a block begins with: only the first of them may be empty. -/
def Begun (block : List (List Char)) : Prop := ∀ line ∈ block.tail, line ≠ []

theorem Begun.concat (h : Begun block) (hline : ¬ (line = [] ∧ block ≠ [])) : Begun (block ++ [line]) := by
  cases block with
  | nil => exact nofun
  | cons first block =>
    intro other hother
    rcases List.mem_append.1 hother with hother | hother
    · exact h other hother
    · rw [List.mem_singleton.1 hother]
      exact fun hnil => hline ⟨hnil, List.cons_ne_nil _ _⟩

theorem begun_group (lines : List (List Char)) (h : Begun block) : Begun (group block lines).2 := by
  induction lines generalizing block with
  | nil => exact h
  | cons line lines ih =>
    rw [group]
    split
    · exact ih nofun
    · next hline => exact ih (h.concat hline)

/-- The lines that a block begins with are grouped again as they are. -/
theorem group_begun (h : Begun block) (more : List (List Char)) : group [] (block ++ more) = group block more := by
  -- the lines of the block join it one by one, since none of them ends it
  have joins : ∀ later before : List (List Char), (∀ line ∈ later, line ≠ []) →
      group before (later ++ more) = group (before ++ later) more := by
    intro later
    induction later with
    | nil => simp
    | cons line later ih =>
      intro before hlater
      have hline := hlater line (List.mem_cons_self ..)
      rw [List.cons_append, group, if_neg fun hnil => hline hnil.1,
        ih _ fun other hother => hlater other (List.mem_cons_of_mem _ hother)]
      simp
  cases block with
  | nil => rfl
  | cons first later =>
    rw [List.cons_append, group, if_neg (by simp), List.nil_append]
    exact joins later [first] h

/-- The lines of a block, and those after the last block, are lines that were there. -/
theorem mem_of_mem_group (lines : List (List Char)) {found : List (List Char)}
    (h : found ∈ (group block lines).1 ∨ found = (group block lines).2) (hline : line ∈ found) :
    line ∈ block ∨ line ∈ lines := by
  induction lines generalizing block with
  | nil =>
    rcases h with h | rfl
    · cases h
    · exact .inl hline
  | cons next lines ih =>
    rw [group] at h
    split at h
    · have hcases : found = block ∨ found ∈ (group [] lines).1 ∨ found = (group [] lines).2 := by
        simpa [or_assoc] using h
      rcases hcases with rfl | h
      · exact .inl hline
      · exact (ih h).elim nofun fun hmem => .inr (List.mem_cons_of_mem _ hmem)
    · rcases ih h with hblock | hmem
      · rcases List.mem_append.1 hblock with hblock | hnext
        · exact .inl hblock
        · exact .inr (List.mem_singleton.1 hnext ▸ List.mem_cons_self ..)
      · exact .inr (List.mem_cons_of_mem _ hmem)

/-- A change to lines that empties none of them leaves the blocks where they are. -/
theorem group_map {change : List Char → List Char} (hnil : change [] = []) (lines block : List (List Char))
    (h : ∀ line ∈ lines, change line = [] → line = []) :
    group (block.map change) (lines.map change) =
      ((group block lines).1.map (·.map change), (group block lines).2.map change) := by
  induction lines generalizing block with
  | nil => rfl
  | cons line lines ih =>
    have hmore : ∀ other ∈ lines, change other = [] → other = [] := fun other hother =>
      h other (List.mem_cons_of_mem _ hother)
    have hline : change line = [] ↔ line = [] :=
      ⟨h line (List.mem_cons_self ..), fun heq => heq ▸ hnil⟩
    have hends : (change line = [] ∧ block.map change ≠ []) ↔ (line = [] ∧ block ≠ []) := by
      simp [hline]
    rw [List.map_cons, group, group]
    simp only [hends]
    split
    · have hrest := ih [] hmore
      rw [List.map_nil] at hrest
      rw [hrest]
      rfl
    · have hrest := ih (block ++ [line]) hmore
      rwa [List.map_append, List.map_singleton] at hrest

/-! ## Cutting blocks -/

theorem intercalate_concat (block : List (List Char)) (line : List Char) :
    ['\n'].intercalate (block ++ [line]) = lined block ++ line := by
  induction block with
  | nil => simp
  | cons first block ih =>
    rw [List.cons_append, List.intercalate_cons_of_ne_nil (by simp), ih, lined_cons]
    simp

/-- A text is cut into the blocks of its lines. The lines `block` have been read of the block under way. -/
theorem cutBlocks_lined (hrest : '\n' ∉ rest) : ∀ lines block : List (List Char), (∀ line ∈ lines, '\n' ∉ line) →
    (lines.head? = some [] → block = []) →
    cutBlocks (lined block).reverse (lined lines ++ rest) =
      ((group block lines).1.map ['\n'].intercalate, lined (group block lines).2 ++ rest)
  | [], block, _, _ => by
    have hcut := cutBlocks_line hrest (lined block).reverse []
    simpa [group, cutBlocks] using hcut
  | [line], block, hlines, hfirst => by
    have hline := hlines line (by simp)
    have hgroup : group block [line] = ([], block ++ [line]) := by
      rw [group, if_neg fun hends => hends.2 (hfirst (by simp [hends.1]))]
      rfl
    have hfeed : ∀ piece, cutBlocks piece ('\n' :: rest) = cutBlocks ('\n' :: piece) rest := by
      intro piece
      rw [cutBlocks]
      rintro cs - rfl
      exact hrest (by simp)
    have hcut := cutBlocks_line hrest ('\n' :: (line.reverse ++ (lined block).reverse)) []
    rw [List.append_nil] at hcut
    rw [lined_cons, List.append_assoc, cutBlocks_line hline, List.cons_append, lined_nil, List.nil_append, hfeed, hcut,
      hgroup]
    simp [cutBlocks, lined_append, lined_cons]
  | line :: [] :: more, block, hlines, hfirst => by
    have hline := hlines line (by simp)
    have hgroup : group block (line :: [] :: more) =
        ((block ++ [line]) :: (group [] more).1, (group [] more).2) := by
      rw [group, if_neg fun hends => hends.2 (hfirst (by simp [hends.1])), group, if_pos (by simp)]
    have hmore := cutBlocks_lined hrest more [] (fun other hother => hlines other (by simp [hother])) fun _ => rfl
    rw [lined_nil, List.reverse_nil] at hmore
    rw [lined_cons, lined_cons, List.append_assoc, cutBlocks_line hline, List.nil_append, List.cons_append,
      List.cons_append, cutBlocks, hmore, hgroup]
    simp [intercalate_concat]
  | line :: (c :: next) :: more, block, hlines, hfirst => by
    have hline := hlines line (by simp)
    have hc : c ≠ '\n' := fun heq => hlines (c :: next) (by simp) (by simp [heq])
    have hgroup : group block (line :: (c :: next) :: more) = group (block ++ [line]) ((c :: next) :: more) := by
      rw [group, if_neg fun hends => hends.2 (hfirst (by simp [hends.1]))]
    have hmore := cutBlocks_lined hrest ((c :: next) :: more) (block ++ [line])
      (fun other hother => hlines other (List.mem_cons_of_mem _ hother)) (by simp)
    rw [hgroup, ← hmore, lined_cons, List.append_assoc, cutBlocks_line hline, List.cons_append]
    have hfeed : ∀ piece, cutBlocks piece ('\n' :: (lined ((c :: next) :: more) ++ rest)) =
        cutBlocks ('\n' :: piece) (lined ((c :: next) :: more) ++ rest) := by
      intro piece
      rw [cutBlocks]
      rintro cs - heq
      rw [lined_cons, List.cons_append, List.cons_append] at heq
      exact hc (List.cons.inj heq).1
    rw [hfeed]
    simp [lined_append, lined_cons]

/-! ## Carriage returns -/

/-- A line without the carriage returns at its end. -/
def bare (line : List Char) : List Char := line.rdropWhile (· == '\r')

@[simp] theorem bare_nil : bare [] = [] := rfl

theorem bare_concat (line : List Char) (c : Char) : bare (line ++ [c]) = if c = '\r' then bare line else line ++ [c] := by
  simp [bare, List.rdropWhile_concat]

theorem bare_chomp (line : List Char) : bare (chomp line) = bare line := by
  rcases line.eq_nil_or_concat' with rfl | ⟨line, c, rfl⟩
  · rfl
  · by_cases hc : c = '\r' <;> simp [chomp, bare_concat, hc]

theorem bare_eq_self {line : List Char} (h : '\r' ∉ line) : bare line = line := by
  rcases line.eq_nil_or_concat' with rfl | ⟨line, c, rfl⟩
  · rfl
  · rw [bare_concat, if_neg]
    rintro rfl
    exact h (by simp)

theorem mem_of_mem_bare {c : Char} (h : c ∈ bare line) : c ∈ line := (List.rdropWhile_prefix _ line).subset h

theorem bare_eq_nil_iff : bare line = [] ↔ ∀ c ∈ line, c = '\r' := by
  simp [bare, List.rdropWhile_eq_nil_iff]

/-- No line of the text is made of several carriage returns. -/
def Regular (text : List Char) : Prop := ∀ line ∈ (cutLines [] text).1, (∀ c ∈ line, c = '\r') → line.length ≤ 1

instance (text : List Char) : Decidable (Regular text) :=
  -- only the characters of a line are gone through
  have (line : List Char) : Decidable (∀ c ∈ line, c = '\r') := List.decidableBAll (· = '\r') line
  inferInstanceAs (Decidable (∀ line ∈ (cutLines [] text).1, (∀ c ∈ line, c = '\r') → line.length ≤ 1))

/-- A line that is empty without its returns is empty without one. -/
theorem chomp_eq_nil (h : (∀ c ∈ line, c = '\r') → line.length ≤ 1) (hbare : bare line = []) : chomp line = [] := by
  have hreturns := bare_eq_nil_iff.1 hbare
  rcases line with _ | ⟨c, _ | ⟨d, line⟩⟩
  · rfl
  · simp [chomp, hreturns c (by simp)]
  · have hlength := h hreturns
    simp at hlength

theorem mem_of_mem_chomp {c : Char} (h : c ∈ chomp line) : c ∈ line := by
  unfold chomp at h
  split at h
  · exact List.dropLast_subset _ h
  · exact h

/-- Joining line ends takes a return off each line. -/
theorem joinLineEnds_eq (text : List Char) :
    joinLineEnds text = lined ((cutLines [] text).1.map chomp) ++ (cutLines [] text).2 := by
  have hlines := lined_cutLines (joinLineEnds text) []
  rw [cutLines_joinLineEnds text [] (by simp)] at hlines
  exact hlines.symm

/-! ## Frames of blocks -/

theorem splitLines_eq_splitOn (text : List Char) : splitLines text = text.splitOn '\n' := by
  induction text with
  | nil => rfl
  | cons c text ih =>
    rw [splitLines, List.splitOn_cons_eq_if_modifyHead, ih]
    split
    · rfl
    · cases h : text.splitOn '\n' with
      | nil => exact (List.splitOn_ne_nil _ _ h).elim
      | cons line more => rfl

theorem trimEnd_concat_return (value : List Char) : trimEnd (value ++ ['\r']) = trimEnd value :=
  List.rdropWhile_concat_pos _ _ _ (by decide)

/-- A carriage return at the end of a line is no part of its data field. -/
theorem dataField?_concat_return (line : List Char) : dataField? (line ++ ['\r']) = dataField? line := by
  have hname : "data:".toList.isPrefixOf (line ++ ['\r']) = "data:".toList.isPrefixOf line := by
    rw [Bool.eq_iff_iff, List.isPrefixOf_iff_prefix, List.isPrefixOf_iff_prefix, List.prefix_concat_iff, or_iff_right]
    intro heq
    have hlast := congrArg List.getLast? heq
    simp at hlast
  unfold dataField?
  rw [hname]
  split
  · next hdata =>
    obtain ⟨value, rfl⟩ := List.isPrefixOf_iff_prefix.1 hdata
    have hdrop : ∀ value : List Char, ("data:".toList ++ value).drop 5 = value := fun _ => rfl
    rw [List.append_assoc, hdrop, hdrop]
    rcases value with _ | ⟨c, value⟩
    · rfl
    · by_cases hc : c = ' '
      · subst hc
        exact congrArg some (trimEnd_concat_return value)
      · simp only [List.cons_append]
        split
        · next heq => exact (hc (List.cons.inj heq).1).elim
        · split
          · next heq => exact (hc (List.cons.inj heq).1).elim
          · exact congrArg some (trimEnd_concat_return (c :: value))
  · rfl

theorem dataField?_bare (line : List Char) : dataField? (bare line) = dataField? line := by
  induction line using List.reverseRecOn with
  | nil => rfl
  | append_singleton line c ih =>
    rw [bare_concat]
    split
    · next hc => rw [ih, hc, dataField?_concat_return]
    · rfl

/-- The frame of the block with these lines. -/
def ofLines? (block : List (List Char)) : Option Frame := ofPiece? .blocks (['\n'].intercalate block)

/-- The data fields of the lines of a block are joined. -/
theorem ofLines?_eq (h : ∀ line ∈ block, '\n' ∉ line) :
    ofLines? block =
      let joined := ['\n'].intercalate (block.filterMap dataField?)
      if joined.all isBlank then none else some (ofPayload joined) := by
  have hfields : (splitLines (['\n'].intercalate block)).filterMap dataField? = block.filterMap dataField? := by
    rw [splitLines_eq_splitOn]
    rcases eq_or_ne block [] with rfl | hne
    · rfl
    · rw [List.splitOn_intercalate _ h hne]
  simp only [ofLines?, ofPiece?, payload?, hfields]
  split <;> rfl

theorem ofLines?_bare (h : ∀ line ∈ block, '\n' ∉ line) : ofLines? (block.map bare) = ofLines? block := by
  have hbare : ∀ line ∈ block.map bare, '\n' ∉ line := by
    intro line hline hmem
    obtain ⟨whole, hwhole, rfl⟩ := List.mem_map.1 hline
    exact h whole hwhole (mem_of_mem_bare hmem)
  have hfields : (block.map bare).filterMap dataField? = block.filterMap dataField? := by
    rw [List.filterMap_map]
    exact List.filterMap_congr fun line _ => dataField?_bare line
  rw [ofLines?_eq h, ofLines?_eq hbare, hfields]

/-- The frames of the blocks of these lines, when the lines `block` stand before them. -/
def ofBlocks (block lines : List (List Char)) : List Frame := (group block lines).1.filterMap ofLines?

theorem ofBlocks_append (block lines more : List (List Char)) :
    ofBlocks block (lines ++ more) = ofBlocks block lines ++ ofBlocks (group block lines).2 more := by
  rw [ofBlocks, group_append, List.filterMap_append]
  rfl

end Frame

/-! ## Chunks of a buffer -/

namespace FrameBuffer

open ModelStream.Frame

/-- Lines that a buffer keeps: the block under way, in which no line has nothing but carriage returns. -/
structure Kept (lines : List (List Char)) : Prop where
  noFeed : ∀ line ∈ lines, '\n' ∉ line
  begun : Begun lines
  shown : ∀ line ∈ lines, bare line = [] → line = []

theorem Kept.begun_bare (h : Kept lines) : Begun (lines.map bare) := by
  intro line hline
  rw [← List.map_tail] at hline
  obtain ⟨whole, hwhole, rfl⟩ := List.mem_map.1 hline
  exact fun hnil => h.begun whole hwhole (h.shown whole (List.mem_of_mem_tail hwhole) hnil)

/-- Lines that come are grouped with those kept, and what they leave is kept. With or without the returns at
the ends of lines the blocks are the same. -/
theorem Kept.group_chomp (h : Kept lines) (hfeed : ∀ line ∈ more, '\n' ∉ line)
    (hregular : ∀ line ∈ more, (∀ c ∈ line, c = '\r') → line.length ≤ 1) :
    let found := group [] ((lines ++ more).map chomp)
    Kept found.2 ∧ (group (lines.map bare) (more.map bare)).2 = found.2.map bare ∧
      ofBlocks (lines.map bare) (more.map bare) = found.1.filterMap ofLines? := by
  intro found
  have hjoined : ∀ line ∈ (lines ++ more).map chomp, '\n' ∉ line ∧ (bare line = [] → line = []) := by
    intro line hline
    obtain ⟨whole, hwhole, rfl⟩ := List.mem_map.1 hline
    rw [bare_chomp]
    rcases List.mem_append.1 hwhole with hwhole | hwhole
    · exact ⟨fun hmem => h.noFeed whole hwhole (mem_of_mem_chomp hmem), fun hnil => by
        rw [h.shown whole hwhole hnil]; rfl⟩
    · exact ⟨fun hmem => hfeed whole hwhole (mem_of_mem_chomp hmem), chomp_eq_nil (hregular whole hwhole)⟩
  have hmem : ∀ block, block ∈ found.1 ∨ block = found.2 → ∀ line ∈ block, line ∈ (lines ++ more).map chomp :=
    fun block hblock line hline => (mem_of_mem_group _ hblock hline).resolve_left nofun
  have hbare : group (lines.map bare) (more.map bare) = (found.1.map (·.map bare), found.2.map bare) := by
    have hmap := group_map bare_nil ((lines ++ more).map chomp) [] fun line hline => (hjoined line hline).2
    have hchomped : ((lines ++ more).map chomp).map bare = lines.map bare ++ more.map bare := by
      simp [Function.comp_def, bare_chomp]
    rwa [List.map_nil, hchomped, group_begun h.begun_bare] at hmap
  refine ⟨⟨fun line hline => ?_, begun_group _ nofun, fun line hline => ?_⟩, by rw [hbare], ?_⟩
  · exact (hjoined line (hmem _ (.inr rfl) line hline)).1
  · exact (hjoined line (hmem _ (.inr rfl) line hline)).2
  · rw [ofBlocks, hbare, List.filterMap_map]
    refine List.filterMap_congr fun block hblock => ofLines?_bare fun line hline => ?_
    exact (hjoined line (hmem block (.inl hblock) line hline)).1

/-- What a chunk adds to the lines kept. -/
theorem push_blocks {buffer : FrameBuffer} (hlines : ∀ line ∈ lines, '\n' ∉ line)
    (htext : buffer.text = lined lines ++ rest) (chunk : Bytes) :
    buffer.push .blocks chunk =
      let read := Utf8.push buffer.bytes chunk
      let new := cutLines [] (rest ++ read.1)
      let found := group [] ((lines ++ new.1).map chomp)
      (found.1.filterMap ofLines?, { bytes := read.2, text := lined found.2 ++ new.2 }) := by
  simp only [push, cut]
  generalize Utf8.push buffer.bytes chunk = read
  have hjoined : joinLineEnds (buffer.text ++ read.1) =
      lined ((lines ++ (cutLines [] (rest ++ read.1)).1).map chomp) ++ (cutLines [] (rest ++ read.1)).2 := by
    rw [joinLineEnds_eq, htext, List.append_assoc, cutLines_lined hlines]
  have hnew : '\n' ∉ (cutLines [] (rest ++ read.1)).2 := not_mem_cutLines _ (by simp)
  have hall : ∀ line ∈ (lines ++ (cutLines [] (rest ++ read.1)).1).map chomp, '\n' ∉ line := by
    intro line hline hmem
    obtain ⟨whole, hwhole, rfl⟩ := List.mem_map.1 hline
    have hfeed := mem_of_mem_chomp hmem
    rcases List.mem_append.1 hwhole with hwhole | hwhole
    · exact hlines whole hwhole hfeed
    · exact not_mem_of_mem_cutLines _ (by simp) whole hwhole hfeed
  have hcut := cutBlocks_lined hnew _ [] hall fun _ => rfl
  rw [lined_nil, List.reverse_nil, ← hjoined] at hcut
  simp only [hcut, List.filterMap_map]
  rfl

/-- Chunks give the frames of the blocks of all lines, each taken without the returns at its end. -/
theorem frames_pushAll (chunks : List Bytes) {buffer : FrameBuffer} {lines : List (List Char)} {rest : List Char}
    (hlines : Kept lines) (htext : buffer.text = lined lines ++ rest) (hrest : '\n' ∉ rest)
    (hregular : Regular (rest ++ (Utf8.push buffer.bytes chunks.flatten).1)) :
    (buffer.pushAll .blocks chunks).1 = ofBlocks (lines.map bare)
      ((cutLines [] (rest ++ (Utf8.push buffer.bytes chunks.flatten).1)).1.map bare) := by
  induction chunks generalizing buffer lines rest with
  | nil =>
    simp only [List.flatten_nil, Utf8.push_nil, List.append_nil, cutLines_of_not_mem hrest]
    rfl
  | cons chunk more ih =>
    have hstep := push_blocks hlines.noFeed htext chunk
    rw [Regular] at hregular
    simp only [List.flatten_cons, Utf8.push_append, ← List.append_assoc,
      cutLines_append (rest ++ _) _ (List.not_mem_nil (a := '\n'))] at hregular hstep ⊢
    generalize Utf8.push buffer.bytes chunk = read at *
    have hfeed := not_mem_of_mem_cutLines (rest ++ read.1) (List.not_mem_nil (a := '\n'))
    have hnew : '\n' ∉ (cutLines [] (rest ++ read.1)).2 := not_mem_cutLines _ (by simp)
    generalize cutLines [] (rest ++ read.1) = new at *
    obtain ⟨hkept, hbare, hframes⟩ := hlines.group_chomp hfeed fun line hline =>
      hregular line (List.mem_append_left _ hline)
    have hlater := ih hkept (congrArg (·.2.text) hstep) hnew (by
      rw [hstep]
      exact fun line hline => hregular line (List.mem_append_right _ hline))
    rw [List.map_append, ofBlocks_append, hbare, hframes]
    simp only [hstep] at hlater
    simp only [pushAll, hstep, hlater]

/-- The frames of a text in which no line is made of several carriage returns are those of the blocks of its
lines. -/
theorem frames_blocks (chunks : List Bytes) (hregular : Regular (Utf8.push [] chunks.flatten).1) :
    (({} : FrameBuffer).pushAll .blocks chunks).1 =
      ofBlocks [] ((cutLines [] (Utf8.push [] chunks.flatten).1).1.map bare) := by
  have hnone : Kept [] := ⟨nofun, nofun, nofun⟩
  exact frames_pushAll chunks hnone rfl (by simp) hregular

/-- Where a text is cut into chunks does not matter to its blocks, unless it has a line that is made of several
carriage returns. -/
theorem blocks_eq_of_flatten_eq {xs ys : List Bytes} (h : xs.flatten = ys.flatten)
    (hregular : Regular (Utf8.push [] xs.flatten).1) :
    (({} : FrameBuffer).pushAll .blocks xs).1 = (({} : FrameBuffer).pushAll .blocks ys).1 := by
  rw [frames_blocks xs hregular, frames_blocks ys (h ▸ hregular), h]

/-- Two returns end a line that has more, and one return an empty line; the cut parts each from its line feed. -/
theorem blocks_eq_of_flatten_eq_returns :
    let xs := [bytesOf "data: a\r", bytesOf "\r\n\r", [], bytesOf "\ndata: b\n\n"]
    let ys := [bytesOf "data: a\r\r\n\r\ndata: b\n\n"]
    xs.flatten = ys.flatten ∧ Regular (Utf8.push [] xs.flatten).1 ∧
      (({} : FrameBuffer).pushAll .blocks xs).1 = (({} : FrameBuffer).pushAll .blocks ys).1 := by
  intro xs ys
  have hflatten : xs.flatten = ys.flatten := by decide +kernel
  have hregular : Regular (Utf8.push [] xs.flatten).1 := by decide +kernel
  exact ⟨hflatten, hregular, blocks_eq_of_flatten_eq hflatten hregular⟩

/-- A line of two returns is an empty line once another chunk has come, and ends a block then. -/
theorem blocks_differ_after_returns : ¬ ∀ xs ys : List Bytes, xs.flatten = ys.flatten →
    (({} : FrameBuffer).pushAll .blocks xs).1 = (({} : FrameBuffer).pushAll .blocks ys).1 := by
  intro h
  have hframes := h [bytesOf "data: a\n\r\r\n", bytesOf "data: b\n\n"] [bytesOf "data: a\n\r\r\ndata: b\n\n"]
    (by decide +kernel)
  revert hframes
  decide +kernel

end FrameBuffer

end ModelStream
