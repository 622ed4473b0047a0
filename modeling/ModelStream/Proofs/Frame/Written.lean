/-
Reading undoes writing. A writer puts each line of a payload into a data field, with any lines of other kinds
before it, and ends the frame; however the bytes of such frames are cut into chunks, a buffer gives back the
payloads, in order and nothing else (`FrameBuffer.frames_written`).
-/
import ModelStream.Proofs.Frame.Blocks

namespace ModelStream

open Text

/-! ## Writing -/

/-- A frame as it is written. -/
structure Written where
  payload : String
  /-- Lines of other kinds before each line of the payload, as far as there are any. -/
  noise : List (List String) := []
  /-- An empty line follows also where the framing does not ask for one. -/
  spaced : Bool := false
  deriving Repr, DecidableEq

namespace Written

/-- The data fields of these lines, each after its noise. -/
def fields : List (List String) → List (List Char) → List (List Char)
  | _, [] => []
  | noise, line :: more => (noise.headD []).map String.toList ++ ("data: ".toList ++ line) :: fields noise.tail more

/-- The lines of a frame. -/
def lines (framing : Framing) (w : Written) : List (List Char) :=
  fields w.noise (w.payload.toList.splitOn '\n') ++ if framing = .blocks ∨ w.spaced then [[]] else []

/-- A line that carries no payload and ends no block. -/
structure Idle (framing : Framing) (line : String) : Prop where
  shown : line ≠ ""
  noReturn : '\r' ∉ line.toList
  noFeed : '\n' ∉ line.toList
  noField : ¬ "data:".toList <+: line.toList
  noObject : framing = .jsonLines → (trim line.toList).head? ≠ some '{'

instance (framing : Framing) (line : String) : Decidable (Idle framing line) :=
  decidable_of_iff
    (line ≠ "" ∧ '\r' ∉ line.toList ∧ '\n' ∉ line.toList ∧ ¬ "data:".toList <+: line.toList ∧
      (framing = .jsonLines → (trim line.toList).head? ≠ some '{'))
    ⟨fun ⟨hshown, hreturn, hfeed, hfield, hobject⟩ => ⟨hshown, hreturn, hfeed, hfield, hobject⟩,
      fun h => ⟨h.shown, h.noReturn, h.noFeed, h.noField, h.noObject⟩⟩

/-- The payload is one that the framing can carry, and the lines between carry none. -/
structure Fits (framing : Framing) (w : Written) : Prop where
  noReturn : '\r' ∉ w.payload.toList
  trimmed : ∀ line ∈ w.payload.toList.splitOn '\n', trimEnd line = line
  shown : blank w.payload = false
  single : framing ≠ .blocks → '\n' ∉ w.payload.toList
  idle : ∀ lines ∈ w.noise, ∀ line ∈ lines, Idle framing line

instance (framing : Framing) (w : Written) : Decidable (w.Fits framing) :=
  decidable_of_iff
    ('\r' ∉ w.payload.toList ∧ (∀ line ∈ w.payload.toList.splitOn '\n', trimEnd line = line) ∧
      blank w.payload = false ∧ (framing ≠ .blocks → '\n' ∉ w.payload.toList) ∧
      ∀ lines ∈ w.noise, ∀ line ∈ lines, Idle framing line)
    ⟨fun ⟨hreturn, htrimmed, hshown, hsingle, hidle⟩ => ⟨hreturn, htrimmed, hshown, hsingle, hidle⟩,
      fun h => ⟨h.noReturn, h.trimmed, h.shown, h.single, h.idle⟩⟩

end Written

/-- The bytes of frames, one after the other. -/
def Framing.writeAll (framing : Framing) (frames : List Written) : Bytes :=
  bytesOf (String.ofList (Frame.lined (frames.flatMap (·.lines framing))))

/-! ## Lines of a payload -/

namespace Frame

variable {text line : List Char} {block more : List (List Char)}

theorem of_mem_splitOn (h : line ∈ text.splitOn '\n') : '\n' ∉ line ∧ line ⊆ text := by
  induction text generalizing line with
  | nil =>
    rw [List.splitOn_nil, List.mem_singleton] at h
    subst h
    exact ⟨List.not_mem_nil, List.nil_subset _⟩
  | cons c text ih =>
    rw [List.splitOn_cons_eq_if_modifyHead] at h
    have hlater : ∀ other ∈ text.splitOn '\n', '\n' ∉ other ∧ other ⊆ c :: text := fun other hother =>
      ⟨(ih hother).1, List.subset_cons_of_subset c (ih hother).2⟩
    split at h
    · rcases List.mem_cons.1 h with rfl | h
      · exact ⟨List.not_mem_nil, List.nil_subset _⟩
      · exact hlater line h
    · next hc =>
      have hne : '\n' ≠ c := fun heq => hc (beq_iff_eq.2 heq.symm)
      cases hsplit : text.splitOn '\n' with
      | nil => exact (List.splitOn_ne_nil _ _ hsplit).elim
      | cons first more =>
        rw [hsplit, List.modifyHead_cons] at h
        rcases List.mem_cons.1 h with rfl | h
        · obtain ⟨hfeed, hsubset⟩ := ih (hsplit ▸ List.mem_cons_self ..)
          exact ⟨fun hmem => (List.mem_cons.1 hmem).elim hne hfeed, List.cons_subset_cons c hsubset⟩
        · exact hlater line (hsplit ▸ List.mem_cons_of_mem _ h)

/-- Lines that are not empty, and then an empty line, are one block. -/
theorem ofBlocks_block (hblock : block ≠ []) (h : ∀ line ∈ block, line ≠ []) (more : List (List Char)) :
    ofBlocks [] (block ++ [] :: more) = (ofLines? block).toList ++ ofBlocks [] more := by
  have hbegun : Begun block := fun line hline => h line (List.mem_of_mem_tail hline)
  rw [ofBlocks, group_begun hbegun, group, if_pos ⟨rfl, hblock⟩]
  cases hframe : ofLines? block <;> simp [hframe, ofBlocks]

theorem regular_lined {lines : List (List Char)} (h : ∀ line ∈ lines, '\r' ∉ line ∧ '\n' ∉ line) :
    Regular (lined lines) := by
  have hcut := cutLines_lined (fun line hline => (h line hline).2) []
  rw [List.append_nil] at hcut
  intro line hline hreturns
  rw [hcut, cutLines, List.append_nil] at hline
  cases line with
  | nil => exact Nat.zero_le _
  | cons c line =>
    have hc := hreturns c (List.mem_cons_self ..)
    exact ((h _ hline).1 (by simp [hc])).elim

theorem chomp_eq_self (h : '\r' ∉ line) : chomp line = line :=
  if_neg fun hlast => h (List.mem_of_getLast? hlast)

end Frame

/-! ## Lines that are written -/

namespace Written

open ModelStream.Frame

variable {framing : Framing} {w : Written} {line : List Char}

/-- A line of a frame is one of the lines between, or holds a line of the payload. -/
theorem mem_fields {noise : List (List String)} {values : List (List Char)} (h : line ∈ fields noise values) :
    (∃ before ∈ noise, ∃ other ∈ before, line = other.toList) ∨ ∃ value ∈ values, line = "data: ".toList ++ value := by
  induction values generalizing noise with
  | nil => cases h
  | cons value values ih =>
    rw [fields] at h
    rcases List.mem_append.1 h with h | h
    · obtain ⟨other, hother, rfl⟩ := List.mem_map.1 h
      cases noise with
      | nil => cases hother
      | cons before noise => exact .inl ⟨before, List.mem_cons_self .., other, hother, rfl⟩
    · rcases List.mem_cons.1 h with rfl | h
      · exact .inr ⟨value, List.mem_cons_self .., rfl⟩
      · rcases ih h with ⟨before, hbefore, hline⟩ | ⟨value, hvalue, hline⟩
        · exact .inl ⟨before, List.mem_of_mem_tail hbefore, hline⟩
        · exact .inr ⟨value, List.mem_cons_of_mem _ hvalue, hline⟩

theorem Idle.dataField? {line : String} (h : Idle framing line) : dataField? line.toList = none := by
  have hname : "data:".toList.isPrefixOf line.toList = false := by
    rw [Bool.eq_false_iff, ne_eq, List.isPrefixOf_iff_prefix]
    exact h.noField
  rw [Frame.dataField?, hname]
  rfl

/-- A line that no framing by lines reads. -/
theorem Idle.ofPiece? {line : String} (h : Idle framing line) (hf : framing ≠ .blocks) :
    ofPiece? framing line.toList = none := by
  have hfield := h.dataField?
  have hobject := h.noObject
  rw [Frame.ofPiece?, Option.map_eq_none_iff]
  cases framing with
  | lines => simp [payload?, hfield]
  | jsonLines =>
    simp only [payload?, hfield]
    split
    · next rest htrim => simp [htrim] at hobject
    · rfl
  | blocks => exact (hf rfl).elim

/-- The data fields among the lines of a frame. -/
theorem filterMap_fields (values : List (List Char)) {noise : List (List String)}
    (hidle : ∀ before ∈ noise, ∀ line ∈ before, Idle framing line) (htrimmed : ∀ value ∈ values, trimEnd value = value) :
    (fields noise values).filterMap dataField? = values := by
  induction values generalizing noise with
  | nil => rfl
  | cons value values ih =>
    have hnone : ((noise.headD []).map String.toList).filterMap dataField? = [] := by
      refine List.filterMap_eq_nil_iff.2 fun line hline => ?_
      obtain ⟨other, hother, rfl⟩ := List.mem_map.1 hline
      cases noise with
      | nil => cases hother
      | cons before noise => exact (hidle before (List.mem_cons_self ..) other hother).dataField?
    have hmore := ih (fun before hbefore => hidle before (List.mem_of_mem_tail hbefore)) fun other hother =>
      htrimmed other (List.mem_cons_of_mem _ hother)
    rw [fields, List.filterMap_append, hnone, List.nil_append, List.filterMap_cons, dataField?_data, hmore,
      htrimmed value (List.mem_cons_self ..)]

namespace Fits

theorem of_mem_fields (h : w.Fits framing) (hline : line ∈ fields w.noise (w.payload.toList.splitOn '\n')) :
    line ≠ [] ∧ '\r' ∉ line ∧ '\n' ∉ line := by
  rcases mem_fields hline with ⟨before, hbefore, other, hother, rfl⟩ | ⟨value, hvalue, rfl⟩
  · have hidle := h.idle before hbefore other hother
    refine ⟨fun hnil => hidle.shown ?_, hidle.noReturn, hidle.noFeed⟩
    rwa [String.toList_eq_nil_iff] at hnil
  · obtain ⟨hfeed, hsubset⟩ := of_mem_splitOn hvalue
    have hreturn : '\r' ∉ value := fun hmem => h.noReturn (hsubset hmem)
    exact ⟨by simp, by simp [hreturn], by simp [hfeed]⟩

theorem of_mem_lines (h : w.Fits framing) (hline : line ∈ w.lines framing) : '\r' ∉ line ∧ '\n' ∉ line := by
  rcases List.mem_append.1 hline with hline | hline
  · exact (h.of_mem_fields hline).2
  · have hnil : line = [] := by
      split at hline
      · exact List.mem_singleton.1 hline
      · cases hline
    simp [hnil]

/-- The block of a frame is read as its payload. -/
theorem ofLines?_fields (h : w.Fits .blocks) :
    ofLines? (fields w.noise (w.payload.toList.splitOn '\n')) = some (ofPayload w.payload.toList) := by
  have hshown : w.payload.toList.all isBlank = false := h.shown
  rw [ofLines?_eq fun line hline => (h.of_mem_fields hline).2.2, filterMap_fields _ h.idle h.trimmed,
    List.intercalate_splitOn]
  simp [hshown]

theorem ofBlocks_lines (h : w.Fits .blocks) (more : List (List Char)) :
    ofBlocks [] (w.lines .blocks ++ more) = ofPayload w.payload.toList :: ofBlocks [] more := by
  have hfields : fields w.noise (w.payload.toList.splitOn '\n') ≠ [] := by
    cases hsplit : w.payload.toList.splitOn '\n' with
    | nil => exact (List.splitOn_ne_nil _ _ hsplit).elim
    | cons first rest => simp [fields]
  rw [lines, if_pos (.inl rfl), List.append_assoc, List.singleton_append,
    ofBlocks_block hfields fun line hline => (h.of_mem_fields hline).1, h.ofLines?_fields]
  rfl

theorem oneLine (h : w.Fits framing) (hf : framing ≠ .blocks) : OneLine w.payload := by
  have hsplit : w.payload.toList.splitOn '\n' = [w.payload.toList] := List.splitOn_eq_singleton (h.single hf)
  exact ⟨h.noReturn, h.single hf, h.shown, h.trimmed _ (by simp [hsplit])⟩

/-- Of the lines of a frame one is read, as the payload. -/
theorem filterMap_lines (h : w.Fits framing) (hf : framing ≠ .blocks) :
    (w.lines framing).filterMap (ofPiece? framing) = [ofPayload w.payload.toList] := by
  have hpayload := h.oneLine hf
  have hsplit : w.payload.toList.splitOn '\n' = [w.payload.toList] := List.splitOn_eq_singleton hpayload.noFeed
  have hnoise : ((w.noise.headD []).map String.toList).filterMap (ofPiece? framing) = [] := by
    refine List.filterMap_eq_nil_iff.2 fun line hline => ?_
    obtain ⟨other, hother, rfl⟩ := List.mem_map.1 hline
    have hidle := h.idle
    cases hfirst : w.noise with
    | nil => simp [hfirst] at hother
    | cons before noise =>
      rw [hfirst] at hother hidle
      exact (hidle before (List.mem_cons_self ..) other hother).ofPiece? hf
  have hfield : ofPiece? framing ("data: ".toList ++ w.payload.toList) = some (ofPayload w.payload.toList) := by
    rw [ofPiece?, payload?_data framing hpayload, Option.map_some]
  have hempty : (if framing = .blocks ∨ w.spaced then [[]] else []).filterMap (ofPiece? framing) = [] := by
    have hnone : ofPiece? framing [] = none := by
      cases framing with
      | lines | jsonLines => rfl
      | blocks => exact (hf rfl).elim
    split <;> simp [hnone]
  rw [lines, hsplit, fields, fields, List.filterMap_append, List.filterMap_append, hnoise, List.nil_append,
    List.filterMap_cons, hfield, hempty]
  rfl

end Fits

end Written

/-! ## Reading -/

namespace FrameBuffer

open ModelStream.Frame

theorem ofBlocks_writeAll {frames : List Written} (h : ∀ w ∈ frames, w.Fits .blocks) :
    ofBlocks [] (frames.flatMap (·.lines .blocks)) = frames.map fun w => ofPayload w.payload.toList := by
  induction frames with
  | nil => rfl
  | cons w more ih =>
    rw [List.flatMap_cons, (h w (List.mem_cons_self ..)).ofBlocks_lines,
      ih fun other hother => h other (List.mem_cons_of_mem _ hother)]
    rfl

theorem filterMap_writeAll {framing : Framing} (hf : framing ≠ .blocks) {frames : List Written}
    (h : ∀ w ∈ frames, w.Fits framing) :
    (frames.flatMap (·.lines framing)).filterMap (ofPiece? framing) = frames.map fun w => ofPayload w.payload.toList := by
  induction frames with
  | nil => rfl
  | cons w more ih =>
    rw [List.flatMap_cons, List.filterMap_append, (h w (List.mem_cons_self ..)).filterMap_lines hf,
      ih fun other hother => h other (List.mem_cons_of_mem _ hother)]
    rfl

/-- Frames that are written are read, wherever their bytes are cut. -/
theorem frames_writeAll (framing : Framing) {frames : List Written} (h : ∀ w ∈ frames, w.Fits framing)
    {chunks : List Bytes} (hchunks : chunks.flatten = framing.writeAll frames) :
    (({} : FrameBuffer).pushAll framing chunks).1 = frames.map fun w => ofPayload w.payload.toList := by
  have hlines : ∀ line ∈ frames.flatMap (·.lines framing), '\r' ∉ line ∧ '\n' ∉ line := by
    intro line hline
    obtain ⟨w, hw, hmem⟩ := List.mem_flatMap.1 hline
    exact (h w hw).of_mem_lines hmem
  have hread : Utf8.push [] chunks.flatten = (lined (frames.flatMap (·.lines framing)), []) := by
    rw [hchunks, Framing.writeAll, Utf8.push_bytesOf, String.toList_ofList]
  have hcut : cutLines [] (lined (frames.flatMap (·.lines framing))) = (frames.flatMap (·.lines framing), []) := by
    have hlined := cutLines_lined (fun line hline => (hlines line hline).2) []
    simpa [cutLines] using hlined
  by_cases hf : framing = .blocks
  · subst hf
    have hbare : (frames.flatMap (·.lines .blocks)).map bare = frames.flatMap (·.lines .blocks) := by
      conv_rhs => rw [← List.map_id (frames.flatMap _)]
      exact List.map_congr_left fun line hline => bare_eq_self (hlines line hline).1
    rw [frames_blocks chunks (by rw [hread]; exact regular_lined hlines), hread, hcut, hbare, ofBlocks_writeAll h]
  · have hchomp : (frames.flatMap (·.lines framing)).map chomp = frames.flatMap (·.lines framing) := by
      conv_rhs => rw [← List.map_id (frames.flatMap _)]
      exact List.map_congr_left fun line hline => chomp_eq_self (hlines line hline).1
    rw [pushAll_flatten hf _ (by simp), push_lines hf]
    simp only [hread, List.nil_append, hcut, hchomp, filterMap_writeAll hf h]

/-- What is written is read: payloads give themselves, and the sentinel the end. -/
theorem frames_written (framing : Framing) {frames : List Written} {last : Option Written}
    (hframes : ∀ w ∈ frames, w.Fits framing ∧ trim w.payload.toList ≠ sentinel)
    (hlast : ∀ w ∈ last, w.Fits framing ∧ w.payload = "[DONE]") {chunks : List Bytes}
    (hchunks : chunks.flatten = framing.writeAll (frames ++ last.toList)) :
    (({} : FrameBuffer).pushAll framing chunks).1 =
      (frames.map fun w => .data w.payload) ++ (last.map fun _ => .done).toList := by
  have hfits : ∀ w ∈ frames ++ last.toList, w.Fits framing := by
    intro w hw
    rcases List.mem_append.1 hw with hw | hw
    · exact (hframes w hw).1
    · exact (hlast w (by simpa using hw)).1
  rw [frames_writeAll framing hfits hchunks, List.map_append]
  congr 1
  · exact List.map_congr_left fun w hw => ofPayload_of_ne (hframes w hw).2
  · cases last with
    | none => rfl
    | some w =>
      have hdone : ofPayload w.payload.toList = .done := by
        rw [(hlast w rfl).2]
        decide
      exact congrArg ([·]) hdone

/-- A payload of three lines, the second of which is empty, with lines between them; the first character of the
payload is cut. -/
theorem frames_written_cut :
    let frames : List Written := [{ payload := "é\n\n a", noise := [[": x", " "], [], ["event: y"]] }]
    let last : Option Written := some { payload := "[DONE]", noise := [["id: 1"]] }
    let bytes := Framing.blocks.writeAll (frames ++ last.toList)
    let chunks := [bytes.take 13, [], bytes.drop 13]
    (∀ w ∈ frames, w.Fits .blocks ∧ trim w.payload.toList ≠ sentinel) ∧
      (∀ w ∈ last, w.Fits .blocks ∧ w.payload = "[DONE]") ∧ chunks.flatten = bytes ∧
      (({} : FrameBuffer).pushAll .blocks chunks).1 = [.data "é\n\n a", .done] := by
  intro frames last bytes chunks
  have hframes : ∀ w ∈ frames, w.Fits .blocks ∧ trim w.payload.toList ≠ sentinel := by decide +kernel
  have hlast : ∀ w ∈ last, w.Fits .blocks ∧ w.payload = "[DONE]" := by decide +kernel
  have hchunks : chunks.flatten = bytes := by simp [chunks]
  exact ⟨hframes, hlast, hchunks, frames_written .blocks hframes hlast hchunks⟩

end FrameBuffer

end ModelStream
