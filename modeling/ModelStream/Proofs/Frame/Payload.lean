/-
The frame that is written around a payload. A payload of one line, written after the name of a data field and
ended by the delimiter of the framing, is read as that payload by an empty buffer, which is empty again then
(`FrameBuffer.push_written`).
-/
import ModelStream.Proofs.Frame.Lines

namespace ModelStream

open Text

/-- What ends a frame. -/
def Framing.delimiter : Framing → String
  | .lines | .jsonLines => "\n"
  | .blocks => "\n\n"

/-- The bytes of the frame with this payload. -/
def Framing.write (framing : Framing) (payload : String) : Bytes :=
  bytesOf ("data: " ++ payload ++ framing.delimiter)

namespace Frame

/-- A payload that is one line, with no blank at its end. -/
structure OneLine (payload : String) : Prop where
  noReturn : '\r' ∉ payload.toList
  noFeed : '\n' ∉ payload.toList
  shown : blank payload = false
  trimmed : trimEnd payload.toList = payload.toList

theorem OneLine.ne_nil {payload : String} (h : OneLine payload) : payload.toList ≠ [] := by
  intro hnil
  have hshown := h.shown
  rw [blank, hnil] at hshown
  cases hshown

/-- The data field with this payload is one line. -/
theorem OneLine.field {payload : String} (h : OneLine payload) :
    '\r' ∉ "data: ".toList ++ payload.toList ∧ '\n' ∉ "data: ".toList ++ payload.toList := by
  have hreturn := h.noReturn
  have hfeed := h.noFeed
  simp [hreturn, hfeed]

/-! ## Cutting -/

theorem joinLineEnds_eq_self {text : List Char} (h : '\r' ∉ text) : joinLineEnds text = text := by
  induction text using joinLineEnds.induct with
  | case1 cs ih => exact absurd (List.mem_cons_self ..) h
  | case2 c cs hne ih =>
    rw [joinLineEnds]
    · rw [ih fun hc => h (List.mem_cons_of_mem _ hc)]
    · exact hne
  | case3 => rfl

/-- Text without a line feed joins the block under way. -/
theorem cutBlocks_line {line : List Char} (h : '\n' ∉ line) (piece b : List Char) :
    cutBlocks piece (line ++ b) = cutBlocks (line.reverse ++ piece) b := by
  induction line generalizing piece with
  | nil => rfl
  | cons c line ih =>
    simp only [List.mem_cons, not_or] at h
    rw [List.cons_append, cutBlocks]
    · rw [ih h.2, List.reverse_cons, List.append_assoc, List.singleton_append]
    · exact fun cs hc => absurd hc.symm h.1

theorem splitLines_line {line : List Char} (h : '\n' ∉ line) : splitLines line = [line] := by
  induction line with
  | nil => rfl
  | cons c line ih =>
    simp only [List.mem_cons, not_or] at h
    have hc : (c == '\n') = false := by simpa using Ne.symm h.1
    simp [splitLines, hc, ih h.2]

/-- A line and its delimiter are one piece. -/
theorem cut_line (framing : Framing) {line : List Char} (hreturn : '\r' ∉ line) (hfeed : '\n' ∉ line) :
    cut framing (joinLineEnds (line ++ framing.delimiter.toList)) = ([line], []) := by
  have hdelimited : '\r' ∉ line ++ framing.delimiter.toList := by
    cases framing <;> simp [Framing.delimiter, hreturn]
  rw [joinLineEnds_eq_self hdelimited]
  cases framing with
  | lines | jsonLines =>
    show cutLines [] (line ++ ['\n']) = _
    rw [cutLines_line hfeed]
    simp [cutLines]
  | blocks =>
    show cutBlocks [] (line ++ ['\n', '\n']) = _
    rw [cutBlocks_line hfeed]
    simp [cutBlocks]

/-! ## Reading -/

theorem dataField?_data (value : List Char) : dataField? ("data: ".toList ++ value) = some (trimEnd value) := by
  simp [dataField?]

theorem payload?_data (framing : Framing) {payload : String} (h : OneLine payload) :
    payload? framing ("data: ".toList ++ payload.toList) = some payload.toList := by
  have hfield : dataField? ("data: ".toList ++ payload.toList) = some payload.toList := by
    rw [dataField?_data, h.trimmed]
  have hfeed := h.field.2
  have hshown : payload.toList.all isBlank = false := h.shown
  generalize "data: ".toList ++ payload.toList = line at *
  cases framing with
  | lines => simp [payload?, hfield, h.ne_nil]
  | jsonLines => simp [payload?, hfield, h.ne_nil]
  | blocks =>
    have hfields : (splitLines line).filterMap dataField? = [payload.toList] := by
      simp [splitLines_line hfeed, hfield]
    simp only [payload?, hfields, List.intercalate_singleton, hshown, Bool.false_eq_true, if_false]

theorem ofPayload_of_ne {payload : String} (h : trim payload.toList ≠ sentinel) :
    ofPayload payload.toList = .data payload := by
  have hne : (trim payload.toList == sentinel) = false := by simpa using h
  simp [ofPayload, hne]

end Frame

/-- The frame of a payload is read as that payload. -/
theorem FrameBuffer.push_written (framing : Framing) {payload : String} (h : Frame.OneLine payload)
    (hdata : trim payload.toList ≠ Frame.sentinel) :
    ({} : FrameBuffer).push framing (framing.write payload) = ([.data payload], {}) := by
  have hcut := Frame.cut_line framing h.field.1 h.field.2
  have hread : Utf8.push [] (framing.write payload) =
      (("data: ".toList ++ payload.toList) ++ framing.delimiter.toList, []) := by
    rw [Framing.write, Utf8.push_bytesOf, String.toList_append, String.toList_append]
  have hpiece : Frame.ofPiece? framing ("data: ".toList ++ payload.toList) = some (.data payload) := by
    rw [Frame.ofPiece?, Frame.payload?_data framing h, Option.map_some, Frame.ofPayload_of_ne hdata]
  simp only [push, hread, List.nil_append, hcut, List.filterMap_cons, hpiece, List.filterMap_nil]

end ModelStream
