/-
Framing by lines, chunk by chunk. Joining line ends takes one carriage return off the end of each line
and changes nothing else, so what a buffer keeps is the text after the last line feed as it came. Bytes
read as UTF-8 in two pieces give the characters of both, so a buffer that takes in one chunk after the
other gives the frames of both and keeps what both leave.
-/
import ModelStream.Frame
import ModelStream.Proofs.Text.Utf8

namespace ModelStream

open Text

/-! ## Cutting lines -/

namespace Frame

/-- A line without the carriage return at its end. -/
def chomp (line : List Char) : List Char := if line.getLast? = some '\r' then line.dropLast else line

theorem chomp_concat (line : List Char) : chomp (line ++ ['\r']) = line := by simp [chomp]

theorem chomp_reverse {piece : List Char} (h : piece.head? ≠ some '\r') : chomp piece.reverse = piece.reverse := by
  simp [chomp, h]

/-- Joining line ends first is taking a carriage return off each line afterwards. The line under way
may itself end in a carriage return, as long as no line feed follows it. -/
theorem cutLines_joinLineEnds (text piece : List Char) (h : piece.head? = some '\r' → text.head? ≠ some '\n') :
    cutLines piece (joinLineEnds text) = ((cutLines piece text).1.map chomp, (cutLines piece text).2) := by
  induction text using joinLineEnds.induct generalizing piece with
  | case1 cs ih =>
    have hcr : (('\r' : Char) == '\n') = false := by decide
    rw [joinLineEnds]
    simp only [cutLines, beq_self_eq_true, hcr, if_true, Bool.false_eq_true, if_false, List.map_cons]
    rw [ih [] (by simp), List.reverse_cons, chomp_concat]
  | case2 c cs hne ih =>
    rw [joinLineEnds]
    · by_cases hc : c = '\n'
      · subst hc
        have hp : piece.head? ≠ some '\r' := fun hp => h hp rfl
        simp only [cutLines, beq_self_eq_true, if_true, List.map_cons]
        rw [ih [] (by simp), chomp_reverse hp]
      · have hc' : (c == '\n') = false := by simpa using hc
        simp only [cutLines, hc', Bool.false_eq_true, if_false]
        refine ih (c :: piece) fun hr => ?_
        simp only [List.head?_cons, Option.some.injEq] at hr
        cases cs with
        | nil => simp
        | cons x cs =>
          rintro hx
          simp only [List.head?_cons, Option.some.injEq] at hx
          exact hne cs hr (by rw [hx])
    · exact hne
  | case3 => simp [joinLineEnds, cutLines]

/-- Text without a line feed joins the line under way. -/
theorem cutLines_line {line : List Char} (h : '\n' ∉ line) (piece b : List Char) :
    cutLines piece (line ++ b) = cutLines (line.reverse ++ piece) b := by
  induction line generalizing piece with
  | nil => rfl
  | cons c line ih =>
    simp only [List.mem_cons, not_or] at h
    have hc : (c == '\n') = false := by simpa using Ne.symm h.1
    rw [List.cons_append, cutLines]
    simp only [hc, Bool.false_eq_true, if_false]
    rw [ih h.2, List.reverse_cons, List.append_assoc, List.singleton_append]

theorem not_mem_cutLines (text : List Char) {piece : List Char} (h : '\n' ∉ piece) :
    '\n' ∉ (cutLines piece text).2 := by
  induction text generalizing piece with
  | nil => simpa [cutLines] using h
  | cons c text ih =>
    rw [cutLines]
    split
    · exact ih (by simp)
    · next hc =>
      have hc' : c ≠ '\n' := by simpa using hc
      exact ih (by simp [Ne.symm hc', h])

/-- A text that goes on: what its first part leaves belongs to the second. -/
theorem cutLines_append (a b : List Char) {piece : List Char} (h : '\n' ∉ piece) :
    cutLines piece (a ++ b) =
      ((cutLines piece a).1 ++ (cutLines [] ((cutLines piece a).2 ++ b)).1,
        (cutLines [] ((cutLines piece a).2 ++ b)).2) := by
  induction a generalizing piece with
  | nil =>
    have hr : '\n' ∉ piece.reverse := by simpa using h
    simp only [List.nil_append, cutLines]
    rw [cutLines_line hr]
    simp
  | cons c a ih =>
    rw [List.cons_append, cutLines, cutLines]
    split
    · rw [ih (by simp)]
      simp
    · next hc =>
      have hc' : c ≠ '\n' := by simpa using hc
      exact ih (by simp [Ne.symm hc', h])

theorem cut_of_ne_blocks {framing : Framing} (h : framing ≠ .blocks) (text : List Char) :
    cut framing (joinLineEnds text) = ((cutLines [] text).1.map chomp, (cutLines [] text).2) := by
  rw [← cutLines_joinLineEnds text [] (by simp)]
  cases framing with
  | lines => rfl
  | jsonLines => rfl
  | blocks => exact absurd rfl h

end Frame

/-! ## Chunks of a buffer -/

namespace FrameBuffer

/-- Adds chunks in turn: the frames of all of them, and the buffer after the last. -/
def pushAll (framing : Framing) (buffer : FrameBuffer) : List Bytes → List Frame × FrameBuffer
  | [] => ([], buffer)
  | chunk :: more =>
    let (frames, buffer) := buffer.push framing chunk
    let (later, buffer) := buffer.pushAll framing more
    (frames ++ later, buffer)

/-- Whatever is kept, with the text that its last bytes stand for, is dropped at the end. -/
@[simp] theorem finish_eq (buffer : FrameBuffer) : buffer.finish = {} := rfl

variable {framing : Framing} (hf : framing ≠ .blocks)

include hf

/-- The frames and the buffer after a chunk, with the text cut before its line ends are joined. -/
theorem push_lines (buffer : FrameBuffer) (chunk : Bytes) :
    buffer.push framing chunk =
      let read := Utf8.push buffer.bytes chunk
      let lines := Frame.cutLines [] (buffer.text ++ read.1)
      ((lines.1.map Frame.chomp).filterMap (Frame.ofPiece? framing), { bytes := read.2, text := lines.2 }) := by
  simp only [push, Frame.cut_of_ne_blocks hf]

theorem not_mem_push (buffer : FrameBuffer) (chunk : Bytes) : '\n' ∉ (buffer.push framing chunk).2.text := by
  rw [push_lines hf]
  exact Frame.not_mem_cutLines _ (by simp)

theorem push_empty {buffer : FrameBuffer} (h : '\n' ∉ buffer.text) : buffer.push framing [] = ([], buffer) := by
  have hcut : Frame.cutLines [] buffer.text = ([], buffer.text) := by
    have := Frame.cutLines_line h [] []
    simpa [Frame.cutLines] using this
  rw [push_lines hf]
  simp [hcut]

/-- Two chunks in turn are one chunk. -/
theorem push_append (buffer : FrameBuffer) (a b : Bytes) :
    buffer.push framing (a ++ b) =
      let first := buffer.push framing a
      (first.1 ++ (first.2.push framing b).1, (first.2.push framing b).2) := by
  simp only [push_lines hf, Utf8.push_append]
  rw [← List.append_assoc, Frame.cutLines_append _ _ (by simp)]
  simp

theorem pushAll_flatten (chunks : List Bytes) {buffer : FrameBuffer} (h : '\n' ∉ buffer.text) :
    buffer.pushAll framing chunks = buffer.push framing chunks.flatten := by
  induction chunks generalizing buffer with
  | nil => exact (push_empty hf h).symm
  | cons chunk more ih =>
    have hmore := ih (not_mem_push hf buffer chunk)
    rw [List.flatten_cons, push_append hf]
    simp only [pushAll, hmore]

end FrameBuffer

end ModelStream
