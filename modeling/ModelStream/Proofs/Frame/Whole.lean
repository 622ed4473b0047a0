/-
Framing by lines, at once. However a byte string is cut into chunks, its frames are those of the lines of its
text (`Frame.ofBytes`, `FrameBuffer.frames_ofBytes`). The text has one replacement for each longest piece that
is no character, and nothing yet for a character that is unfinished at its end; a line is what a line feed ends,
without one carriage return right before it. A reader that has come to the end of a stream reads another as a
new one does.
-/
import ModelStream.Proofs.Frame.Blocks
import ModelStream.Proofs.Text.Lossy

namespace ModelStream

open Text

namespace Frame

/-- The lines of a text that a line feed ends, each without a carriage return right before it. -/
def endedLines (text : List Char) : List (List Char) := (text.splitOn '\n').dropLast.map chomp

def ofBytes (framing : Framing) (bytes : Bytes) : List Frame :=
  (endedLines (Utf8.settled bytes)).filterMap (ofPiece? framing)

/-- Cutting lines is splitting at line feeds; the line under way goes before the first of them. -/
theorem cutLines_eq_splitOn (text piece : List Char) :
    (cutLines piece text).1 ++ [(cutLines piece text).2] = (text.splitOn '\n').modifyHead (piece.reverse ++ ·) := by
  induction text generalizing piece with
  | nil => simp [cutLines]
  | cons c text ih =>
    rw [cutLines, List.splitOn_cons_eq_if_modifyHead]
    split
    · have hrest := ih []
      rw [List.cons_append, hrest]
      cases text.splitOn '\n' <;> simp
    · rw [ih]
      cases text.splitOn '\n' <;> simp

theorem cutLines_fst (text : List Char) : (cutLines [] text).1 = (text.splitOn '\n').dropLast := by
  have hsplit := cutLines_eq_splitOn text []
  have hhead : (text.splitOn '\n').modifyHead (([] : List Char).reverse ++ ·) = text.splitOn '\n' := by
    cases text.splitOn '\n' <;> rfl
  rw [← hhead, ← hsplit, List.dropLast_concat]

end Frame

namespace FrameBuffer

theorem push_ofBytes {framing : Framing} (h : framing ≠ .blocks) (bytes : Bytes) :
    (({} : FrameBuffer).push framing bytes).1 = Frame.ofBytes framing bytes := by
  rw [push_lines h, Utf8.push_eq]
  show ((Frame.cutLines [] (Utf8.settled bytes)).1.map Frame.chomp).filterMap (Frame.ofPiece? framing) = _
  rw [Frame.cutLines_fst]
  rfl

/-- Chunks give the frames of the lines of all their bytes; and after the end of the stream a reader is as new. -/
theorem frames_ofBytes {framing : Framing} (h : framing ≠ .blocks) (chunks : List Bytes) :
    (({} : FrameBuffer).pushAll framing chunks).1 = Frame.ofBytes framing chunks.flatten ∧
      ∀ more, (({} : FrameBuffer).pushAll framing chunks).2.finish.pushAll framing more =
        ({} : FrameBuffer).pushAll framing more := by
  refine ⟨?_, fun more => by rw [finish_eq]⟩
  rw [pushAll_flatten h chunks (by simp), push_ofBytes h]

/-- Two bytes of a character before a carriage return, a return cut from its line feed, and an unfinished
character at the end. -/
theorem frames_ofBytes_cut :
    let chunks := [bytesOf "data: a" ++ [0xE2], [0x82] ++ bytesOf "\r\r", bytesOf "\ndata: [DONE]\n\x7b", [0xC3]]
    Framing.jsonLines ≠ .blocks ∧ (({} : FrameBuffer).pushAll .jsonLines chunks).1 = Frame.ofBytes .jsonLines chunks.flatten ∧
      Frame.ofBytes .jsonLines chunks.flatten = [.data "a\uFFFD", .done] := by
  intro chunks
  have hlines : Framing.jsonLines ≠ .blocks := by decide
  exact ⟨hlines, (frames_ofBytes hlines chunks).1, by decide +kernel⟩

end FrameBuffer

end ModelStream
