/-
Frames: the payloads of an event stream, cut out of its bytes. Three framings differ in what ends a
frame and in which lines carry a payload. The buffer keeps the bytes of an incomplete character and
the text after the last delimiter, so a stream may be cut into chunks anywhere.
-/
import ModelStream.Text.Blank
import ModelStream.Text.Utf8

namespace ModelStream

open Text

/-- How a backend delimits its frames. -/
inductive Framing
  /-- A frame is a line; only a data field carries a payload. -/
  | lines
  /-- A frame is a line; a data field carries a payload, and so does a line that opens an object. -/
  | jsonLines
  /-- A frame is a block that ends at an empty line; its data fields are joined by line feeds. -/
  | blocks
  deriving Repr, DecidableEq

inductive Frame
  | data (payload : String)
  /-- The payload that ends a stream without a closing event. -/
  | done
  deriving Repr, DecidableEq

namespace Frame

/-- The payload that stands for `Frame.done`. -/
def sentinel : List Char := "[DONE]".toList

/-! ## Payloads -/

/-- The value of a data field: what follows its name and one optional space, without the blanks at
its end. -/
def dataField? (line : List Char) : Option (List Char) :=
  if "data:".toList.isPrefixOf line then
    match line.drop 5 with
    | ' ' :: value => some (trimEnd value)
    | value => some (trimEnd value)
  else none

def splitLines : List Char → List (List Char)
  | [] => [[]]
  | c :: cs =>
    if c == '\n' then [] :: splitLines cs
    else match splitLines cs with
      | [] => [[c]]
      | line :: rest => (c :: line) :: rest

/-- The payload of one delimited piece of text, if it carries one. -/
def payload? : Framing → List Char → Option (List Char)
  | .lines, line => (dataField? line).filter (! ·.isEmpty)
  | .jsonLines, line =>
    match dataField? line with
    | some value => if value.isEmpty then none else some value
    | none =>
      match trim line with
      | '{' :: rest => some ('{' :: rest)
      | _ => none
  | .blocks, block =>
    let joined := ['\n'].intercalate ((splitLines block).filterMap dataField?)
    if joined.all isBlank then none else some joined

def ofPayload (payload : List Char) : Frame :=
  if trim payload == sentinel then .done else .data (String.ofList payload)

def ofPiece? (framing : Framing) (piece : List Char) : Option Frame :=
  (payload? framing piece).map ofPayload

/-! ## Cutting text -/

/-- Each carriage return before a line feed dropped. -/
def joinLineEnds : List Char → List Char
  | '\r' :: '\n' :: cs => '\n' :: joinLineEnds cs
  | c :: cs => c :: joinLineEnds cs
  | [] => []

/-- The pieces that line feeds end, and the text after the last one; `piece` holds the characters
of the current piece, the last one first. -/
def cutLines (piece : List Char) : List Char → List (List Char) × List Char
  | [] => ([], piece.reverse)
  | c :: cs =>
    if c == '\n' then
      let (pieces, rest) := cutLines [] cs
      (piece.reverse :: pieces, rest)
    else cutLines (c :: piece) cs

/-- The pieces that pairs of line feeds end, and the text after the last one. -/
def cutBlocks (piece : List Char) : List Char → List (List Char) × List Char
  | '\n' :: '\n' :: cs =>
    let (pieces, rest) := cutBlocks [] cs
    (piece.reverse :: pieces, rest)
  | c :: cs => cutBlocks (c :: piece) cs
  | [] => ([], piece.reverse)

def cut : Framing → List Char → List (List Char) × List Char
  | .blocks => cutBlocks []
  | _ => cutLines []

end Frame

/-! ## The buffer -/

/-- What a stream cut into frames leaves undecided: the bytes of an incomplete character and the
text that no delimiter has ended. -/
structure FrameBuffer where
  bytes : Bytes := []
  text : List Char := []
  deriving Repr, DecidableEq

namespace FrameBuffer

/-- Adds a chunk and takes out the frames it completes. Line ends are joined over the whole text
that was kept, so a carriage return at the end of one chunk meets the line feed of the next. -/
def push (framing : Framing) (buffer : FrameBuffer) (chunk : Bytes) : List Frame × FrameBuffer :=
  let (cs, bytes) := Utf8.push buffer.bytes chunk
  let (pieces, text) := Frame.cut framing (Frame.joinLineEnds (buffer.text ++ cs))
  (pieces.filterMap (Frame.ofPiece? framing), { bytes, text })

/-- The end of the stream: what no delimiter ended is never a frame. -/
def finish (buffer : FrameBuffer) : FrameBuffer :=
  let tail : FrameBuffer := { bytes := [], text := buffer.text ++ Utf8.finish buffer.bytes }
  { tail with text := [] }

end FrameBuffer

end ModelStream
