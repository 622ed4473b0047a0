/-
The reasoning blocks of a stream that are still open, in the order of their keys, and the keys of
those that have ended. A block that ends with text does so once, and its metadata then holds that
text; a block without text ends silently and may begin anew.
-/
import ModelStream.Event
import ModelStream.Text.Blank

namespace ModelStream

structure ReasoningBlock where
  text : String := ""
  metadata : Json.Fields := []

structure ReasoningBoard where
  blocks : List (ReasoningKey × ReasoningBlock) := []
  ended : List ReasoningKey := []

namespace ReasoningBoard

def isOpen (b : ReasoningBoard) (key : ReasoningKey) : Bool := Ordered.has b.blocks key

def hasEnded (b : ReasoningBoard) (key : ReasoningKey) : Bool := b.ended.contains key

/-- Changes the block of a key, which is empty at first. -/
def update (b : ReasoningBoard) (key : ReasoningKey) (change : ReasoningBlock → ReasoningBlock) :
    ReasoningBoard :=
  { b with blocks := Ordered.put key (change ((Ordered.get? b.blocks key).getD {})) b.blocks }

/-- Opens a block and supplies metadata that it does not have yet. -/
def begin (b : ReasoningBoard) (key : ReasoningKey) (seed : Json.Fields) : ReasoningBoard :=
  b.update key fun block => { block with metadata := block.metadata.supply seed }

/-- Adds a segment without the blanks around it, unless it is blank or the block has ended. -/
def push (b : ReasoningBoard) (key : ReasoningKey) (segment : String) : Option Event × ReasoningBoard :=
  let text := Text.trimmed segment
  if text.isEmpty || b.hasEnded key then (none, b)
  else (some (.reasoning text key), b.update key fun block => { block with text := block.text ++ text })

/-- Appends to a metadata field; what is no string there is replaced. -/
def appendMetadata (b : ReasoningBoard) (key : ReasoningKey) (field fragment : String) : ReasoningBoard :=
  b.update key fun block =>
    let before := ((Ordered.get? block.metadata field).bind Json.str?).getD ""
    { block with metadata := Ordered.put field (.str (before ++ fragment)) block.metadata }

/-- Ends the block of a key. The fields of `payload` overlay its metadata, and the field `text` is
always the text of the block. -/
def finish (b : ReasoningBoard) (key : ReasoningKey) (payload : Json.Fields) : Option Event × ReasoningBoard :=
  if b.hasEnded key then (none, b)
  else match Ordered.get? b.blocks key with
  | none => (none, b)
  | some block =>
    let b := { b with blocks := Ordered.erase b.blocks key }
    if block.text.isEmpty then (none, b)
    else
      let metadata := Ordered.put "text" (.str block.text) (block.metadata.overlay payload)
      (some (.reasoningEnd block.text metadata), { b with ended := key :: b.ended })

/-- Ends the blocks of these keys in turn. -/
def finishAll : List ReasoningKey → ReasoningBoard → List Event × ReasoningBoard
  | [], b => ([], b)
  | key :: keys, b =>
    let (event, b) := b.finish key []
    let (events, b) := finishAll keys b
    (event.toList ++ events, b)

/-- Ends all open blocks in key order. -/
def flush (b : ReasoningBoard) : List Event × ReasoningBoard := finishAll (b.blocks.map (·.1)) b

end ReasoningBoard

end ModelStream
