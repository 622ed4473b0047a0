/-
The chunks of a chat stream. Every field may be missing or null.
-/
import ModelStream.Json.Reading

namespace ModelStream.Chat

open Json Json.Reader

/-- A piece of a function's name and argument text. -/
structure FunctionDelta where
  name : Option String := none
  arguments : Option String := none

/-- A piece of a call. The index tells calls apart; a piece without one belongs to the call at its own place. -/
structure CallDelta where
  index : Option Nat := none
  id : Option String := none
  function : Option FunctionDelta := none

/-- What a choice adds. Reasoning has a field of its own under one of two names. -/
structure Delta where
  content : Option String := none
  reasoningContent : Option String := none
  reasoning : Option String := none
  toolCalls : Option (List CallDelta) := none
  /-- The single function call of older servers. -/
  functionCall : Option FunctionDelta := none

structure Choice where
  delta : Option Delta := none
  finishReason : Option String := none

structure Chunk where
  id : Option String := none
  choices : Option (List Choice) := none
  usage : Option Fields := none
  error : Option Json := none

def FunctionDelta.reader : Reader FunctionDelta := record
  [ field "name" .never (nullable text) fun d x => { d with name := x },
    field "arguments" .never (nullable text) fun d x => { d with arguments := x }] {}

def CallDelta.reader : Reader CallDelta := record
  [ field "index" .never (nullable (natural 64)) fun d x => { d with index := x },
    field "id" .never (nullable text) fun d x => { d with id := x },
    field "function" .never (nullable FunctionDelta.reader) fun d x => { d with function := x }] {}

def Delta.reader : Reader Delta := record
  [ field "content" .never (nullable text) fun d x => { d with content := x },
    field "reasoning_content" .never (nullable text) fun d x => { d with reasoningContent := x },
    field "reasoning" .never (nullable text) fun d x => { d with reasoning := x },
    field "tool_calls" .never (nullable (listOf CallDelta.reader)) fun d x => { d with toolCalls := x },
    field "function_call" .never (nullable FunctionDelta.reader) fun d x => { d with functionCall := x }] {}

def Choice.reader : Reader Choice := record
  [ field "delta" .never (nullable Delta.reader) fun c x => { c with delta := x },
    field "finish_reason" .never (nullable text) fun c x => { c with finishReason := x }] {}

def Chunk.reader : Reader Chunk := record
  [ field "id" .never (nullable text) fun c x => { c with id := x },
    field "choices" .never (nullable (listOf Choice.reader)) fun c x => { c with choices := x },
    field "usage" .never (nullable fields) fun c x => { c with usage := x },
    field "error" .never (nullable any) fun c x => { c with error := x }] {}

/-- The chunk that a payload spells. -/
def Chunk.ofText (payload : String) : Except Problem Chunk := Reader.ofText Chunk.reader payload

end ModelStream.Chat
