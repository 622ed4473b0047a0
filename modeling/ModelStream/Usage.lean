/-
Token counts. Backends report what a generation used as an object of their own making; `ofFields`
reads the names that the three of them use. A count is a word of 32 bits: a reported number that does
not fit stands for the greatest word, and sums of counts wrap around.
-/
import ModelStream.Json.Basic

namespace ModelStream

structure Usage where
  input : UInt32 := 0
  output : UInt32 := 0
  total : UInt32 := 0
  cacheRead : Option UInt32 := none
  cacheCreation : Option UInt32 := none
  reasoning : Option UInt32 := none
  deriving Repr, DecidableEq

namespace Usage

def greatest : Nat := 4294967295

/-- A whole number from zero up, at most the greatest word. -/
def count? (fields : Json.Fields) (name : String) : Option UInt32 :=
  (Ordered.get? fields name).bind fun v => v.nat?.map fun n => UInt32.ofNat (min greatest n)

/-- A count inside an object of details. -/
def detail? (fields : Json.Fields) (outer name : String) : Option UInt32 :=
  (Ordered.get? fields outer).bind fun v => v.fields?.bind (count? · name)

/-- The counts of a reported object. Without a total it is the sum of both ways. -/
def ofFields (fields : Json.Fields) : Usage :=
  let count := count? fields
  let detail := detail? fields
  let input := (count "input_tokens" <|> count "prompt_tokens").getD 0
  let output := (count "output_tokens" <|> count "completion_tokens").getD 0
  { input, output
    total := (count "total_tokens").getD (input + output)
    cacheRead := count "cache_read_input_tokens" <|> detail "input_tokens_details" "cached_tokens" <|>
      detail "prompt_tokens_details" "cached_tokens"
    cacheCreation := count "cache_creation_input_tokens"
    reasoning := detail "output_tokens_details" "reasoning_tokens" <|>
      detail "completion_tokens_details" "reasoning_tokens" }

/-- The sum of two counts of which one or both may be unknown. -/
def addKnown : Option UInt32 → Option UInt32 → Option UInt32
  | a, none => a
  | a, some b => some (a.getD 0 + b)

def add (a b : Usage) : Usage :=
  { input := a.input + b.input
    output := a.output + b.output
    total := a.total + b.total
    cacheRead := addKnown a.cacheRead b.cacheRead
    cacheCreation := addKnown a.cacheCreation b.cacheCreation
    reasoning := addKnown a.reasoning b.reasoning }

instance : Add Usage := ⟨add⟩

def toJson (u : Usage) : Json :=
  let known (name : String) (n : Option UInt32) : List (String × Json) :=
    n.toList.map fun n => (name, Json.ofNat n.toNat)
  Json.object <|
    [("input_tokens", Json.ofNat u.input.toNat), ("output_tokens", Json.ofNat u.output.toNat),
      ("total_tokens", Json.ofNat u.total.toNat)] ++
    known "cache_read_tokens" u.cacheRead ++ known "cache_creation_tokens" u.cacheCreation ++
    known "reasoning_tokens" u.reasoning

end Usage

end ModelStream
