/-
Settings: where the backends are reached, and what decoders are told. They come in layers, each over
the one before: defaults, a file, the environment, and what is set by hand.
-/
import ModelStream.Backend
import ModelStream.InlineTag
import ModelStream.Json.Reading
import ModelStream.Text.Utf8
import ModelStream.Toml.Parser

namespace ModelStream

structure Settings where
  /-- Base URLs by the names of backends, in the order of the names. -/
  baseUrls : List (String × String) := []
  reasoningTags : List String := InlineTag.defaultNames
  debugFrames : Bool := false
  deriving Repr, DecidableEq

namespace Settings

/-! ## Files -/

open Json.Reader in
def reader : Json.Reader Settings := record
  [ field "base_urls" .never (dictionary text) fun s x => { s with baseUrls := Ordered.ofList x },
    field "reasoning_tags" .never (listOf text) fun s x => { s with reasoningTags := x },
    field "debug_frames" .never flag fun s x => { s with debugFrames := x }] {}

def tomlText? : Toml → Option String
  | .text s => some s
  | _ => none

/-- Enters one entry of a document; keys without a meaning are passed over. -/
def enter (s : Settings) (entry : String × Toml) : Option Settings :=
  match entry with
  | ("base_urls", v) => do
    let urls ← (← v.entries?).mapM fun (name, v) => do return (name, ← tomlText? v)
    return { s with baseUrls := Ordered.ofList urls }
  | ("reasoning_tags", .list items) => do
    return { s with reasoningTags := ← items.mapM tomlText? }
  | ("debug_frames", .flag b) => some { s with debugFrames := b }
  | (key, _) => if ["reasoning_tags", "debug_frames"].contains key then none else some s

/-- The settings in the bytes of a file. -/
def ofFile (bytes : Text.Bytes) : Except Fault Settings :=
  match Text.Utf8.decode? bytes with
  | none => .error (.io "stream did not contain valid UTF-8")
  | some text =>
    match (Toml.parse? text).bind fun entries => entries.foldlM enter {} with
    | some s => .ok s
    | none => .error .configFile

/-! ## Layers -/

def setBaseUrl (s : Settings) (b : Backend) (url : String) : Settings :=
  { s with baseUrls := Ordered.put b.name url s.baseUrls }

/-- The variable that holds the base URL of a backend. -/
def urlVariable : Backend → String
  | .anthropic => "ANTHROPIC_BASE_URL"
  | .responses => "OPENAI_BASE_URL"
  | .chat => "OPENAI_COMPAT_BASE_URL"

/-- The names between commas, without the blanks around them; empty names are left out. -/
def tagNames (text : String) : List String :=
  ((text.splitOn ",").map Text.trimmed).filter (! ·.isEmpty)

/-- Lays the environment over the settings. A blank URL and a list without names change nothing. -/
def overlay (s : Settings) (environment : String → Option String) : Settings :=
  let s := Backend.all.foldl (fun s b =>
    match (environment (urlVariable b)).filter (! Text.blank ·) with
    | some url => s.setBaseUrl b url
    | none => s) s
  let s := match ((environment "SLUICE_REASONING_TAGS").map tagNames).getD [] with
    | [] => s
    | tags => { s with reasoningTags := tags }
  match environment "SLUICE_DEBUG" with
  | some value => { s with debugFrames := ["1", "true", "TRUE"].contains value }
  | none => s

/-! ## Addresses -/

def defaultUrl : Backend → String
  | .anthropic => "https://api.anthropic.com/v1"
  | .responses | .chat => "https://api.openai.com/v1"

/-- The base URL of a backend, without slashes at its end. -/
def baseUrl (s : Settings) (b : Backend) : String :=
  Text.withoutTrailingSlashes ((Ordered.get? s.baseUrls b.name).getD (defaultUrl b))

def toJson (s : Settings) : Json := .object
  [("base_urls", .object (s.baseUrls.map fun (name, url) => (name, .str url))),
    ("reasoning_tags", .arr (s.reasoningTags.map .str)), ("debug_frames", .bool s.debugFrames)]

end Settings

end ModelStream
