/-
Payloads that leave a decoder as it is. A payload is refused if it cannot be read, or if it holds a block or a
finished item that cannot be read; it is reported then, and nothing else happens (`Decoder.step_refused`). A
payload that is an object of an unknown kind is passed over (`Decoder.step_unknown`).
-/
import ModelStream.Decoder
import ModelStream.Proofs.Json.Tagged

namespace ModelStream

open Json (Problem Reader)

/-! ## Unknown kinds -/

/-- An object that names a kind which is not among these. -/
def Json.OtherThan (known : List String) (payload : String) : Prop :=
  ∃ v ∈ (Json.parse payload).toOption, ∃ kind ∈ v.kind?, kind ∉ known

theorem Json.OtherThan.parse {known : List String} {payload : String} (h : Json.OtherThan known payload) :
    ∃ v kind, Json.parse payload = .ok v ∧ v.kind? = some kind ∧ kind ∉ known := by
  obtain ⟨v, hv, kind, hkind, hother⟩ := h
  cases hparse : Json.parse payload with
  | error problem => rw [hparse] at hv; cases hv
  | ok w =>
    rw [hparse] at hv
    cases hv
    exact ⟨_, kind, rfl, hkind, hother⟩

namespace Anthropic

/-- The kinds of payloads that mean something. -/
def kinds : List String :=
  [ "message_start", "content_block_start", "content_block_delta", "content_block_stop", "message_delta",
    "message_stop", "error"]

theorem Signal.ofKind_unknown {kind : String} (h : kind ∉ kinds) (l : Json.Limits) (rest : List (Json.Key × Json.Tree)) :
    Signal.ofKind kind l (.object rest none) = .ok .idle := by
  unfold Signal.ofKind
  split <;> first | exact absurd (by decide) h | rfl

/-- An object of an unknown kind means nothing, if it names its kind once. -/
theorem Signal.ofText_unknown {payload : String} (h : Json.OtherThan kinds payload)
    (hone : (Json.Document.ofText payload).root.names.count (some "type") = 1) :
    Signal.ofText payload = .ok .idle := by
  obtain ⟨v, kind, hparse, hkind, hother⟩ := h.parse
  obtain ⟨rest, htagged⟩ := Reader.tagged_of_parse (l := { surplus := .malformed }) hparse hkind hone rfl
  have htrailing := (Json.parse_eq_ok.1 hparse).2
  simp [Signal.ofText, Reader.ofText, Signal.reader, htagged, Signal.ofKind_unknown hother, htrailing, bind,
    Except.bind, pure, Except.pure]

end Anthropic

namespace Responses

/-- The kinds of payloads that mean something. -/
def kinds : List String :=
  [ "response.created", "response.in_progress", "response.output_item.added", "response.output_item.done",
    "response.output_text.delta", "response.output_text.annotation.added", "response.function_call_arguments.delta",
    "response.function_call_arguments.done", "response.reasoning_summary_text.delta", "response.reasoning_text.delta",
    "response.completed", "response.failed", "response.incomplete", "error"]

theorem Signal.ofKind_unknown {kind : String} (h : kind ∉ kinds) (l : Json.Limits) (rest : List (Json.Key × Json.Tree)) :
    Signal.ofKind kind l (.object rest none) = .ok .idle := by
  unfold Signal.ofKind
  split <;> first | exact absurd (by decide) h | rfl

/-- An object of an unknown kind means nothing. -/
theorem Signal.ofText_unknown {payload : String} (h : Json.OtherThan kinds payload) :
    ∃ raw, Signal.ofText payload = .ok (raw, .idle) := by
  obtain ⟨v, kind, hparse, hkind, hother⟩ := h.parse
  obtain ⟨rest, htagged⟩ := Reader.tagged_ofValue hparse hkind
  exact ⟨v, by simp [Signal.ofText, Reader.ofValue, Signal.reader, hparse, htagged, Signal.ofKind_unknown hother, bind,
    Except.bind, pure, Except.pure]⟩

end Responses

/-! ## Refused payloads -/

/-- Why something cannot be read. -/
def Json.problem? {α : Type} : Except Problem α → Option Problem
  | .error problem => some problem
  | .ok _ => none

theorem Json.problem?_eq_some {α : Type} {read : Except Problem α} {problem : Problem} :
    problem? read = some problem ↔ read = .error problem := by
  cases read <;> simp [problem?]

namespace Anthropic

/-- Why a payload is refused: it cannot be read, or the block that it begins cannot. -/
def refusal? (payload : String) : Option Problem :=
  match Signal.ofText payload with
  | .error problem => some problem
  | .ok (.blockStart _ block) => Json.problem? (Block.ofValue block)
  | .ok _ => none

theorem Decoder.step_refused (d : Decoder) {payload : String} {problem : Problem} (h : refusal? payload = some problem) :
    d.step payload = .unread d .anthropic problem := by
  unfold refusal? at h
  unfold step
  split at h
  · next found hread => rw [hread, Option.some.inj h]
  · next index block hread =>
    rw [hread]
    simp only [apply, startBlock, Json.problem?_eq_some.1 h]
  · cases h

end Anthropic

namespace Responses

/-- Why a payload is refused: it cannot be read, or the finished item that it holds cannot. -/
def refusal? (payload : String) : Option Problem :=
  match Signal.ofText payload with
  | .error problem => some problem
  | .ok (_, .itemDone _ item) => Json.problem? (Item.ofValue item)
  | .ok _ => none

theorem Decoder.step_refused (d : Decoder) {payload : String} {problem : Problem} (h : refusal? payload = some problem) :
    d.step payload = .unread d .responses problem := by
  unfold refusal? at h
  unfold step
  split at h
  · next found hread => rw [hread, Option.some.inj h]
  · next raw index item hread =>
    rw [hread]
    simp only [apply, finishItem, Json.problem?_eq_some.1 h]
    rfl
  · cases h

end Responses

namespace Decoder

/-- Why a payload is refused. -/
def refusal? (backend : Backend) (payload : String) : Option Problem :=
  match backend with
  | .anthropic => Anthropic.refusal? payload
  | .responses => Responses.refusal? payload
  | .chat => Json.problem? (Chat.Chunk.ofText payload)

/-- An object of a kind that is not known, which it names once. Only two of the backends tell kinds apart. -/
def Unknown (backend : Backend) (payload : String) : Prop :=
  match backend with
  | .anthropic => Json.OtherThan Anthropic.kinds payload ∧
    (Json.Document.ofText payload).root.names.count (some "type") = 1
  | .responses => Json.OtherThan Responses.kinds payload
  | .chat => False

/-- A payload that is refused is reported, and nothing else happens. -/
theorem step_refused (d : Decoder) {payload : String} {problem : Problem}
    (h : refusal? d.backend payload = some problem) : d.step payload = .unread d d.backend problem := by
  cases d with
  | anthropic d => simp only [step, d.step_refused h]; rfl
  | responses d => simp only [step, d.step_refused h]; rfl
  | chat d =>
    simp only [step, Chat.Decoder.step, Json.problem?_eq_some.1 h]
    rfl

/-- Nothing happens at a payload of an unknown kind. -/
theorem step_unknown (d : Decoder) {payload : String} (h : Unknown d.backend payload) :
    d.step payload = { state := d } := by
  cases d with
  | anthropic d => simp [step, Anthropic.Decoder.step, Anthropic.Signal.ofText_unknown h.1 h.2, Anthropic.Decoder.apply]
  | responses d =>
    obtain ⟨raw, hread⟩ := Responses.Signal.ofText_unknown h
    simp [step, Responses.Decoder.step, hread, Responses.Decoder.apply]
  | chat d => exact h.elim

end Decoder

end ModelStream
