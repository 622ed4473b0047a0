/-
One step of a decoder: what a payload does to its state, the events it gives out, and whether the
stream goes on.
-/
import ModelStream.Backend
import ModelStream.Event

namespace ModelStream

/-- Whether a decoder wants more payloads. -/
inductive Flow
  | more
  | finish
  deriving Repr, DecidableEq

structure Step (σ : Type) where
  state : σ
  events : List Event := []
  flow : Flow := .more

namespace Event

/-- The event that reports a payload that cannot be read. -/
def malformed (backend : Backend) (problem : Json.Problem) : Event :=
  .fault ("malformed " ++ backend.name ++ " frame: " ++ problem.message) (some (.serialization problem))

end Event

/-- The step of a payload that cannot be read: it is reported, and the state stays as it is. -/
def Step.unread {σ : Type} (state : σ) (backend : Backend) (problem : Json.Problem) : Step σ :=
  { state, events := [.malformed backend problem] }

end ModelStream
