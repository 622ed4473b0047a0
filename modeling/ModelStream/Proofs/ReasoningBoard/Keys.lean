/-
A key of the reasoning board. A key is silent, speaks or has ended (`ReasoningBoard.Orderly`); each operation
leaves all keys but its own as they are (`ReasoningBoard.ButFor`), and what it does to its own is told by where
the key stands.
-/
import ModelStream.Proofs.Ordered
import ModelStream.Proofs.ReasoningBoard

namespace ModelStream

open Text (trimmed)

namespace ReasoningBoard

variable {b c : ReasoningBoard} {key other : ReasoningKey}

/-- Nothing has been said under the key. -/
def Silent (b : ReasoningBoard) (key : ReasoningKey) : Prop := Ordered.get? b.blocks key = none ∧ key ∉ b.ended

/-- The block of the key is open, and has text. -/
def Speaking (b : ReasoningBoard) (key : ReasoningKey) : Prop :=
  (∃ block, Ordered.get? b.blocks key = some block ∧ block.text ≠ "") ∧ key ∉ b.ended

theorem Speaking.not_silent (h : b.Speaking key) : ¬ b.Silent key := by
  rintro ⟨hnone, -⟩
  obtain ⟨⟨block, hget, -⟩, -⟩ := h
  rw [hnone] at hget
  cases hget

/-- Each key is silent, speaks or has ended. -/
def Orderly (b : ReasoningBoard) : Prop := ∀ key, b.Silent key ∨ b.Speaking key ∨ key ∈ b.ended

/-- The boards differ under this key at most. -/
structure ButFor (key : ReasoningKey) (b c : ReasoningBoard) : Prop where
  block : ∀ other, other ≠ key → Ordered.get? c.blocks other = Ordered.get? b.blocks other
  ended : ∀ other, other ≠ key → (other ∈ c.ended ↔ other ∈ b.ended)

namespace ButFor

theorem refl (key : ReasoningKey) (b : ReasoningBoard) : ButFor key b b := ⟨fun _ _ => rfl, fun _ _ => Iff.rfl⟩

theorem trans {d : ReasoningBoard} (h : ButFor key b c) (k : ButFor key c d) : ButFor key b d :=
  ⟨fun other hne => (k.block other hne).trans (h.block other hne),
    fun other hne => (k.ended other hne).trans (h.ended other hne)⟩

theorem silent (h : ButFor key b c) (hne : other ≠ key) : c.Silent other ↔ b.Silent other := by
  rw [Silent, Silent, h.block other hne, h.ended other hne]

theorem speaking (h : ButFor key b c) (hne : other ≠ key) : c.Speaking other ↔ b.Speaking other := by
  rw [Speaking, Speaking, h.block other hne, h.ended other hne]

end ButFor

theorem orderly_start : Orderly {} := fun _ => .inl ⟨rfl, List.not_mem_nil⟩

/-- A push that counts makes the key speak. -/
theorem push_speaking (hended : key ∉ b.ended) {segment : String} (htext : trimmed segment ≠ "") :
    ∃ c, b.push key segment = (some (.reasoning (trimmed segment) key), c) ∧ c.Speaking key ∧ ButFor key b c := by
  have hgo : ¬ ((trimmed segment).isEmpty || b.hasEnded key) = true := by
    rw [Bool.or_eq_true, not_or, hasEnded_iff]
    exact ⟨by simpa using htext, hended⟩
  have hpush : b.push key segment = (some (.reasoning (trimmed segment) key),
      b.update key fun block => { block with text := block.text ++ trimmed segment }) := if_neg hgo
  refine ⟨_, hpush, ⟨⟨_, Ordered.get?_put_self .., ?_⟩, hended⟩, fun other hne => ?_, fun _ _ => Iff.rfl⟩
  · simp [String.append_eq_empty_iff, htext]
  · exact Ordered.get?_put_of_ne hne ..

theorem push_mute {segment : String} (h : trimmed segment = "" ∨ key ∈ b.ended) : b.push key segment = (none, b) := by
  have hstop : ((trimmed segment).isEmpty || b.hasEnded key) = true := by
    rw [Bool.or_eq_true, hasEnded_iff]
    exact h.imp_left fun h => by rw [h]; rfl
  rw [push, if_pos hstop]

theorem finish_silent (h : b.Silent key) (payload : Json.Fields) : b.finish key payload = (none, b) := by
  unfold finish
  split
  · rfl
  · rw [h.1]

/-- A block with text ends. -/
theorem finish_speaking (h : b.Speaking key) (payload : Json.Fields) : ∃ text metadata c,
    b.finish key payload = (some (.reasoningEnd text metadata), c) ∧ key ∈ c.ended ∧ ButFor key b c := by
  obtain ⟨⟨block, hget, htext⟩, hended⟩ := h
  rw [← hasEnded_iff] at hended
  have hsome : ¬ block.text.isEmpty = true := by simpa using htext
  have hfinish : b.finish key payload =
      (some (.reasoningEnd block.text (Ordered.put "text" (.str block.text) (block.metadata.overlay payload))),
        { blocks := Ordered.erase b.blocks key, ended := key :: b.ended }) := by
    rw [finish, if_neg hended]
    simp only [hget]
    rw [if_neg hsome]
  refine ⟨_, _, _, hfinish, List.mem_cons_self .., ?_, ?_⟩
  · exact fun other hne => Ordered.get?_erase_of_ne hne _
  · exact fun other hne => by simp [hne]

end ReasoningBoard

end ModelStream
