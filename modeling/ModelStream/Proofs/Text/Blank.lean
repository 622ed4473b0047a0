/-
Laws of trimming: what is trimmed stays as it is when it is trimmed again.
-/
import Mathlib.Data.List.DropRight
import ModelStream.Text.Blank

namespace ModelStream.Text

theorem trimEnd_prefix (cs : List Char) : trimEnd cs <+: cs := List.rdropWhile_prefix isBlank cs

theorem trimEnd_trimEnd (cs : List Char) : trimEnd (trimEnd cs) = trimEnd cs :=
  List.rdropWhile_idempotent isBlank cs

/-- Text that begins with no blank still does so without the blanks at its end. -/
theorem trimStart_trimEnd {cs : List Char} (h : trimStart cs = cs) : trimStart (trimEnd cs) = trimEnd cs := by
  obtain ⟨tail, htail⟩ := trimEnd_prefix cs
  cases hend : trimEnd cs with
  | nil => rfl
  | cons c rest =>
    rw [hend] at htail
    have hhead := List.dropWhile_eq_self_iff.1 h
    rw [← htail] at hhead
    exact List.dropWhile_eq_self_iff.2 fun _ => hhead (by simp)

/-- Blanks are taken off once and for all. -/
theorem trim_trim (cs : List Char) : trim (trim cs) = trim cs := by
  have hstart : trimStart (trim cs) = trim cs := trimStart_trimEnd (List.dropWhile_idempotent isBlank cs)
  show trimEnd (trimStart (trim cs)) = trim cs
  rw [hstart]
  exact trimEnd_trimEnd _

@[simp] theorem trimmed_trimmed (s : String) : trimmed (trimmed s) = trimmed s := by
  simp [trimmed, trim_trim]

end ModelStream.Text
