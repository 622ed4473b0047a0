/-
Places in a text that are given in bytes. A place counts only if a character begins or ends there: cutting
anywhere else, or outside of the text, has no result, and neither has a difference below zero. So where an
operation with such places has a result, all of its places are sound. The laws here say where the results
are: at the sizes of what stands before (`cut?_append`, `slice?_append`, `back?_eq`).
-/
import Mathlib.Data.List.Basic

namespace ModelStream.Text

variable {text first rest : List Char}

/-! ## Sizes -/

/-- The number of bytes of a text. -/
def size (cs : List Char) : Nat := (String.ofList cs).utf8ByteSize

@[simp] theorem size_nil : size [] = 0 := rfl

@[simp] theorem size_cons (c : Char) (cs : List Char) : size (c :: cs) = c.utf8Size + size cs := by
  simp [size, String.ofList_cons]

@[simp] theorem size_append (cs ds : List Char) : size (cs ++ ds) = size cs + size ds := by
  simp [size, String.ofList_append]

theorem size_pos (h : text ≠ []) : 0 < size text := by
  obtain ⟨c, cs, rfl⟩ := List.exists_cons_of_ne_nil h
  rw [size_cons]
  exact Nat.lt_of_lt_of_le c.utf8Size_pos (Nat.le_add_right ..)

/-- Of two texts that begin another, the one with fewer bytes begins the one with more. -/
theorem prefix_of_size_le {before : List Char} (h : before <+: text) (k : first <+: text)
    (hle : size before ≤ size first) : before <+: first := by
  rcases List.prefix_or_prefix_of_prefix h k with hp | ⟨rest, rfl⟩
  · exact hp
  · cases rest with
    | nil => simp
    | cons c rest =>
      have hrest := size_pos (List.cons_ne_nil c rest)
      rw [size_append] at hle
      omega

/-- A difference, unless it is below zero. -/
def sub? (n m : Nat) : Option Nat := if m ≤ n then some (n - m) else none

theorem sub?_add (n m : Nat) : sub? (n + m) m = some n := by simp [sub?]

theorem sub?_of_le {n m : Nat} (h : m ≤ n) : sub? n m = some (n - m) := if_pos h

/-! ## Cutting -/

/-- Cuts a text at a place. -/
def cut? : List Char → Nat → Option (List Char × List Char)
  | text, 0 => some ([], text)
  | [], _ + 1 => none
  | c :: cs, n + 1 =>
    if c.utf8Size ≤ n + 1 then (cut? cs (n + 1 - c.utf8Size)).map fun (first, rest) => (c :: first, rest) else none

/-- A text is cut at the size of its first part. -/
theorem cut?_append (first rest : List Char) : cut? (first ++ rest) (size first) = some (first, rest) := by
  induction first with
  | nil => simp [cut?]
  | cons c cs ih =>
    obtain ⟨n, hn⟩ : ∃ n, size (c :: cs) = n + 1 :=
      Nat.exists_eq_succ_of_ne_zero (Nat.ne_of_gt (size_pos (List.cons_ne_nil c cs)))
    have hsize : n + 1 = c.utf8Size + size cs := hn ▸ size_cons c cs
    rw [hn, List.cons_append, cut?, if_pos (by omega), hsize, Nat.add_sub_cancel_left, ih]
    rfl

/-- A cut only parts the text. -/
theorem eq_of_cut? {n : Nat} (h : cut? text n = some (first, rest)) : text = first ++ rest ∧ size first = n := by
  induction text generalizing n first with
  | nil =>
    cases n with
    | zero =>
      cases h
      exact ⟨rfl, rfl⟩
    | succ n => cases h
  | cons c cs ih =>
    cases n with
    | zero =>
      cases h
      exact ⟨rfl, rfl⟩
    | succ n =>
      rw [cut?] at h
      split at h
      · next hle =>
        obtain ⟨⟨before, after⟩, hcut, heq⟩ := Option.map_eq_some_iff.1 h
        cases heq
        obtain ⟨hcs, hsize⟩ := ih hcut
        exact ⟨congrArg (c :: ·) hcs, by rw [size_cons, hsize]; omega⟩
      · cases h

/-- The part of a text between two places. -/
def slice? (text : List Char) (start stop : Nat) : Option (List Char) := do
  let length ← sub? stop start
  let (_, rest) ← cut? text start
  let (piece, _) ← cut? rest length
  return piece

theorem slice?_append (before piece after : List Char) :
    slice? (before ++ (piece ++ after)) (size before) (size before + size piece) = some piece := by
  simp only [slice?, Nat.add_comm (size before), sub?_add, cut?_append, Option.bind_eq_bind, Option.bind_some]
  rfl

/-- The last place at which the text can be cut, from the given one downwards. -/
def back? (text : List Char) : Nat → Option Nat
  | 0 => if (cut? text 0).isSome then some 0 else none
  | n + 1 => if (cut? text (n + 1)).isSome then some (n + 1) else back? text n

/-- Going back always comes to a place, and passes none. -/
theorem back?_eq (text : List Char) (n : Nat) : ∃ first rest, text = first ++ rest ∧
    back? text n = some (size first) ∧ size first ≤ n ∧
    ∀ before after, text = before ++ after → size before ≤ n → size before ≤ size first := by
  induction n with
  | zero => exact ⟨[], text, rfl, by simp [back?, cut?], Nat.le_refl _, fun _ _ _ hle => hle⟩
  | succ n ih =>
    rcases hcut : cut? text (n + 1) with _ | ⟨first, rest⟩
    · obtain ⟨first, rest, htext, hback, hle, hlast⟩ := ih
      refine ⟨first, rest, htext, by simpa [back?, hcut] using hback, by omega, fun before after hsplit hsize => ?_⟩
      refine hlast before after hsplit (Nat.le_of_lt_succ (Nat.lt_of_le_of_ne hsize fun heq => ?_))
      rw [hsplit, ← Nat.succ_eq_add_one, ← heq, cut?_append] at hcut
      cases hcut
    · obtain ⟨htext, hsize⟩ := eq_of_cut? hcut
      refine ⟨first, rest, htext, ?_, Nat.le_of_eq hsize, fun before after _ hle => hsize ▸ hle⟩
      simp [back?, hcut, hsize]

/-! ## Where characters stand -/

/-- The place of the last of these characters. -/
def last? (mark : Char) : List Char → Option Nat
  | [] => none
  | c :: cs =>
    match last? mark cs with
    | some n => some (c.utf8Size + n)
    | none => if c = mark then some 0 else none

theorem last?_of_not_mem {mark : Char} (h : mark ∉ text) : last? mark text = none := by
  induction text with
  | nil => rfl
  | cons c cs ih =>
    rw [List.mem_cons, not_or] at h
    rw [last?, ih h.2]
    exact if_neg (Ne.symm h.1)

theorem last?_append {mark : Char} (before : List Char) {tail : List Char} (h : mark ∉ tail) :
    last? mark (before ++ mark :: tail) = some (size before) := by
  induction before with
  | nil => simp [last?, last?_of_not_mem h]
  | cons c cs ih => simp [last?, ih]

/-- The places at which the characters begin. -/
def charOffsets (text : List Char) : List Nat := (List.range text.length).map fun n => size (text.take n)

end ModelStream.Text
