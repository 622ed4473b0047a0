/-
UTF-8 read piece by piece. Bytes read in two pieces give the characters of both read at once
(`push_append`), and the bytes of a text give its characters and leave nothing (`push_bytesOf`).
-/
import ModelStream.Text.Utf8

namespace ModelStream.Text.Utf8

/-! ## UTF-8 in pieces -/

@[simp] theorem push_nil (held : Bytes) : push held [] = ([], held) := rfl

/-- The fold behind `push`, from any characters already read. -/
theorem foldl_step (piece : Bytes) : ∀ (cs : List Char) (held : Bytes),
    piece.foldl (fun (cs, held) b =>
      let (new, held) := step held b
      (new.reverse ++ cs, held)) (cs, held) = ((push held piece).1.reverse ++ cs, (push held piece).2) := by
  induction piece with
  | nil => intro cs held; simp
  | cons b piece ih =>
    intro cs held
    simp only [push, List.foldl_cons]
    rw [ih, ih]
    simp

theorem push_cons (held : Bytes) (b : UInt8) (piece : Bytes) :
    push held (b :: piece) =
      ((step held b).1 ++ (push (step held b).2 piece).1, (push (step held b).2 piece).2) := by
  conv => lhs; unfold push
  simp only [List.foldl_cons]
  rw [foldl_step]
  simp

/-- Two pieces in turn are one piece. -/
theorem push_append (held a b : Bytes) :
    push held (a ++ b) = ((push held a).1 ++ (push (push held a).2 b).1, (push (push held a).2 b).2) := by
  induction a generalizing held with
  | nil => simp
  | cons x a ih =>
    rw [List.cons_append, push_cons, push_cons, ih]
    simp

/-! ## The bytes of a character -/

theorem width_iff (b : UInt8) : (width b = 1 ↔ b.toNat < 0x80) ∧ (width b = 2 ↔ 0xC2 ≤ b.toNat ∧ b.toNat < 0xE0) ∧
    (width b = 3 ↔ 0xE0 ≤ b.toNat ∧ b.toNat < 0xF0) ∧ (width b = 4 ↔ 0xF0 ≤ b.toNat ∧ b.toNat < 0xF5) := by
  simp only [width, UInt8.lt_iff_toNat_lt, UInt8.reduceToNat]
  repeat' split
  all_goals omega

theorem isLater_iff (b : UInt8) : isLater b ↔ 0x80 ≤ b.toNat ∧ b.toNat ≤ 0xBF := by
  simp [isLater, UInt8.le_iff_toNat_le]

/-- The second byte is bounded more narrowly after four of the lead bytes. -/
theorem isSecond_iff (lead b : UInt8) : isSecond lead b ↔
    0x80 ≤ b.toNat ∧ b.toNat ≤ 0xBF ∧ (lead.toNat = 0xE0 → 0xA0 ≤ b.toNat) ∧ (lead.toNat = 0xF0 → 0x90 ≤ b.toNat) ∧
      (lead.toNat = 0xED → b.toNat ≤ 0x9F) ∧ (lead.toNat = 0xF4 → b.toNat ≤ 0x8F) := by
  simp only [isSecond, beq_iff_eq, Bool.and_eq_true, decide_eq_true_eq, UInt8.le_iff_toNat_le, ← UInt8.toNat_inj,
    apply_ite UInt8.toNat, UInt8.reduceToNat]
  repeat' split
  all_goals omega

/-- The bytes after the second one complete the character. -/
theorem push_later {lead : UInt8} {later rest : Bytes} (hlater : later ≠ []) (hrest : rest ≠ [])
    (hwidth : width lead = later.length + rest.length + 1) (h : ∀ b ∈ rest, isLater b) :
    push (lead :: later) rest = ([Char.ofNat (codePoint (lead :: (later ++ rest)))], []) := by
  induction rest generalizing later with
  | nil => exact absurd rfl hrest
  | cons b more ih =>
    have hb : isLater b = true := h b (by simp)
    rw [push_cons]
    cases more with
    | nil => simp [step, hlater, hb, hwidth]
    | cons next more =>
      have hstep : step (lead :: later) b = ([], lead :: (later ++ [b])) := by
        simp [step, hlater, hb, hwidth]
      rw [hstep, ih (by simp) (by simp) (by simp [hwidth]; omega) fun x hx => h x (List.mem_cons_of_mem _ hx)]
      simp

/-- A character of several bytes. -/
theorem push_whole {lead second : UInt8} {rest : Bytes} (hwidth : width lead = rest.length + 2)
    (hsecond : isSecond lead second) (h : ∀ b ∈ rest, isLater b) :
    push [] (lead :: second :: rest) = ([Char.ofNat (codePoint (lead :: second :: rest))], []) := by
  have hbegin : step [] lead = ([], [lead]) := by simp [step, begin, hwidth]
  rw [push_cons, hbegin, push_cons]
  cases rest with
  | nil => simp [step, hsecond, hwidth]
  | cons b more =>
    have hstep : step [lead] second = ([], [lead, second]) := by simp [step, hsecond, hwidth]
    rw [hstep, push_later (by simp) (by simp) (by simp [hwidth]; omega) h]
    simp

/-- The bytes of a character are read as that character. -/
theorem push_char (c : Char) : push [] (String.utf8EncodeChar c) = ([c], []) := by
  have hvalid := c.valid
  have hof : Char.ofNat c.val.toNat = c := Char.ofNat_toNat c
  unfold String.utf8EncodeChar
  simp only [UInt32.isValidChar, Nat.isValidChar] at hvalid
  generalize c.val.toNat = n at *
  have spelled : ∀ {lead second : UInt8} {rest : Bytes}, width lead = rest.length + 2 → isSecond lead second →
      (∀ b ∈ rest, isLater b) → codePoint (lead :: second :: rest) = n →
      push [] (lead :: second :: rest) = ([c], []) := fun hwidth hsecond hlater hcode => by
    rw [push_whole hwidth hsecond hlater, hcode, hof]
  -- one case for each number of bytes
  simp only
  split
  · have hbyte : (UInt8.ofNat n).toNat = n := by simp; omega
    have hwidth : width (UInt8.ofNat n) = 1 := (width_iff _).1.2 (by omega)
    simp [push_cons, step, begin, hwidth, hbyte, hof]
  · split
    · refine spelled ((width_iff _).2.1.2 ?_) ((isSecond_iff _ _).2 ?_) ?_ ?_
      · simp; omega
      · simp; omega
      · simp
      · simp [codePoint]; omega
    · split
      · refine spelled ((width_iff _).2.2.1.2 ?_) ((isSecond_iff _ _).2 ?_) ?_ ?_
        · simp; omega
        · simp; omega
        · simp [isLater_iff]; omega
        · simp [codePoint]; omega
      · refine spelled ((width_iff _).2.2.2.2 ?_) ((isSecond_iff _ _).2 ?_) ?_ ?_
        · simp; omega
        · simp; omega
        · simp [isLater_iff]; omega
        · simp [codePoint]; omega

/-! ## The bytes of a text -/

theorem toList_eq (bytes : ByteArray) : bytes.toList = bytes.data.toList := by
  have loops : ∀ (i : Nat) (read : List UInt8),
      ByteArray.toList.loop bytes i read = read.reverse ++ bytes.data.toList.drop i := by
    intro i read
    induction i, read using ByteArray.toList.loop.induct bytes with
    | case1 i read h ih =>
      have hi : i < bytes.data.toList.length := h
      rw [ByteArray.toList.loop, if_pos h, ih, List.drop_eq_getElem_cons hi]
      simp [ByteArray.get!, getElem!_pos bytes.data i h]
    | case2 i read h =>
      have hi : bytes.data.toList.length ≤ i := Nat.not_lt.1 h
      rw [ByteArray.toList.loop, if_neg h, List.drop_of_length_le hi, List.append_nil]
  exact loops 0 []

theorem bytesOf_eq (s : String) : bytesOf s = s.toList.flatMap String.utf8EncodeChar := by
  rw [bytesOf, toList_eq, String.toUTF8, ← String.utf8Encode_toList]
  exact List.toList_data_toByteArray

/-- The bytes of a text are read as its characters, and none is kept. -/
theorem push_bytesOf (s : String) : push [] (bytesOf s) = (s.toList, []) := by
  rw [bytesOf_eq]
  induction s.toList with
  | nil => rfl
  | cons c cs ih => rw [List.flatMap_cons, push_append, push_char, ih, List.singleton_append]

end ModelStream.Text.Utf8
