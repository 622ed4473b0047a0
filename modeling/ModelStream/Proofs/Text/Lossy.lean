/-
UTF-8 piece by piece and at once. The bytes that `push` keeps are none, or the first bytes of a character
of which some are missing (`push_kept`); a byte that cannot follow them makes one replacement of them all, and
begins anew. This is how `lossy` goes through a byte string, so the bytes kept and those after them are read
alike in both ways (`lossy_append`), and what is replaced is as long as it can be (`lossy_eq_cons`). What a byte
string leaves is the unfinished character that it ends in, and its characters are those of the bytes before
that (`push_eq`).
-/
import Mathlib.Data.List.DropRight
import Mathlib.Data.List.Infix
import ModelStream.Proofs.Text.Utf8

namespace ModelStream.Text.Utf8

variable {lead second : UInt8} {later held bytes rest : Bytes}

/-! ## The bytes of a character -/

/-- All bytes of one character. -/
def isWhole : Bytes → Bool
  | [] => false
  | [b] => width b == 1
  | lead :: second :: later => width lead == later.length + 2 && isSecond lead second && later.all isLater

/-- The first bytes of a character, but not all. -/
def isBegun : Bytes → Bool
  | [] => false
  | [lead] => 2 ≤ width lead
  | lead :: second :: later => later.length + 2 < width lead && isSecond lead second && later.all isLater

theorem width_le (b : UInt8) : width b ≤ 4 := by
  simp only [width]
  repeat' split
  all_goals omega

theorem toNat_ofNat {n : Nat} (h : n.isValidChar) : (Char.ofNat n).val.toNat = n := by
  rw [Char.ofNat, dif_pos h]
  rfl

theorem isWhole_encode (c : Char) : isWhole (String.utf8EncodeChar c) := by
  have hvalid := c.valid
  unfold String.utf8EncodeChar
  simp only [UInt32.isValidChar, Nat.isValidChar] at hvalid
  generalize c.val.toNat = n at *
  have spelled : ∀ {lead second : UInt8} {later : Bytes}, width lead = later.length + 2 → isSecond lead second →
      (∀ b ∈ later, isLater b) → isWhole (lead :: second :: later) := by
    intro lead second later hwidth hsecond hlater
    simp only [isWhole, hwidth, hsecond, beq_self_eq_true, Bool.and_self, Bool.true_and]
    exact List.all_eq_true.2 hlater
  -- one case for each number of bytes
  simp only
  split
  · have hbyte : (UInt8.ofNat n).toNat = n := by simp; omega
    have hwidth : width (UInt8.ofNat n) = 1 := (width_iff _).1.2 (by omega)
    simp [isWhole, hwidth]
  · split
    · refine spelled ((width_iff _).2.1.2 ?_) ((isSecond_iff _ _).2 ?_) ?_
      · simp; omega
      · simp; omega
      · simp
    · split
      · refine spelled ((width_iff _).2.2.1.2 ?_) ((isSecond_iff _ _).2 ?_) ?_
        · simp; omega
        · simp; omega
        · simp [isLater_iff]; omega
      · refine spelled ((width_iff _).2.2.2.2 ?_) ((isSecond_iff _ _).2 ?_) ?_
        · simp; omega
        · simp; omega
        · simp [isLater_iff]; omega

/-- The character that several bytes spell has these bytes. -/
theorem encode_codePoint (hwidth : width lead = later.length + 2) (hsecond : isSecond lead second)
    (hlater : ∀ b ∈ later, isLater b) :
    String.utf8EncodeChar (Char.ofNat (codePoint (lead :: second :: later))) = lead :: second :: later := by
  have hs := (isSecond_iff _ _).1 hsecond
  obtain ⟨-, htwo, hthree, hfour⟩ := width_iff lead
  rcases later with _ | ⟨c, _ | ⟨d, _ | ⟨e, later⟩⟩⟩
  · have hl := htwo.1 hwidth
    have hcode : codePoint [lead, second] = lead.toNat % 32 * 64 + second.toNat % 64 := by simp [codePoint]
    rw [hcode, String.utf8EncodeChar, toNat_ofNat (by simp [Nat.isValidChar]; omega)]
    rw [if_neg (by omega), if_pos (by omega)]
    simp only [List.cons.injEq, ← UInt8.toNat_inj, UInt8.toNat_ofNat', and_true]
    omega
  · have hl := hthree.1 hwidth
    have hc := (isLater_iff c).1 (hlater c (by simp))
    have hcode : codePoint [lead, second, c] = (lead.toNat % 16 * 64 + second.toNat % 64) * 64 + c.toNat % 64 := by
      simp [codePoint]
    rw [hcode, String.utf8EncodeChar, toNat_ofNat (by simp [Nat.isValidChar]; omega)]
    rw [if_neg (by omega), if_neg (by omega), if_pos (by omega)]
    simp only [List.cons.injEq, ← UInt8.toNat_inj, UInt8.toNat_ofNat', and_true]
    omega
  · have hl := hfour.1 hwidth
    have hc := (isLater_iff c).1 (hlater c (by simp))
    have hd := (isLater_iff d).1 (hlater d (by simp))
    have hcode : codePoint [lead, second, c, d] =
        ((lead.toNat % 8 * 64 + second.toNat % 64) * 64 + c.toNat % 64) * 64 + d.toNat % 64 := by simp [codePoint]
    rw [hcode, String.utf8EncodeChar, toNat_ofNat (by simp [Nat.isValidChar]; omega)]
    rw [if_neg (by omega), if_neg (by omega), if_neg (by omega)]
    simp only [List.cons.injEq, ← UInt8.toNat_inj, UInt8.toNat_ofNat', and_true]
    omega
  · have hle := width_le lead
    simp only [List.length_cons] at hwidth
    omega

/-- All bytes of one character spell it. -/
theorem encode_of_isWhole (h : isWhole bytes) : String.utf8EncodeChar (Char.ofNat (codePoint bytes)) = bytes := by
  rcases bytes with _ | ⟨b, _ | ⟨second, later⟩⟩
  · cases h
  · have hb : b.toNat < 0x80 := (width_iff b).1.1 (by simpa [isWhole] using h)
    have hcode : codePoint [b] = b.toNat := rfl
    rw [hcode, String.utf8EncodeChar, toNat_ofNat (by simp [Nat.isValidChar]; omega)]
    simp; omega
  · simp only [isWhole, Bool.and_eq_true, beq_iff_eq, List.all_eq_true] at h
    exact encode_codePoint h.1.1 h.1.2 h.2

theorem isWhole_iff : isWhole bytes ↔ ∃ c, bytes = String.utf8EncodeChar c := by
  constructor
  · exact fun h => ⟨_, (encode_of_isWhole h).symm⟩
  · rintro ⟨c, rfl⟩
    exact isWhole_encode c

/-- Begins the bytes of a character, of which some are missing. -/
def Unfinished (held : Bytes) : Prop := held ≠ [] ∧ ∃ rest c, rest ≠ [] ∧ held ++ rest = String.utf8EncodeChar c

theorem exists_isSecond (lead : UInt8) : ∃ second, isSecond lead second := by
  refine ⟨if lead = 0xE0 then 0xA0 else if lead = 0xF0 then 0x90 else 0x80, (isSecond_iff _ _).2 ?_⟩
  simp only [apply_ite UInt8.toNat, ← UInt8.toNat_inj, UInt8.reduceToNat]
  repeat' split
  all_goals omega

theorem unfinished_iff : Unfinished held ↔ isBegun held := by
  constructor
  · rintro ⟨hheld, rest, c, hrest, hc⟩
    have hwhole := isWhole_encode c
    rw [← hc] at hwhole
    have hlength : 0 < rest.length := List.length_pos_iff.2 hrest
    rcases held with _ | ⟨lead, _ | ⟨second, later⟩⟩
    · exact absurd rfl hheld
    · obtain ⟨second, later, rfl⟩ := List.exists_cons_of_ne_nil hrest
      simp only [List.cons_append, List.nil_append, isWhole, Bool.and_eq_true, beq_iff_eq] at hwhole
      simp [isBegun, hwhole.1.1]
    · simp only [List.cons_append, isWhole, Bool.and_eq_true, beq_iff_eq, List.length_append, List.all_append] at hwhole
      simp only [isBegun, Bool.and_eq_true, decide_eq_true_eq]
      exact ⟨⟨by omega, hwhole.1.2⟩, hwhole.2.1⟩
  · intro h
    -- any bytes that may stand there make up for the missing ones
    have hlater : ∀ n, ∀ b ∈ List.replicate n (0x80 : UInt8), isLater b := by
      intro n b hb
      rw [List.eq_of_mem_replicate hb]
      decide
    rcases held with _ | ⟨lead, _ | ⟨second, later⟩⟩
    · cases h
    · have hwidth : 2 ≤ width lead := by simpa [isBegun] using h
      obtain ⟨second, hsecond⟩ := exists_isSecond lead
      exact ⟨by simp, second :: List.replicate (width lead - 2) 0x80, _, by simp,
        (encode_codePoint (by simp; omega) hsecond (hlater _)).symm⟩
    · simp only [isBegun, Bool.and_eq_true, decide_eq_true_eq, List.all_eq_true] at h
      have hmissing : width lead = (later ++ List.replicate (width lead - later.length - 2) 0x80).length + 2 := by
        simp; omega
      have hall : ∀ b ∈ later ++ List.replicate (width lead - later.length - 2) 0x80, isLater b := by
        intro b hb
        rcases List.mem_append.1 hb with hb | hb
        · exact h.2 b hb
        · exact hlater _ b hb
      exact ⟨by simp, _, _, by simp; omega, (encode_codePoint hmissing h.1.2 hall).symm⟩

instance (held : Bytes) : Decidable (Unfinished held) := decidable_of_iff _ unfinished_iff.symm

theorem ne_nil_of_isBegun (h : isBegun held) : held ≠ [] := by
  rintro rfl
  cases h

theorem not_isWhole_of_isBegun (h : isBegun held) : ¬ isWhole held := by
  rcases held with _ | ⟨lead, _ | ⟨second, later⟩⟩
  · cases h
  · simp only [isBegun, isWhole, beq_iff_eq, decide_eq_true_eq] at h ⊢
    omega
  · simp only [isBegun, isWhole, Bool.and_eq_true, beq_iff_eq, decide_eq_true_eq] at h ⊢
    omega

/-- The first bytes of a begun character have begun it. -/
theorem isBegun_of_append {held rest : Bytes} (hheld : held ≠ []) (h : isBegun (held ++ rest)) : isBegun held := by
  obtain ⟨-, more, c, hmore, hc⟩ := unfinished_iff.2 h
  exact unfinished_iff.1 ⟨hheld, rest ++ more, c, by simp [hmore], by rw [← hc, List.append_assoc]⟩

/-- Bytes that have not begun a character are not the first bytes of one. -/
theorem not_begun_after (hne : held ≠ []) (h : ¬ isBegun held) (hrest : rest ≠ []) :
    ¬ isWhole (held ++ rest) ∧ ¬ isBegun (held ++ rest) := by
  refine ⟨fun hwhole => h ?_, fun hbegun => h (isBegun_of_append hne hbegun)⟩
  obtain ⟨c, hc⟩ := isWhole_iff.1 hwhole
  exact unfinished_iff.1 ⟨hne, rest, c, hrest, hc⟩

/-- No byte of a character but the first begins one. -/
theorem width_of_mem_tail (h : isBegun bytes ∨ isWhole bytes) : ∀ b ∈ bytes.tail, width b = 0 := by
  rcases bytes with _ | ⟨lead, _ | ⟨second, later⟩⟩
  · simp
  · simp
  have hrest : isSecond lead second ∧ ∀ b ∈ later, isLater b := by
    simp only [isBegun, isWhole, Bool.and_eq_true, List.all_eq_true] at h
    rcases h with h | h <;> exact ⟨h.1.2, h.2⟩
  intro b hb
  have hle := width_le b
  have hwidth := width_iff b
  rcases List.mem_cons.1 hb with rfl | hb
  · have hsecond := (isSecond_iff _ _).1 hrest.1
    omega
  · have hlater := (isLater_iff _).1 (hrest.2 b hb)
    omega

/-- A character that has begun is no part of one that began before. -/
theorem not_begun_before {before : Bytes} (hbefore : before ≠ []) (h : isBegun held) :
    ¬ isBegun (before ++ held) ∧ ¬ isWhole (before ++ held) := by
  obtain ⟨lead, more, rfl⟩ := List.exists_cons_of_ne_nil (ne_nil_of_isBegun h)
  have hlead : isBegun [lead] := isBegun_of_append (List.cons_ne_nil lead []) h
  have hmem : lead ∈ (before ++ lead :: more).tail := by
    rw [List.tail_append_of_ne_nil hbefore]
    simp
  have hwidth : width lead ≠ 0 := by
    simp only [isBegun, decide_eq_true_eq] at hlead
    omega
  exact ⟨fun h => hwidth (width_of_mem_tail (.inl h) lead hmem), fun h => hwidth (width_of_mem_tail (.inr h) lead hmem)⟩

/-! ## One more byte -/

theorem step_nil (b : UInt8) : step [] b =
    if isWhole [b] then ([Char.ofNat (codePoint [b])], [])
    else if isBegun [b] then ([], [b])
    else ([replacement], []) := by
  simp only [step, begin, isWhole, isBegun, beq_iff_eq, decide_eq_true_eq]
  split
  · next hwidth => simp [hwidth]
  · next hwidth => simp [hwidth, codePoint]
  · next hzero hone =>
    have hne : width b ≠ 0 := hzero
    have hne' : width b ≠ 1 := hone
    rw [if_neg hne', if_pos (by omega)]

/-- A byte completes what has begun, goes on with it, or else begins anew after one replacement. -/
theorem step_begun (h : isBegun held) (b : UInt8) : step held b =
    if isWhole (held ++ [b]) then ([Char.ofNat (codePoint (held ++ [b]))], [])
    else if isBegun (held ++ [b]) then ([], held ++ [b])
    else (replacement :: (step [] b).1, (step [] b).2) := by
  rcases held with _ | ⟨lead, _ | ⟨second, later⟩⟩
  · cases h
  · simp only [isBegun, decide_eq_true_eq] at h
    simp only [step, isWhole, isBegun]
    rcases Nat.eq_or_lt_of_le h with hw | hw
    · by_cases hb : isSecond lead b <;> simp [hb, ← hw]
    · by_cases hb : isSecond lead b <;> simp [hb, hw.ne', hw.ne, hw]
  · simp only [isBegun, Bool.and_eq_true, decide_eq_true_eq] at h
    simp only [step, isWhole, isBegun]
    rcases Nat.eq_or_lt_of_le h.1.1 with hw | hw
    · by_cases hb : isLater b <;> simp [hb, ← hw, h]
    · by_cases hb : isLater b <;> simp [hb, hw.ne', hw.ne, hw, h]

/-! ## The front of a byte string -/

theorem front_whole (h : isWhole held) (rest : Bytes) : front (held ++ rest) = (held.length, true) := by
  rcases held with _ | ⟨lead, _ | ⟨second, later⟩⟩
  · cases h
  · simp only [isWhole, beq_iff_eq] at h
    simp [front, h]
  · simp only [isWhole, Bool.and_eq_true, beq_iff_eq, List.all_eq_true] at h
    have hle := width_le lead
    rcases later with _ | ⟨c, _ | ⟨d, _ | ⟨e, later⟩⟩⟩
    · simp_all [front]
    · simp_all [front]
    · simp_all [front]
    · simp only [List.length_cons] at h
      omega

theorem front_begun (h : isBegun held) : front held = (held.length, false) := by
  rcases held with _ | ⟨lead, _ | ⟨second, later⟩⟩
  · cases h
  · simp only [isBegun, decide_eq_true_eq] at h
    have hle := width_le lead
    have hwidth : width lead = 2 ∨ width lead = 3 ∨ width lead = 4 := by omega
    rcases hwidth with hw | hw | hw <;> simp [front, hw]
  · simp only [isBegun, Bool.and_eq_true, decide_eq_true_eq, List.all_eq_true] at h
    have hle := width_le lead
    rcases later with _ | ⟨c, _ | ⟨d, later⟩⟩
    · have hwidth : width lead = 3 ∨ width lead = 4 := by simp only [List.length_nil] at h; omega
      rcases hwidth with hw | hw <;> simp [front, hw, h]
    · have hw : width lead = 4 := by simp only [List.length_cons, List.length_nil] at h; omega
      simp [front, hw, h]
    · simp only [List.length_cons] at h
      omega

theorem front_none {b : UInt8} (hwhole : ¬ isWhole [b]) (hbegun : ¬ isBegun [b]) (rest : Bytes) :
    front (b :: rest) = (1, false) := by
  have hwidth : width b = 0 := by
    simp only [isWhole, isBegun, beq_iff_eq, decide_eq_true_eq] at hwhole hbegun
    omega
  simp [front, hwidth]

/-- What has begun ends before a byte that cannot follow. -/
theorem front_refused {b : UInt8} (h : isBegun held) (hwhole : ¬ isWhole (held ++ [b]))
    (hbegun : ¬ isBegun (held ++ [b])) (rest : Bytes) : front (held ++ b :: rest) = (held.length, false) := by
  rcases held with _ | ⟨lead, _ | ⟨second, later⟩⟩
  · cases h
  · simp only [isBegun, decide_eq_true_eq] at h
    have hb : isSecond lead b = false := by
      rw [Bool.eq_false_iff]
      intro hb
      simp [isWhole, isBegun, hb] at hwhole hbegun
      omega
    have hle := width_le lead
    have hwidth : width lead = 2 ∨ width lead = 3 ∨ width lead = 4 := by omega
    rcases hwidth with hw | hw | hw <;> rcases rest with _ | ⟨x, _ | ⟨y, rest⟩⟩ <;> simp [front, hw, hb]
  · simp only [isBegun, Bool.and_eq_true, decide_eq_true_eq, List.all_eq_true] at h
    have hb : isLater b = false := by
      rw [Bool.eq_false_iff]
      intro hb
      have hall : later.all isLater = true := List.all_eq_true.2 h.2
      simp [isWhole, isBegun, hb, h.1.2, hall] at hwhole hbegun
      omega
    have hle := width_le lead
    rcases later with _ | ⟨c, _ | ⟨d, later⟩⟩
    · have hwidth : width lead = 3 ∨ width lead = 4 := by simp only [List.length_nil] at h; omega
      rcases hwidth with hw | hw <;> rcases rest with _ | ⟨x, rest⟩ <;> simp [front, hw, h, hb]
    · have hw : width lead = 4 := by simp only [List.length_cons, List.length_nil] at h; omega
      simp [front, hw, h, hb]
    · simp only [List.length_cons] at h
      omega

/-- A character that has begun goes on as long as it can. -/
theorem front_longest_of_begun (rest : Bytes) : ∀ {held : Bytes}, isBegun held → ∃ piece later,
    held ++ rest = piece ++ later ∧ front (held ++ rest) = (piece.length, isWhole piece) ∧
      (isWhole piece ∨ isBegun piece) ∧
      ∀ more, more ≠ [] → more <+: later → ¬ isWhole (piece ++ more) ∧ ¬ isBegun (piece ++ more) := by
  induction rest with
  | nil =>
    intro held h
    have hwhole := Bool.eq_false_iff.2 (not_isWhole_of_isBegun h)
    refine ⟨held, [], rfl, by rw [List.append_nil, front_begun h, hwhole], .inr h, fun more hmore hprefix => ?_⟩
    exact absurd (List.prefix_nil.1 hprefix) hmore
  | cons b rest ih =>
    intro held h
    rw [List.append_cons]
    by_cases hwhole : isWhole (held ++ [b])
    · refine ⟨held ++ [b], rest, rfl, by rw [front_whole hwhole, hwhole], .inl hwhole, fun more hmore _ => ?_⟩
      exact not_begun_after (by simp) (fun hbegun => not_isWhole_of_isBegun hbegun hwhole) hmore
    · by_cases hbegun : isBegun (held ++ [b])
      · exact ih hbegun
      · have hnot := Bool.eq_false_iff.2 (not_isWhole_of_isBegun h)
        refine ⟨held, b :: rest, List.append_assoc .., ?_, .inr h, fun more hmore hprefix => ?_⟩
        · rw [List.append_assoc, List.singleton_append, front_refused h hwhole hbegun, hnot]
        · -- anything longer goes on with the byte that was refused
          obtain ⟨first, more, rfl⟩ := List.exists_cons_of_ne_nil hmore
          obtain ⟨rfl, -⟩ := List.cons_prefix_cons.1 hprefix
          rw [List.append_cons]
          rcases eq_or_ne more [] with rfl | hmore
          · exact ⟨by rwa [List.append_nil], by rwa [List.append_nil]⟩
          · exact not_begun_after (by simp) hbegun hmore

/-- The front is a character, or the first bytes of one, or a byte that begins none; and nothing longer is or
begins a character. -/
theorem front_longest (b : UInt8) (rest : Bytes) : ∃ piece later, b :: rest = piece ++ later ∧
    front (b :: rest) = (piece.length, isWhole piece) ∧ (isWhole piece ∨ isBegun piece ∨ piece = [b]) ∧
    ∀ more, more ≠ [] → more <+: later → ¬ isWhole (piece ++ more) ∧ ¬ isBegun (piece ++ more) := by
  by_cases hbegun : isBegun [b]
  · obtain ⟨piece, later, hsplit, hfront, hpiece, hlonger⟩ := front_longest_of_begun rest hbegun
    exact ⟨piece, later, hsplit, hfront, hpiece.imp_right .inl, hlonger⟩
  · refine ⟨[b], rest, rfl, ?_, .inr (.inr rfl), fun more hmore _ => not_begun_after (by simp) hbegun hmore⟩
    by_cases hwhole : isWhole [b]
    · rw [hwhole]
      exact front_whole hwhole rest
    · rw [Bool.eq_false_iff.2 hwhole]
      exact front_none hwhole hbegun rest

/-! ## At once -/

theorem lossyFrom_eq (skip : Nat) (bytes : Bytes) : lossyFrom skip bytes = lossy (bytes.drop skip) := by
  induction skip generalizing bytes with
  | zero => rfl
  | succ skip ih =>
    cases bytes with
    | nil => rfl
    | cons b rest => exact ih rest

theorem lossy_of_front {whole : Bool} (hheld : held ≠ []) (h : front (held ++ rest) = (held.length, whole)) :
    lossy (held ++ rest) = (if whole then Char.ofNat (codePoint held) else replacement) :: lossy rest := by
  obtain ⟨b, more, rfl⟩ := List.exists_cons_of_ne_nil hheld
  rw [List.cons_append] at h ⊢
  rw [lossy, lossyFrom, h]
  simp [lossyFrom_eq]

/-- One replacement stands for an incomplete character that the end cuts off. -/
theorem finish_begun (h : isBegun held) : finish held = [replacement] := by
  have hne := ne_nil_of_isBegun h
  have hfront : front (held ++ []) = (held.length, false) := by rw [List.append_nil, front_begun h]
  have hread := lossy_of_front hne hfront
  rw [List.append_nil] at hread
  rw [finish, if_neg (by simpa using hne), hread]
  rfl

/-- A byte string is read at once piece by piece from the front. A piece is a character, or it is replaced: then
it is the first bytes of a character, or a byte that begins none, and no longer piece is or begins a character. -/
theorem lossy_eq_cons (h : bytes ≠ []) : ∃ piece later c, bytes = piece ++ later ∧
    lossy bytes = c :: lossy later ∧ (String.utf8EncodeChar c = piece ∨
      c = replacement ∧ (Unfinished piece ∨ piece.length = 1) ∧
        ∀ more, more <+: later → (more ≠ [] → ¬ Unfinished (piece ++ more)) ∧
          ∀ other, piece ++ more ≠ String.utf8EncodeChar other) := by
  obtain ⟨b, rest, rfl⟩ := List.exists_cons_of_ne_nil h
  obtain ⟨piece, later, hsplit, hfront, hpiece, hlonger⟩ := front_longest b rest
  have hne : piece ≠ [] := by
    rintro rfl
    simp [isWhole, isBegun] at hpiece
  rw [hsplit] at hfront ⊢
  refine ⟨piece, later, _, rfl, lossy_of_front hne hfront, ?_⟩
  by_cases hwhole : isWhole piece
  · left
    rw [if_pos hwhole, encode_of_isWhole hwhole]
  · refine .inr ⟨if_neg hwhole, ?_, fun more hmore => ⟨fun hne hbegun => ?_, fun other hother => ?_⟩⟩
    · rcases hpiece.resolve_left hwhole with hbegun | rfl
      · exact .inl (unfinished_iff.2 hbegun)
      · exact .inr rfl
    · exact (hlonger more hne hmore).2 (unfinished_iff.1 hbegun)
    · rcases eq_or_ne more [] with rfl | hne
      · exact hwhole (isWhole_iff.2 ⟨other, by rw [← hother, List.append_nil]⟩)
      · exact (hlonger more hne hmore).1 (isWhole_iff.2 ⟨other, hother⟩)

/-- Bytes kept and the bytes after them are read at once as they are piece by piece. -/
theorem lossy_append (rest : Bytes) : ∀ {held : Bytes}, held = [] ∨ isBegun held →
    lossy (held ++ rest) = (push held rest).1 ++ finish (push held rest).2 := by
  induction rest with
  | nil =>
    rintro held (rfl | hheld)
    · rfl
    · simp [finish, ne_nil_of_isBegun hheld]
  | cons b rest ih =>
    have hrest : lossy rest = (push [] rest).1 ++ finish (push [] rest).2 := ih (.inl rfl)
    have hnone : lossy (b :: rest) = (push [] (b :: rest)).1 ++ finish (push [] (b :: rest)).2 := by
      rw [push_cons, step_nil]
      split
      · next hwhole =>
        rw [← List.singleton_append, lossy_of_front (by simp) (front_whole hwhole rest), hrest]
        rfl
      · next hwhole =>
        split
        · next hbegun => exact ih (.inr hbegun)
        · next hbegun =>
          have hfront : front ([b] ++ rest) = ([b].length, false) := front_none hwhole hbegun rest
          rw [← List.singleton_append, lossy_of_front (by simp) hfront, hrest]
          rfl
    rintro held (rfl | hheld)
    · exact hnone
    · rw [push_cons, step_begun hheld]
      split
      · next hwhole =>
        rw [List.append_cons, lossy_of_front (by simp) (front_whole hwhole rest), hrest]
        rfl
      · next hwhole =>
        split
        · next hbegun =>
          rw [List.append_cons]
          exact ih (.inr hbegun)
        · next hbegun =>
          -- the byte is refused, and is read as if nothing were kept
          rw [lossy_of_front (ne_nil_of_isBegun hheld) (front_refused hheld hwhole hbegun rest), hnone, push_cons]
          rfl

/-! ## What is kept -/

theorem step_kept (hheld : held = [] ∨ isBegun held) (b : UInt8) :
    ((step held b).2 = [] ∨ isBegun (step held b).2) ∧ (step held b).2 <:+ held ++ [b] := by
  have hnone : ((step [] b).2 = [] ∨ isBegun (step [] b).2) ∧ (step [] b).2 <:+ [b] := by
    rw [step_nil]
    split
    · simp
    · split
      · next h => simp [h]
      · simp
  rcases hheld with rfl | hheld
  · exact hnone
  · rw [step_begun hheld]
    split
    · simp
    · split
      · next h => simp [h]
      · exact ⟨hnone.1, hnone.2.trans (List.suffix_append _ _)⟩

/-- Nothing is kept, or the last bytes, which have begun a character. -/
theorem push_kept (rest : Bytes) : ∀ {held : Bytes}, held = [] ∨ isBegun held →
    ((push held rest).2 = [] ∨ isBegun (push held rest).2) ∧ (push held rest).2 <:+ held ++ rest := by
  induction rest with
  | nil =>
    intro held hheld
    simpa using hheld
  | cons b rest ih =>
    intro held hheld
    obtain ⟨hstep, before, hbefore⟩ := step_kept hheld b
    obtain ⟨hkept, hsuffix⟩ := ih hstep
    rw [push_cons]
    refine ⟨hkept, hsuffix.trans ⟨before, ?_⟩⟩
    rw [← List.append_assoc, hbefore, List.append_assoc, List.singleton_append]

/-- Bytes that go on with a character and do not complete it. -/
theorem push_begun (rest : Bytes) : ∀ {held : Bytes}, held ≠ [] → isBegun (held ++ rest) →
    push held rest = ([], held ++ rest) := by
  induction rest with
  | nil => simp
  | cons b rest ih =>
    intro held hheld h
    have hnext : isBegun (held ++ [b] ++ rest) := by rwa [List.append_assoc, List.singleton_append]
    have hb := isBegun_of_append (by simp) hnext
    rw [push_cons, step_begun (isBegun_of_append hheld h), if_neg (not_isWhole_of_isBegun hb), if_pos hb,
      ih (by simp) hnext]
    simp

/-- A character that has begun replaces whatever was kept. -/
theorem push_unfinished (hheld : held = [] ∨ isBegun held) (h : isBegun bytes) :
    push held bytes = (finish held, bytes) := by
  obtain ⟨lead, more, rfl⟩ := List.exists_cons_of_ne_nil (ne_nil_of_isBegun h)
  have hlead : isBegun [lead] := isBegun_of_append (List.cons_ne_nil lead []) h
  have hbegin : step [] lead = ([], [lead]) := by
    rw [step_nil, if_neg (not_isWhole_of_isBegun hlead), if_pos hlead]
  have hstep : step held lead = (finish held, [lead]) := by
    rcases hheld with rfl | hheld
    · exact hbegin
    · have hne := ne_nil_of_isBegun hheld
      obtain ⟨hbegun, hwhole⟩ := not_begun_before hne hlead
      rw [step_begun hheld, if_neg hwhole, if_neg hbegun, hbegin, finish_begun hheld]
  rw [push_cons, hstep, push_begun more (by simp) h, List.append_nil]
  rfl

/-- The unfinished character that a byte string ends in, if it ends in one. -/
def unfinished (bytes : Bytes) : Bytes := (bytes.tails.find? fun held => Unfinished held).getD []

/-- The text of a byte string that may go on: an unfinished character at its end is left out. -/
def settled (bytes : Bytes) : List Char := lossy (bytes.rdrop (unfinished bytes).length)

theorem unfinished_append (before : Bytes) (h : isBegun held) : unfinished (before ++ held) = held := by
  unfold unfinished
  induction before with
  | nil =>
    obtain ⟨lead, more, rfl⟩ := List.exists_cons_of_ne_nil (ne_nil_of_isBegun h)
    simp [unfinished_iff, h]
  | cons b before ih =>
    have hnot : ¬ isBegun (b :: (before ++ held)) := (not_begun_before (List.cons_ne_nil b before) h).1
    rw [List.cons_append, List.tails_cons, List.find?_cons_of_neg (by simpa [unfinished_iff] using hnot)]
    exact ih

theorem unfinished_eq_nil (h : ∀ held, held <:+ bytes → ¬ isBegun held) : unfinished bytes = [] := by
  have hnone : (bytes.tails.find? fun held => Unfinished held) = none := by
    refine List.find?_eq_none.2 fun held hheld => ?_
    simpa [unfinished_iff] using h held ((List.mem_tails _ _).1 hheld)
  rw [unfinished, hnone]
  rfl

/-- A byte string leaves the unfinished character that it ends in, and gives the text before that. -/
theorem push_eq (bytes : Bytes) : push [] bytes = (settled bytes, unfinished bytes) := by
  by_cases h : ∃ held, held <:+ bytes ∧ isBegun held
  · obtain ⟨held, ⟨before, rfl⟩, hheld⟩ := h
    have hread : lossy before = (push [] before).1 ++ finish (push [] before).2 := lossy_append before (.inl rfl)
    have hkept := (push_kept before (.inl rfl)).1
    rw [settled, unfinished_append before hheld, List.rdrop_append_length, hread, push_append,
      push_unfinished hkept hheld]
  · have hnone : ∀ held, held <:+ bytes → ¬ isBegun held := fun held hsuffix hheld => h ⟨held, hsuffix, hheld⟩
    have hread : lossy bytes = (push [] bytes).1 ++ finish (push [] bytes).2 := lossy_append bytes (.inl rfl)
    obtain ⟨hkept, hsuffix⟩ := push_kept bytes (.inl rfl)
    have hnil : (push [] bytes).2 = [] := hkept.resolve_right (hnone _ hsuffix)
    rw [hnil] at hread
    rw [settled, unfinished_eq_nil hnone, List.length_nil, List.rdrop_zero, hread]
    exact Prod.ext (List.append_nil _).symm hnil

end ModelStream.Text.Utf8
