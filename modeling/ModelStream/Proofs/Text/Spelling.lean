/-
What a byte string spells. Characters are spelled by their bytes; of the rest, each longest piece that could
still have begun a character stands for one replacement. Every byte string spells exactly one text, which is
its text at once (`spells_iff`). Bytes that come in chunks are read as the text that all of them spell, wherever
they are cut, and what is kept between two chunks is at most three bytes of one unfinished character
(`spells_chunks`). Nor does it matter that a chunk is read stretch by stretch, as far as it is text, and not byte
by byte (`decode_append`).
-/
import ModelStream.Proofs.Text.Lossy

namespace ModelStream.Text.Utf8

variable {piece rest bytes : Bytes} {text : List Char}

/-! ## The text of a byte string -/

/-- The front of a byte string is no character: it begins one, or is a single byte that begins none. With more of
what follows it is neither a character nor the beginning of one. -/
structure Broken (piece rest : Bytes) : Prop where
  begins : Unfinished piece ∨ piece.length = 1
  longest : ∀ more, more <+: rest →
    (more ≠ [] → ¬ Unfinished (piece ++ more)) ∧ ∀ c, piece ++ more ≠ String.utf8EncodeChar c

inductive Spells : Bytes → List Char → Prop
  | nil : Spells [] []
  | char (c : Char) {rest : Bytes} {text : List Char} (h : Spells rest text) :
    Spells (String.utf8EncodeChar c ++ rest) (c :: text)
  | broken {piece rest : Bytes} {text : List Char} (hpiece : Broken piece rest) (h : Spells rest text) :
    Spells (piece ++ rest) (replacement :: text)

theorem encode_ne_nil (c : Char) : String.utf8EncodeChar c ≠ [] := by
  intro h
  have hwhole := isWhole_encode c
  rw [h] at hwhole
  cases hwhole

theorem encode_injective {c other : Char} (h : String.utf8EncodeChar c = String.utf8EncodeChar other) : c = other := by
  have hread := push_char c
  rw [h, push_char other] at hread
  simpa using hread.symm

theorem lossy_encode (c : Char) (rest : Bytes) : lossy (String.utf8EncodeChar c ++ rest) = c :: lossy rest := by
  have hwhole := isWhole_encode c
  rw [lossy_of_front (encode_ne_nil c) (front_whole hwhole rest), if_pos rfl,
    encode_injective (encode_of_isWhole hwhole)]

namespace Broken

theorem ne_nil (h : Broken piece rest) : piece ≠ [] := by
  rintro rfl
  rcases h.begins with hbegun | hlength
  · exact hbegun.1 rfl
  · cases hlength

/-- A broken piece is the front of the byte string, and no character. -/
theorem front_eq (h : Broken piece rest) : front (piece ++ rest) = (piece.length, false) := by
  obtain ⟨b, more, hcons⟩ := List.exists_cons_of_ne_nil (l := piece ++ rest) (by simp [h.ne_nil])
  obtain ⟨other, later, hsplit, hfront, hother, hlonger⟩ := front_longest b more
  rw [← hcons] at hsplit hfront
  -- the front is no shorter and no longer than the piece
  have heq : other = piece := by
    rcases List.prefix_or_prefix_of_prefix (List.prefix_append piece rest) (hsplit ▸ List.prefix_append other later) with
      ⟨more, rfl⟩ | ⟨more, rfl⟩
    · rw [List.append_assoc, List.append_cancel_left_eq] at hsplit
      obtain ⟨hbegun, hchar⟩ := h.longest more ⟨later, hsplit.symm⟩
      by_contra hne
      have hmore : more ≠ [] := by simpa using hne
      rcases hother with hwhole | hother | hone
      · obtain ⟨c, hc⟩ := isWhole_iff.1 hwhole
        exact hchar c hc
      · exact hbegun hmore (unfinished_iff.2 hother)
      · have hlength := congrArg List.length hone
        have hpiece := List.length_pos_iff.2 h.ne_nil
        have hlater := List.length_pos_iff.2 hmore
        simp only [List.length_append, List.length_singleton] at hlength
        omega
    · rw [List.append_assoc, List.append_cancel_left_eq] at hsplit
      by_contra hne
      have hmore : more ≠ [] := by simpa using hne
      rcases h.begins with hbegun | hlength
      · exact (hlonger more hmore ⟨rest, hsplit⟩).2 (unfinished_iff.1 hbegun)
      · have hother : other ≠ [] := by
          rintro rfl
          simp [isWhole, isBegun] at hother
        have hlonger := List.length_pos_iff.2 hmore
        have hpos := List.length_pos_iff.2 hother
        simp only [List.length_append] at hlength
        omega
  have hnot : isWhole piece = false := by
    rw [Bool.eq_false_iff]
    intro hwhole
    obtain ⟨c, hc⟩ := isWhole_iff.1 hwhole
    exact (h.longest [] List.nil_prefix).2 c (by rw [List.append_nil, hc])
  rw [hfront, heq, hnot]

end Broken

theorem spells_lossy (bytes : Bytes) : Spells bytes (lossy bytes) := by
  induction hlength : bytes.length using Nat.strong_induction_on generalizing bytes with
  | _ n ih =>
    rcases eq_or_ne bytes [] with rfl | hne
    · exact .nil
    obtain ⟨piece, later, c, rfl, hread, hpiece⟩ := lossy_eq_cons hne
    have hlater : piece ≠ [] → later.length < n := by
      intro hpiece
      have hpos := List.length_pos_iff.2 hpiece
      rw [List.length_append] at hlength
      omega
    rw [hread]
    rcases hpiece with rfl | ⟨rfl, hbegins, hlongest⟩
    · exact .char c (ih _ (hlater (encode_ne_nil c)) later rfl)
    · have hbroken : Broken piece later := ⟨hbegins, hlongest⟩
      exact .broken hbroken (ih _ (hlater hbroken.ne_nil) later rfl)

/-- A byte string spells one text, whatever pieces it is taken apart into. -/
theorem spells_iff : Spells bytes text ↔ text = lossy bytes := by
  constructor
  · intro h
    induction h with
    | nil => rfl
    | char c h ih => rw [lossy_encode, ih]
    | broken hpiece h ih => rw [lossy_of_front hpiece.ne_nil hpiece.front_eq, ih]; rfl
  · rintro rfl
    exact spells_lossy bytes

/-! ## Stretch by stretch -/

theorem decode?_bytesOf (s : String) : decode? (bytesOf s) = some s := by
  have hbytes : (⟨(bytesOf s).toArray⟩ : ByteArray) = s.toByteArray := by
    rw [bytesOf, toList_eq]
    rfl
  have hvalid : ByteArray.IsValidUTF8 ⟨(bytesOf s).toArray⟩ := hbytes ▸ s.isValidUTF8
  rw [decode?, String.fromUTF8?, dif_pos hvalid, Option.some_inj]
  exact String.toByteArray_inj.1 hbytes

theorem bytesOf_of_decode? {s : String} (h : decode? bytes = some s) : bytesOf s = bytes := by
  simp only [decode?, String.fromUTF8?] at h
  split at h
  · cases h
    rw [bytesOf, toList_eq]
    rfl
  · cases h

theorem validFrom_eq (skip : Nat) (bytes : Bytes) :
    validFrom skip bytes = min skip bytes.length + validUpTo (bytes.drop skip) := by
  induction skip generalizing bytes with
  | zero => simp [validUpTo]
  | succ skip ih =>
    cases bytes with
    | nil => simp [validFrom, validUpTo]
    | cons b rest =>
      rw [validFrom, ih, List.drop_succ_cons, List.length_cons]
      omega

theorem validUpTo_of_front {whole : Bool} (hpiece : piece ≠ []) (h : front (piece ++ rest) = (piece.length, whole)) :
    validUpTo (piece ++ rest) = if whole then piece.length + validUpTo rest else 0 := by
  obtain ⟨b, more, rfl⟩ := List.exists_cons_of_ne_nil hpiece
  rw [List.cons_append] at h ⊢
  rw [validUpTo, validFrom, h]
  simp [validFrom_eq]
  grind

theorem validUpTo_bytesOf (s : String) : validUpTo (bytesOf s) = (bytesOf s).length := by
  rw [bytesOf_eq]
  induction s.toList with
  | nil => rfl
  | cons c cs ih =>
    rw [List.flatMap_cons, validUpTo_of_front (encode_ne_nil c) (front_whole (isWhole_encode c) _), if_pos rfl, ih,
      List.length_append]

/-- The valid stretch at the front is a text, and what follows begins with no character. -/
theorem exists_stretch (bytes : Bytes) : ∃ text after, bytes = bytesOf text ++ after ∧
    validUpTo bytes = (bytesOf text).length ∧ (after ≠ [] → (front after).2 = false) := by
  induction hlength : bytes.length using Nat.strong_induction_on generalizing bytes with
  | _ n ih =>
    rcases bytes with _ | ⟨b, rest⟩
    · exact ⟨"", [], by simp [bytesOf_eq], by simp [bytesOf_eq, validUpTo, validFrom], fun h => absurd rfl h⟩
    obtain ⟨piece, later, hsplit, hfront, hpiece, -⟩ := front_longest b rest
    have hne : piece ≠ [] := by
      rintro rfl
      simp [isWhole, isBegun] at hpiece
    rw [hsplit] at hfront hlength ⊢
    rw [validUpTo_of_front hne hfront]
    by_cases hwhole : isWhole piece
    · obtain ⟨c, rfl⟩ := isWhole_iff.1 hwhole
      have hpos := List.length_pos_iff.2 hne
      obtain ⟨text, after, rfl, hvalid, hafter⟩ :=
        ih later.length (by rw [List.length_append] at hlength; omega) later rfl
      refine ⟨String.singleton c ++ text, after, ?_, ?_, hafter⟩
      · simp [bytesOf_eq]
      · rw [if_pos hwhole, hvalid]
        simp [bytesOf_eq]
    · refine ⟨"", piece ++ later, by simp [bytesOf_eq], ?_, fun _ => ?_⟩
      · rw [if_neg hwhole]
        simp [bytesOf_eq]
      · rw [hfront]
        exact Bool.eq_false_iff.2 hwhole

/-- What follows a valid stretch is an unfinished character at the end, or its front is replaced. -/
theorem push_broken (hne : bytes ≠ []) (h : (front bytes).2 = false) : push [] bytes =
    match errorLength? bytes with
    | none => ([], bytes)
    | some n => (replacement :: (push [] (bytes.drop n)).1, (push [] (bytes.drop n)).2) := by
  obtain ⟨b, rest, rfl⟩ := List.exists_cons_of_ne_nil hne
  obtain ⟨piece, later, hsplit, hfront, hpiece, hlonger⟩ := front_longest b rest
  have hwhole : ¬ isWhole piece := by
    rw [hfront] at h
    exact Bool.eq_false_iff.1 h
  have hlength : rest.length + 1 = piece.length + later.length := by
    rw [← List.length_append, ← hsplit, List.length_cons]
  by_cases hbegun : isBegun piece
  · have hwidth : 2 ≤ width b := by
      obtain ⟨first, more, rfl⟩ := List.exists_cons_of_ne_nil (ne_nil_of_isBegun hbegun)
      obtain ⟨rfl, -⟩ := List.cons.inj hsplit
      have hfirst : isBegun [b] := isBegun_of_append (List.cons_ne_nil b []) hbegun
      simpa [isBegun] using hfirst
    simp only [errorLength?, hfront, hwidth, hlength]
    cases later with
    | nil => simpa [hsplit, finish] using push_unfinished (.inl rfl) hbegun
    | cons next more =>
      -- the byte that ends the piece is read as if nothing were kept
      obtain ⟨hnot, hstop⟩ := hlonger [next] (List.cons_ne_nil next []) ⟨more, rfl⟩
      rw [hsplit, push_append, push_unfinished (.inl rfl) hbegun, push_cons, step_begun hbegun, if_neg hnot,
        if_neg hstop]
      simp [finish, push_cons]
  · obtain rfl : piece = [b] := (hpiece.resolve_left hwhole).resolve_left hbegun
    have hwidth : ¬ 2 ≤ width b := by simpa [isBegun] using hbegun
    rw [push_cons, step_nil, if_neg hwhole, if_neg hbegun]
    simp [errorLength?, hfront, hwidth]

/-- Reading stretch by stretch is reading piece by piece. -/
theorem decode_eq (bytes : Bytes) : decode bytes = push [] bytes := by
  induction hlength : bytes.length using Nat.strong_induction_on generalizing bytes with
  | _ n ih =>
    obtain ⟨text, after, rfl, hvalid, hafter⟩ := exists_stretch bytes
    rw [decode, push_append, push_bytesOf]
    rcases eq_or_ne after [] with rfl | hne
    · simp [decode?_bytesOf]
    have hnot : decode? (bytesOf text ++ after) = none := by
      rw [Option.eq_none_iff_forall_not_mem]
      intro s hs
      have hall := validUpTo_bytesOf s
      rw [bytesOf_of_decode? hs, hvalid, List.length_append] at hall
      have hpos := List.length_pos_iff.2 hne
      omega
    have hbroken := push_broken hne (hafter hne)
    simp only [hnot, hvalid, List.take_left, List.drop_left, decode?_bytesOf, Option.getD_some]
    split
    · next herror =>
      rw [hvalid, List.drop_left] at herror
      simp only [herror] at hbroken
      rw [hbroken, List.append_nil]
    · next length herror =>
      rw [hvalid, List.drop_left] at herror
      obtain ⟨hpos, hlong⟩ := errorLength?_pos herror
      have hshorter : (after.drop length).length < n := by
        rw [List.length_drop, ← hlength, List.length_append]
        omega
      simp only [herror] at hbroken
      rw [hbroken, ih _ hshorter _ rfl]

/-- Bytes kept go before the bytes of the next piece. -/
theorem decode_append {held : Bytes} (hheld : held = [] ∨ isBegun held) (piece : Bytes) :
    decode (held ++ piece) = push held piece := by
  have hkept : push [] held = ([], held) := by
    rcases hheld with rfl | hbegun
    · rfl
    · exact push_unfinished (.inl rfl) hbegun
  rw [decode_eq, push_append, hkept, List.nil_append]

/-! ## Bytes in chunks -/

/-- The characters that chunks complete, one after the other, and the bytes kept after the last. -/
def pushAll (held : Bytes) : List Bytes → List Char × Bytes
  | [] => ([], held)
  | chunk :: more =>
    let (cs, held) := push held chunk
    let (later, held) := pushAll held more
    (cs ++ later, held)

/-- Chunks are read as one piece. -/
theorem pushAll_eq (chunks : List Bytes) (held : Bytes) : pushAll held chunks = push held chunks.flatten := by
  induction chunks generalizing held with
  | nil => rfl
  | cons chunk more ih =>
    rw [List.flatten_cons, push_append]
    simp only [pushAll, ih]

theorem length_le_of_unfinished {held : Bytes} (h : Unfinished held) : held.length ≤ 3 := by
  have hbegun := unfinished_iff.1 h
  rcases held with _ | ⟨lead, _ | ⟨second, later⟩⟩
  · simp
  · simp
  · have hle := width_le lead
    simp only [isBegun, Bool.and_eq_true, decide_eq_true_eq] at hbegun
    simp only [List.length_cons]
    omega

/-- However bytes are cut into chunks, the characters that the chunks complete, with what the end makes of the
bytes kept, are the text that all the bytes spell; and after each chunk the bytes kept are none, or the last of
those read so far, which begin a character and do not complete it. -/
theorem spells_chunks (chunks : List Bytes) :
    (∀ text, Spells chunks.flatten text ↔ text = (pushAll [] chunks).1 ++ finish (pushAll [] chunks).2) ∧
      (pushAll [] chunks).1 ++ finish (pushAll [] chunks).2 = lossy chunks.flatten ∧
      ∀ n, (pushAll [] (chunks.take n)).2 = [] ∨
        Unfinished (pushAll [] (chunks.take n)).2 ∧ (pushAll [] (chunks.take n)).2.length ≤ 3 ∧
          (pushAll [] (chunks.take n)).2 <:+ (chunks.take n).flatten := by
  have hread : lossy chunks.flatten = (pushAll [] chunks).1 ++ finish (pushAll [] chunks).2 := by
    rw [pushAll_eq]
    exact lossy_append chunks.flatten (.inl rfl)
  refine ⟨fun text => by rw [spells_iff, hread], hread.symm, fun n => ?_⟩
  rw [pushAll_eq]
  obtain ⟨hkept, hsuffix⟩ := push_kept (chunks.take n).flatten (.inl rfl)
  refine hkept.imp_right fun hbegun => ?_
  have hunfinished := unfinished_iff.2 hbegun
  exact ⟨hunfinished, length_le_of_unfinished hunfinished, hsuffix⟩

/-- A character cut after its second byte, one that a letter breaks off, the bytes of a surrogate and of an
overlong spelling, and a character that the end breaks off. -/
example : pushAll [] [[0xE2, 0x82], [0xAC, 0xF0, 0x9F], [0x41, 0xED, 0xA0, 0x80, 0xC0], [0x80, 0xF0, 0x9F, 0x98]] =
    ("€\uFFFDA\uFFFD\uFFFD\uFFFD\uFFFD\uFFFD".toList, [0xF0, 0x9F, 0x98]) := by decide

end ModelStream.Text.Utf8
