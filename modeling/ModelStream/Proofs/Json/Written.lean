/-
The text of a value read back. A string is read as it was, whichever of its characters are escaped, and so is an
integer of 64 bits before a mark or the end. So the text of a value with no other numbers has the tokens of the
value (`tokens_write`), and the tree that is built from these is the value's own (`Document.ofText_render`).
-/
import ModelStream.Json.Printer
import ModelStream.Proofs.Json.Numbers

namespace ModelStream.Json

open Text (digit? hexDigit?)

/-! ## Texts between tokens -/

/-- The tokens of a text that begins between two tokens. -/
def Yields (text : List Char) (ts : List Token) : Prop :=
  ∀ before, (text.foldl Lexer.step { tokens := before }).finish.tokens = ts.reverse ++ before

theorem Yields.tokens_eq {text : List Char} {ts : List Token} (h : Yields text ts) : tokens text = ts := by
  rw [tokens, h [], List.append_nil, List.reverse_reverse]

theorem yields_nil : Yields [] [] := fun _ => rfl

variable {rest : List Char} {ts : List Token}

/-- A part that ends as if its token had been there already. -/
theorem Yields.part {part : List Char} {t : Token} (h : Yields rest ts)
    (hpart : ∀ before, ((part ++ rest).foldl Lexer.step { tokens := before }).finish =
      (rest.foldl Lexer.step { tokens := t :: before }).finish) : Yields (part ++ rest) (t :: ts) := by
  intro before
  rw [hpart before, h (t :: before), List.reverse_cons, List.append_assoc, List.singleton_append]

/-- A part that is one token whatever follows. -/
theorem Yields.whole (h : Yields rest ts) (part : List Char) {t : Token}
    (hpart : ∀ before, part.foldl Lexer.step { tokens := before } = { tokens := t :: before }) :
    Yields (part ++ rest) (t :: ts) :=
  h.part fun before => by rw [List.foldl_append, hpart before]

/-! ## Strings -/

theorem hexDigit?_hexDigit : ∀ n < 16, hexDigit? (hexDigit n) = some n ∧ (hexDigit n).utf8Size = 1 := by decide

theorem pushUnit_control {n : Nat} (h : n < 0x20) (chars : List Char) :
    TextSoFar.pushUnit { chars } n = { chars := Char.ofNat n :: chars } := by
  have htrailing : ¬ 0xDC00 ≤ n := by omega
  have hleading : ¬ 0xD800 ≤ n := by omega
  simp [TextSoFar.pushUnit, TextSoFar.push, htrailing, hleading]

/-- The four digits of a control are read as its number. -/
theorem foldl_control {n : Nat} (h : n < 0x20) (before : List Token) (chars : List Char) :
    ['\\', 'u', '0', '0', hexDigit (n / 16), hexDigit (n % 16)].foldl Lexer.step ⟨before, .text .plain { chars }⟩ =
      ⟨before, .text .plain { chars := Char.ofNat n :: chars }⟩ := by
  obtain ⟨hhigh, hhighSize⟩ := hexDigit?_hexDigit (n / 16) (by omega)
  obtain ⟨hlow, hlowSize⟩ := hexDigit?_hexDigit (n % 16) (by omega)
  have hzero : hexDigit? '0' = some 0 ∧ '0'.utf8Size = 1 := by decide
  have hsum : n / 16 * 16 + n % 16 = n := by omega
  simp [Lexer.step, Lexer.stepText, Lexer.enter, hzero, hhigh, hhighSize, hlow, hlowSize, hsum, pushUnit_control h]

/-- An escaped character is read as the character. -/
theorem foldl_escape (c : Char) (before : List Token) (chars : List Char) :
    (escape c).foldl Lexer.step ⟨before, .text .plain { chars }⟩ = ⟨before, .text .plain { chars := c :: chars }⟩ := by
  have hchar : Char.ofNat c.toNat = c := Char.ofNat_toNat c
  unfold escape
  split_ifs with hquote hsolidus hcontrol hline hreturn htab hback hfeed
  · rw [beq_iff_eq.1 hquote]; rfl
  · rw [beq_iff_eq.1 hsolidus]; rfl
  · rw [beq_iff_eq.1 hline]; rfl
  · rw [beq_iff_eq.1 hreturn]; rfl
  · rw [beq_iff_eq.1 htab]; rfl
  · rw [← hchar, beq_iff_eq.1 hback]; rfl
  · rw [← hchar, beq_iff_eq.1 hfeed]; rfl
  · rw [foldl_control hcontrol, hchar]
  · simp [Lexer.step, Lexer.stepText, Lexer.enter, hquote, hsolidus, hcontrol, TextSoFar.settle, TextSoFar.push]

theorem foldl_escapes (cs : List Char) (before : List Token) (chars : List Char) :
    (cs.flatMap escape).foldl Lexer.step ⟨before, .text .plain { chars }⟩ =
      ⟨before, .text .plain { chars := cs.reverse ++ chars }⟩ := by
  induction cs generalizing chars with
  | nil => rfl
  | cons c more ih =>
    rw [List.flatMap_cons, List.foldl_append, foldl_escape, ih, List.reverse_cons, List.append_assoc,
      List.singleton_append]

/-- A string in quotes is read as the string. -/
theorem Yields.quote (h : Yields rest ts) (s : String) : Yields (quote s rest) (.scalar (.text (some s)) :: ts) := by
  have hsplit : Json.quote s rest = ('"' :: (s.toList.flatMap escape ++ ['"'])) ++ rest := by simp [Json.quote]
  rw [hsplit]
  refine h.whole _ fun before => ?_
  have hopen : Lexer.step { tokens := before } '"' = ⟨before, .text .plain { chars := [] }⟩ := rfl
  rw [List.foldl_cons, hopen, List.foldl_append, foldl_escapes]
  have hclose : Lexer.step ⟨before, .text .plain { chars := s.toList.reverse ++ [] }⟩ '"' =
      { tokens := .scalar (.text (some (String.ofList (s.toList.reverse ++ []).reverse))) :: before } := rfl
  rw [List.foldl_cons, hclose, List.foldl_nil]
  simp

/-! ## Integers -/

theorem digit?_digitChar : ∀ d < 10, digit? (Nat.digitChar d) = some d := by decide

theorem ofDigits_concat (ds : List Nat) (d : Nat) : ofDigits (ds ++ [d]) = ofDigits ds * 10 + d := by
  rw [ofDigits, List.foldl_append]
  rfl

/-- Where the digits of a number end. -/
def Numeral.Place.after (n : Nat) : Numeral.Place := if n = 0 then .zero else .whole

/-- The digits of a number are read as they are, if the first one begins a numeral. -/
theorem foldl_toDigits (negative : Bool) (x : Lexer) (n : Nat)
    (hfirst : ∀ d < 10, x.step (Nat.digitChar d) = x.enter (.numeral (.after d) { negative, whole := [d] })) :
    ∃ whole, (Nat.toDigits 10 n).foldl Lexer.step x = x.enter (.numeral (.after n) { negative, whole }) ∧
      ofDigits whole.reverse = n := by
  induction n using Nat.strongRecOn with
  | ind n ih =>
    -- the last digit comes after those of the tenth part, which are the induction hypothesis
    by_cases hone : n < 10
    · refine ⟨[n], ?_, by simp [ofDigits]⟩
      rw [Nat.toDigits_of_lt_base hone, List.foldl_cons, List.foldl_nil, hfirst n hone]
    · obtain ⟨whole, hread, hvalue⟩ := ih (n / 10) (by omega)
      refine ⟨n % 10 :: whole, ?_, by rw [List.reverse_cons, ofDigits_concat, hvalue]; omega⟩
      have hfront : Numeral.Place.after (n / 10) = .whole := if_neg (by omega)
      have hall : Numeral.Place.after n = .whole := if_neg (by omega)
      have hlast : digit? (Nat.digitChar (n % 10)) = some (n % 10) := digit?_digitChar _ (by omega)
      rw [Nat.toDigits_of_base_le (by decide) (by omega), List.foldl_append, hread, List.foldl_cons, List.foldl_nil]
      simp [Lexer.step, Lexer.enter, Numeral.step, hfront, hall, hlast]

/-- A digit between tokens begins a numeral. -/
theorem start_digitChar {d : Nat} (h : d < 10) (x : Lexer) :
    x.start (Nat.digitChar d) = x.enter (.numeral (.after d) { whole := [d] }) := by
  have hother : ∀ d < 10, Lexer.isSpace (Nat.digitChar d) = false ∧ Lexer.mark? (Nat.digitChar d) = none ∧
      Nat.digitChar d ∉ ['"', 'n', 't', 'f', '-'] := by decide
  obtain ⟨hspace, hmark, hbegin⟩ := hother d h
  simp only [List.mem_cons, List.not_mem_nil, or_false, not_or] at hbegin
  simp [Lexer.start, hspace, hmark, hbegin, digit?_digitChar d h, Numeral.Place.after]

/-- The digits of an integer of 64 bits denote it. -/
theorem number?_of_integral {k : Int} (hk : (Number.int k).Integral) {whole : List Nat}
    (hvalue : ofDigits whole.reverse = k.natAbs) :
    Numeral.number? { negative := decide (k < 0), whole } = some (.int k) := by
  obtain ⟨hlow, hhigh⟩ := hk
  unfold Numeral.number?
  dsimp only
  rw [hvalue]
  by_cases hsign : k < 0
  · have hsize : 0 < k.natAbs ∧ k.natAbs ≤ Nat.pow 2 63 := by omega
    have hself : -(k.natAbs : Int) = k := by omega
    simp only [hsign, hsize, hself, decide_true, Bool.and_self, if_true]
  · have hsize : k.natAbs < Nat.pow 2 64 := by omega
    have hself : (k.natAbs : Int) = k := by omega
    simp only [hsign, hsize, hself, decide_true, decide_false, Bool.false_eq_true, Bool.and_self, if_false, if_true]

/-- An integer of 64 bits is read as a numeral that denotes it. -/
theorem foldl_write_int {k : Int} (hk : (Number.int k).Integral) (before : List Token) :
    ∃ n, (Number.int k).write.foldl Lexer.step { tokens := before } = ⟨before, .numeral (.after k.natAbs) n⟩ ∧
      n.number? = some (.int k) := by
  by_cases hsign : k < 0
  · obtain ⟨whole, hread, hvalue⟩ := foldl_toDigits true ⟨before, .numeral .sign { negative := true }⟩ k.natAbs
      fun d hd => by simp [Lexer.step, Numeral.step, digit?_digitChar d hd, Numeral.Place.after]
    have hnumber := number?_of_integral hk hvalue
    rw [decide_eq_true hsign] at hnumber
    refine ⟨_, ?_, hnumber⟩
    simp only [Number.write, hsign, if_true, List.foldl_cons]
    exact hread
  · obtain ⟨whole, hread, hvalue⟩ := foldl_toDigits false { tokens := before } k.natAbs
      fun d hd => start_digitChar hd _
    have hnumber := number?_of_integral hk hvalue
    rw [decide_eq_false hsign] at hnumber
    refine ⟨_, ?_, hnumber⟩
    simp only [Number.write, hsign, if_false]
    exact hread

/-- What may follow a value: nothing, a comma or an end. -/
def FollowsValue (rest : List Char) : Prop := ∀ c ∈ rest.head?, c = ',' ∨ c = ']' ∨ c = '\x7d'

/-- What follows a value ends a numeral. -/
theorem finish_numeral (h : FollowsValue rest) (before : List Token) (size : Nat) (n : Numeral) :
    (rest.foldl Lexer.step ⟨before, .numeral (.after size) n⟩).finish =
      (rest.foldl Lexer.step { tokens := .scalar (.number n.number?) :: before }).finish := by
  cases rest with
  | nil =>
    have hcomplete : (Numeral.Place.after size).complete = true := by unfold Numeral.Place.after; split <;> rfl
    simp [Lexer.finish, hcomplete, Lexer.emit]
  | cons c more =>
    have hstep : Lexer.step ⟨before, .numeral (.after size) n⟩ c =
        Lexer.step { tokens := .scalar (.number n.number?) :: before } c := by
      unfold Numeral.Place.after
      rcases h c rfl with rfl | rfl | rfl <;> split <;> rfl
    rw [List.foldl_cons, hstep, List.foldl_cons]

theorem Yields.integer {n : Number} (h : Yields rest ts) (hrest : FollowsValue rest) (hn : n.Integral) :
    Yields (n.write ++ rest) (.scalar (.number (some n)) :: ts) := by
  cases n with
  | float x => cases hn
  | int k =>
    refine h.part fun before => ?_
    obtain ⟨n, hread, hvalue⟩ := foldl_write_int hn before
    rw [List.foldl_append, hread, finish_numeral hrest, hvalue]

/-! ## Values -/

mutual

/-- The tokens of a value, before the tokens `rest`. -/
def spell : Json → List Token → List Token
  | .null, rest => .scalar .null :: rest
  | .bool b, rest => .scalar (.bool b) :: rest
  | .number n, rest => .scalar (.number (some n)) :: rest
  | .str s, rest => .scalar (.text (some s)) :: rest
  | .arr [], rest => .mark .openList :: .mark .closeList :: rest
  | .arr (v :: vs), rest => .mark .openList :: spell v (spellItems vs (.mark .closeList :: rest))
  | .obj [], rest => .mark .openObject :: .mark .closeObject :: rest
  | .obj ((k, v) :: more), rest =>
    .mark .openObject :: .scalar (.text (some k)) :: .mark .colon ::
      spell v (spellFields more (.mark .closeObject :: rest))

/-- The items after the first one. -/
def spellItems : List Json → List Token → List Token
  | [], rest => rest
  | v :: vs, rest => .mark .comma :: spell v (spellItems vs rest)

/-- The fields after the first one. -/
def spellFields : List (String × Json) → List Token → List Token
  | [], rest => rest
  | (k, v) :: more, rest =>
    .mark .comma :: .scalar (.text (some k)) :: .mark .colon :: spell v (spellFields more rest)

end

theorem followsValue_close {c : Char} (h : c = ']' ∨ c = '\x7d') (rest : List Char) : FollowsValue (c :: rest) := by
  intro d hd
  cases Option.some.inj hd
  exact .inr h

theorem FollowsValue.items (h : FollowsValue rest) (vs : List Json) : FollowsValue (writeItems vs rest) := by
  cases vs with
  | nil => exact h
  | cons v vs => simp [FollowsValue, writeItems]

theorem FollowsValue.fields (h : FollowsValue rest) (more : List (String × Json)) :
    FollowsValue (writeFields more rest) := by
  cases more with
  | nil => exact h
  | cons p more => simp [FollowsValue, writeFields]

/-- A mark is a token of its own. -/
theorem Yields.mark {c : Char} {m : Mark} (h : Yields rest ts) (hm : Lexer.mark? c = some m)
    (hc : Lexer.isSpace c = false) : Yields (c :: rest) (.mark m :: ts) :=
  h.whole [c] fun before => by simp [Lexer.step, Lexer.start, hm, hc, Lexer.emit]

-- What follows a value stays general: each part is read before the text of the parts after it.

mutual

/-- The text of a value gives the tokens of the value. -/
theorem yields_write : ∀ (v : Json) {rest : List Char} {ts : List Token}, (∀ n ∈ v.numbers, n.Integral) →
    FollowsValue rest → Yields rest ts → Yields (write v rest) (spell v ts)
  | .null, rest, ts, hv, hrest, h => h.whole ['n', 'u', 'l', 'l'] fun _ => rfl
  | .bool true, rest, ts, hv, hrest, h => h.whole ['t', 'r', 'u', 'e'] fun _ => rfl
  | .bool false, rest, ts, hv, hrest, h => h.whole ['f', 'a', 'l', 's', 'e'] fun _ => rfl
  | .number n, rest, ts, hv, hrest, h => h.integer hrest (hv n (List.mem_singleton.2 rfl))
  | .str s, rest, ts, hv, hrest, h => h.quote s
  | .arr [], rest, ts, hv, hrest, h => (h.mark (c := ']') rfl rfl).mark rfl rfl
  | .arr (v :: vs), rest, ts, hv, hrest, h => by
    obtain ⟨hfirst, hvs⟩ := List.forall_mem_append.1 hv
    have hclose : FollowsValue (']' :: rest) := followsValue_close (.inl rfl) rest
    have hitems := yields_writeItems vs hvs hclose (h.mark rfl rfl)
    exact (yields_write v hfirst (hclose.items vs) hitems).mark rfl rfl
  | .obj [], rest, ts, hv, hrest, h => (h.mark (c := '\x7d') rfl rfl).mark rfl rfl
  | .obj ((k, v) :: more), rest, ts, hv, hrest, h => by
    obtain ⟨hfirst, hmore⟩ := List.forall_mem_append.1 hv
    have hclose : FollowsValue ('\x7d' :: rest) := followsValue_close (.inr rfl) rest
    have hfields := yields_writeFields more hmore hclose (h.mark rfl rfl)
    exact (((yields_write v hfirst (hclose.fields more) hfields).mark rfl rfl).quote k).mark rfl rfl

theorem yields_writeItems : ∀ (vs : List Json) {rest : List Char} {ts : List Token},
    (∀ n ∈ itemNumbers vs, n.Integral) → FollowsValue rest → Yields rest ts →
      Yields (writeItems vs rest) (spellItems vs ts)
  | [], rest, ts, hvs, hrest, h => h
  | v :: vs, rest, ts, hvs, hrest, h => by
    obtain ⟨hfirst, hvs⟩ := List.forall_mem_append.1 hvs
    have hitems := yields_writeItems vs hvs hrest h
    exact (yields_write v hfirst (hrest.items vs) hitems).mark rfl rfl

theorem yields_writeFields : ∀ (fields : List (String × Json)) {rest : List Char} {ts : List Token},
    (∀ n ∈ fieldNumbers fields, n.Integral) → FollowsValue rest → Yields rest ts →
      Yields (writeFields fields rest) (spellFields fields ts)
  | [], rest, ts, hfields, hrest, h => h
  | (k, v) :: more, rest, ts, hfields, hrest, h => by
    obtain ⟨hfirst, hmore⟩ := List.forall_mem_append.1 hfields
    have hfields := yields_writeFields more hmore hrest h
    exact (((yields_write v hfirst (hrest.fields more) hfields).mark rfl rfl).quote k).mark rfl rfl

end

/-- A value whose numbers are integers of 64 bits is read back as its tokens. -/
theorem tokens_write {v : Json} (h : ∀ n ∈ v.numbers, n.Integral) : tokens (write v []) = spell v [] :=
  (yields_write v h (fun c hc => by cases hc) yields_nil).tokens_eq

/-! ## Trees -/

namespace Builder

/-- No value begins with the end of a list. -/
theorem foldl_item (v : Json) (stack : List Open) (ts : List Token) :
    (spell v ts).foldl step (.reading stack .item) = (spell v ts).foldl step (.reading stack .value) := by
  rcases v with _ | _ | _ | _ | (_ | _) | (_ | _) <;> rcases stack with _ | ⟨_ | _, outer⟩ <;> rfl

mutual

/-- Where a value should stand, its tokens are its tree. -/
theorem foldl_spell : ∀ (v : Json) (stack : List Open) (ts : List Token),
    (spell v ts).foldl step (.reading stack .value) = ts.foldl step (attach stack (.ofValue v))
  | .null, stack, ts | .bool _, stack, ts | .number _, stack, ts | .str _, stack, ts => rfl
  | .arr [], stack, ts => rfl
  | .arr (v :: vs), stack, ts => by
    rw [spell, List.foldl_cons]
    show (spell v _).foldl step (.reading (.list [] :: stack) .item) = _
    rw [foldl_item, foldl_spell v]
    exact foldl_spellItems vs [.ofValue v] stack ts
  | .obj [], stack, ts => rfl
  | .obj ((k, v) :: more), stack, ts => by
    rw [spell, List.foldl_cons, List.foldl_cons, List.foldl_cons]
    show (spell v _).foldl step (.reading (.object [] (some k) :: stack) .value) = _
    rw [foldl_spell v]
    exact foldl_spellFields more [(some k, .ofValue v)] none stack ts

theorem foldl_spellItems : ∀ (vs : List Json) (items : List Tree) (outer : List Open) (ts : List Token),
    (spellItems vs (.mark .closeList :: ts)).foldl step (.reading (.list items :: outer) .next) =
      ts.foldl step (attach outer (.list (items.reverse ++ Tree.ofValues vs) none))
  | [], items, outer, ts => by
    rw [Tree.ofValues, List.append_nil]
    rfl
  | v :: vs, items, outer, ts => by
    rw [spellItems, List.foldl_cons]
    show (spell v _).foldl step (.reading (.list items :: outer) .value) = _
    rw [foldl_spell v]
    refine (foldl_spellItems vs (.ofValue v :: items) outer ts).trans ?_
    rw [List.reverse_cons, List.append_assoc, List.singleton_append, Tree.ofValues]

theorem foldl_spellFields : ∀ (more : List (String × Json)) (fields : List (Key × Tree)) (name : Key)
    (outer : List Open) (ts : List Token),
    (spellFields more (.mark .closeObject :: ts)).foldl step (.reading (.object fields name :: outer) .next) =
      ts.foldl step (attach outer (.object (fields.reverse ++ Tree.ofFields more) none))
  | [], fields, name, outer, ts => by
    rw [Tree.ofFields, List.append_nil]
    rfl
  | (k, v) :: more, fields, name, outer, ts => by
    rw [spellFields, List.foldl_cons, List.foldl_cons, List.foldl_cons]
    show (spell v _).foldl step (.reading (.object fields (some k) :: outer) .value) = _
    rw [foldl_spell v]
    refine (foldl_spellFields more ((some k, .ofValue v) :: fields) none outer ts).trans ?_
    rw [List.reverse_cons, List.append_assoc, List.singleton_append, Tree.ofFields]

end

end Builder

/-- The tree of a value's text is the value's own. -/
theorem Document.ofText_render {v : Json} (h : ∀ n ∈ v.numbers, n.Integral) :
    Document.ofText v.render = ⟨.ofValue v, false⟩ := by
  rw [ofText, render, String.toList_ofList, tokens_write h, ofTokens, Builder.foldl_spell]
  rfl

end ModelStream.Json
