/-
The arguments of a call that is sent back. Two of the backends take a call's arguments as compact text. If no
number of the arguments is a float, then that text is read as the arguments again, whether they were blank, a
value or no JSON at all (`arguments_replayed`).
-/
import ModelStream.CallBoard
import ModelStream.Proofs.Json.Written
import ModelStream.Proofs.Request

namespace ModelStream

/-! ## Values that are written and read -/

theorem isBlank_of_isDigit {c : Char} (h : c.isDigit = true) : Text.isBlank c = false := by
  obtain ⟨hlow, hhigh⟩ : 48 ≤ c.toNat ∧ c.toNat ≤ 57 := Char.isDigit_iff_toNat.1 h
  simp [Text.isBlank]
  omega

namespace Json

theorem write_head {v : Json} (h : ∀ n ∈ v.numbers, n.Integral) (rest : List Char) :
    ∃ c more, write v rest = c :: more ∧ Text.isBlank c = false := by
  rcases v with _ | (_ | _) | n | s | (_ | ⟨v, vs⟩) | (_ | ⟨⟨k, v⟩, more⟩)
  case number =>
    cases n with
    | float x => cases h _ (List.mem_singleton.2 rfl)
    | int k =>
      by_cases hsign : k < 0
      · exact ⟨'-', _, by simp only [write, Number.write, hsign, if_true]; rfl, rfl⟩
      · obtain ⟨c, more, hdigits⟩ := List.exists_cons_of_ne_nil (Nat.toDigits_ne_nil (n := k.natAbs) (b := 10))
        have hdigit : c.isDigit = true := Nat.isDigit_of_mem_toDigits (by decide) (by decide) (hdigits ▸ List.mem_cons_self ..)
        refine ⟨c, more ++ rest, ?_, isBlank_of_isDigit hdigit⟩
        simp only [write, Number.write, hsign, if_false, hdigits, List.cons_append]
  all_goals exact ⟨_, _, rfl, rfl⟩

/-- A value that its own tree gives is read from its text. -/
theorem parse_render {v : Json} (hvalue : (Tree.ofValue v).value maxDepth = .ok v)
    (h : ∀ n ∈ v.numbers, n.Integral) : parse v.render = .ok v := by
  rw [parse_eq_ok, Document.ofText_render h]
  exact ⟨hvalue, rfl⟩

end Json

/-! ## Arguments -/

theorem parseArguments_cases (text : String) :
    Json.parse text = .ok (parseArguments text) ∨ parseArguments text = .obj [] ∨
      parseArguments text = .obj [("raw", .str text)] := by
  unfold parseArguments
  split
  · exact .inr (.inl rfl)
  · split
    · next v hv => exact .inl hv
    · exact .inr (.inr rfl)

/-- Arguments can be read once more, and give themselves. -/
theorem value_parseArguments (text : String) :
    (Json.Tree.ofValue (parseArguments text)).value Json.maxDepth = .ok (parseArguments text) := by
  rcases parseArguments_cases text with hread | hblank | hraw
  · exact Json.Tree.value_ofValue (Json.parse_eq_ok.1 hread).1
  · rw [hblank]
    rfl
  · rw [hraw]
    rfl

theorem integral_parseArguments {text : String} (h : ∀ n ∈ (parseArguments text).numbers, n.isFloat = false) :
    ∀ n ∈ (parseArguments text).numbers, n.Integral := by
  rcases parseArguments_cases text with hread | hblank | hraw
  · exact fun n hn => Json.integral_of_parse hread hn (h n hn)
  · rw [hblank]
    exact List.forall_mem_nil _
  · rw [hraw]
    exact List.forall_mem_nil _

/-- Arguments without floats are read from their text as they were. -/
theorem parseArguments_render {text : String} (h : ∀ n ∈ (parseArguments text).numbers, n.isFloat = false) :
    parseArguments (parseArguments text).render = parseArguments text := by
  have hintegral := integral_parseArguments h
  have hread := Json.parse_render (value_parseArguments text) hintegral
  obtain ⟨c, more, hhead, hc⟩ := Json.write_head hintegral []
  have hblank : Text.blank (parseArguments text).render = false := by
    simp [Text.blank, Json.render, hhead, hc]
  generalize parseArguments text = v at *
  unfold parseArguments
  simp [hblank, hread]

/-- A call that was given out with arguments without floats keeps them when it is sent back as text. -/
theorem arguments_replayed (id name text : String) (h : ∀ n ∈ (parseArguments text).numbers, n.isFloat = false) :
    let c := ToolCall.toCall { id, name, arguments := parseArguments text, rawArguments := text }
    ∃ written, Chat.call? (Chat.callJson c) = some (.call id name (.str written)) ∧
      Responses.toolTurn? (Responses.callItem c) = some (.call id name (.str written)) ∧
      parseArguments written = parseArguments text :=
  ⟨_, Chat.call?_callJson _, Responses.toolTurn?_callItem _, parseArguments_render h⟩

/-- Names out of order and one of them twice, the least and the greatest integer, a pair of surrogates, a control and
an escape that is not needed. -/
theorem arguments_replayed_mixed :
    let text := "\x7b\"k\": [-9223372036854775808, 18446744073709551615, 0], \"a\": \x7b\x7d, " ++
      "\"k/\": \"\\ud83d\\ude00\\u0001\\/\\n\", \"a\": [[], null]\x7d"
    let c := ToolCall.toCall { id := "c1", name := "f", arguments := parseArguments text, rawArguments := text }
    (∀ n ∈ (parseArguments text).numbers, n.isFloat = false) ∧
      (parseArguments text).render = "\x7b\"a\":[[],null],\"k\":[-9223372036854775808,18446744073709551615,0]," ++
        "\"k/\":\"😀\\u0001/\\n\"\x7d" ∧
      ∃ written, Chat.call? (Chat.callJson c) = some (.call "c1" "f" (.str written)) ∧
        Responses.toolTurn? (Responses.callItem c) = some (.call "c1" "f" (.str written)) ∧
        parseArguments written = parseArguments text := by
  intro text c
  have h : ∀ n ∈ (parseArguments text).numbers, n.isFloat = false := by decide +kernel
  exact ⟨h, by decide +kernel, arguments_replayed "c1" "f" text h⟩

end ModelStream
