/-
The numbers of a value that was read. Every integer among them fits 64 bits, with a sign or without one
(`integral_of_parse`): the lexer makes no others, and neither the tree of a text nor its value has scalars of
its own.
-/
import ModelStream.Proofs.Json.Tagged

namespace ModelStream.Json

/-! ## Numbers -/

def Number.isFloat : Number → Bool
  | .int _ => false
  | .float _ => true

/-- An integer of 64 bits, with a sign or without one. -/
def Number.Integral : Number → Prop
  | .int k => -(Nat.pow 2 63 : Int) ≤ k ∧ k < (Nat.pow 2 64 : Int)
  | .float _ => False

mutual

/-- The numbers of a value, in order. -/
def numbers : Json → List Number
  | .number n => [n]
  | .arr items => itemNumbers items
  | .obj fields => fieldNumbers fields
  | .null | .bool _ | .str _ => []

def itemNumbers : List Json → List Number
  | [] => []
  | v :: vs => numbers v ++ itemNumbers vs

def fieldNumbers : List (String × Json) → List Number
  | [] => []
  | (_, v) :: more => numbers v ++ fieldNumbers more

end

theorem itemNumbers_eq (vs : List Json) : itemNumbers vs = vs.flatMap numbers := by
  induction vs with
  | nil => rfl
  | cons v rest ih => rw [itemNumbers, ih, List.flatMap_cons]

theorem fieldNumbers_eq (fields : Fields) : fieldNumbers fields = fields.flatMap (numbers ·.2) := by
  induction fields with
  | nil => rfl
  | cons p rest ih => rw [fieldNumbers, ih, List.flatMap_cons]

/-- An object has no numbers but those of the pairs that it is made of. -/
theorem mem_numbers_object {pairs : List (String × Json)} {n : Number} (h : n ∈ (object pairs).numbers) :
    ∃ p ∈ pairs, n ∈ p.2.numbers := by
  rw [object, numbers, fieldNumbers_eq] at h
  obtain ⟨p, hp, hn⟩ := List.mem_flatMap.1 h
  exact ⟨p, Ordered.mem_of_mem_ofList hp, hn⟩

/-! ## Scalars of a tree -/

variable {p : Scalar → Prop}

/-- Every scalar of the tree is so. -/
inductive Tree.All (p : Scalar → Prop) : Tree → Prop
  | scalar {s : Scalar} (h : p s) : All p (.scalar s)
  | list {items : List Tree} {cut : Option Break} (h : ∀ t ∈ items, All p t) : All p (.list items cut)
  | object {fields : List (Key × Tree)} {cut : Option Break} (h : ∀ f ∈ fields, All p f.2) : All p (.object fields cut)
  | broken (b : Break) : All p (.broken b)

namespace Tree

/-- A list that was read newest first. -/
theorem all_list {items : List Tree} {cut : Option Break} (h : ∀ t ∈ items, t.All p) :
    (Tree.list items.reverse cut).All p := .list fun t ht => h t (List.mem_reverse.1 ht)

/-- An object that was read newest first. -/
theorem all_object {fields : List (Key × Tree)} {cut : Option Break} (h : ∀ f ∈ fields, f.2.All p) :
    (Tree.object fields.reverse cut).All p := .object fun f hf => h f (List.mem_reverse.1 hf)

mutual

/-- The numbers of a value are scalars of its tree. -/
theorem All.mem_numbers {depth : Nat} {n : Number} :
    ∀ {t : Tree} {v : Json}, t.All p → t.value depth = .ok v → n ∈ v.numbers → p (.number (some n))
  | .scalar s, v, .scalar hs, h, hn => by
    have hv := value_scalar h
    cases v with
    | number m =>
      cases hv
      cases List.mem_singleton.1 hn
      exact hs
    | null | bool | str => cases hn
    | arr | obj => cases hv
  | .list items cut, v, .list hitems, h, hn => by
    obtain ⟨inner, vs, rfl, hvs, rfl, rfl⟩ := value_list h
    rw [numbers, itemNumbers_eq] at hn
    obtain ⟨w, hw, hn⟩ := List.mem_flatMap.1 hn
    exact All.mem_itemNumbers hitems hvs w hw hn
  | .object fields cut, v, .object hfields, h, hn => by
    obtain ⟨inner, vs, rfl, hvs, rfl, rfl⟩ := value_object h
    obtain ⟨entry, hentry, hn⟩ := mem_numbers_object hn
    exact All.mem_fieldNumbers hfields hvs entry hentry hn
  | .broken b, v, .broken _, h, hn => by cases h

theorem All.mem_itemNumbers {depth : Nat} {n : Number} : ∀ {items : List Tree} {vs : List Json},
    (∀ t ∈ items, t.All p) → values depth items = .ok vs → ∀ v ∈ vs, n ∈ v.numbers → p (.number (some n))
  | [], _, _, h => by cases h; simp
  | t :: ts, _, hitems, h => by
    obtain ⟨v, rest, hv, hrest, rfl⟩ := values_cons h
    intro w hw hn
    rcases List.mem_cons.1 hw with rfl | hw
    · exact All.mem_numbers (hitems t (List.mem_cons_self ..)) hv hn
    · exact All.mem_itemNumbers (fun t ht => hitems t (List.mem_cons_of_mem _ ht)) hrest w hw hn

theorem All.mem_fieldNumbers {depth : Nat} {n : Number} :
    ∀ {fields : List (Key × Tree)} {vs : List (String × Json)}, (∀ f ∈ fields, f.2.All p) →
      fieldValues depth fields = .ok vs → ∀ entry ∈ vs, n ∈ entry.2.numbers → p (.number (some n))
  | [], _, _, h => by cases h; simp
  | (key, t) :: more, _, hfields, h => by
    obtain ⟨name, v, rest, -, hv, hrest, rfl⟩ := fieldValues_cons h
    intro w hw hn
    rcases List.mem_cons.1 hw with rfl | hw
    · exact All.mem_numbers (hfields _ (List.mem_cons_self ..)) hv hn
    · exact All.mem_fieldNumbers (fun f hf => hfields f (List.mem_cons_of_mem _ hf)) hrest w hw hn

end

end Tree

/-! ## Scalars of a text -/

def Token.All (p : Scalar → Prop) : Token → Prop
  | .scalar s => p s
  | .mark _ | .broken .. => True

def Open.All (p : Scalar → Prop) : Open → Prop
  | .list items => ∀ t ∈ items, t.All p
  | .object fields _ => ∀ f ∈ fields, f.2.All p

def Builder.All (p : Scalar → Prop) : Builder → Prop
  | .reading stack _ => ∀ o ∈ stack, o.All p
  | .complete root _ => root.All p

namespace Builder

/-- A value joins the container that is open, or is the root. -/
theorem all_attach {stack : List Open} {t : Tree} (hstack : ∀ o ∈ stack, o.All p) (ht : t.All p) :
    (attach stack t).All p := by
  cases stack with
  | nil => exact ht
  | cons o outer =>
    obtain ⟨ho, houter⟩ := List.forall_mem_cons.1 hstack
    cases o with
    | list items => exact List.forall_mem_cons.2 ⟨List.forall_mem_cons.2 ⟨ht, ho⟩, houter⟩
    | object fields name => exact List.forall_mem_cons.2 ⟨List.forall_mem_cons.2 ⟨ht, ho⟩, houter⟩

theorem all_breakOff (b : Break) {stack : List Open} {t : Tree} (hstack : ∀ o ∈ stack, o.All p) (ht : t.All p) :
    (breakOff b stack t).All p := by
  induction stack generalizing t with
  | nil => exact ht
  | cons o outer ih =>
    obtain ⟨ho, houter⟩ := List.forall_mem_cons.1 hstack
    cases o with
    | list items => exact ih houter (Tree.all_list (List.forall_mem_cons.2 ⟨ht, ho⟩))
    | object fields name => exact ih houter (Tree.all_object (List.forall_mem_cons.2 ⟨ht, ho⟩))

theorem all_breakValue {stack : List Open} (hstack : ∀ o ∈ stack, o.All p) (b : Break) : (breakValue stack b).All p :=
  all_breakOff b hstack (.broken b)

/-- Text that breaks off between values cuts off every container that is open. -/
theorem all_breakBetween {stack : List Open} (hstack : ∀ o ∈ stack, o.All p) (b : Break) :
    (breakBetween stack b).All p := by
  cases stack with
  | nil => exact .broken b
  | cons o outer =>
    obtain ⟨ho, houter⟩ := List.forall_mem_cons.1 hstack
    cases o with
    | list items => exact all_breakOff b houter (Tree.all_list ho)
    | object fields name => exact all_breakOff b houter (Tree.all_object ho)

theorem all_stepValue {stack : List Open} {t : Token} (hstack : ∀ o ∈ stack, o.All p) (ht : t.All p) :
    (stepValue stack t).All p := by
  unfold stepValue
  split
  · exact all_attach hstack (.scalar ht)
  · exact List.forall_mem_cons.2 ⟨List.forall_mem_nil _, hstack⟩
  · exact List.forall_mem_cons.2 ⟨List.forall_mem_nil _, hstack⟩
  · exact all_breakValue hstack _
  · exact all_breakValue hstack _

theorem all_stepName {fields : List (Key × Tree)} {outer : List Open} (hfields : ∀ f ∈ fields, f.2.All p)
    (houter : ∀ o ∈ outer, o.All p) (first : Bool) (t : Token) : (stepName fields outer first t).All p := by
  have hstack : ∀ name, ∀ o ∈ Open.object fields name :: outer, o.All p := fun name =>
    List.forall_mem_cons.2 ⟨hfields, houter⟩
  unfold stepName
  split
  · exact hstack _
  · split
    · exact all_attach houter (.object (List.forall_mem_nil _))
    · exact all_breakBetween (hstack _) _
  · exact all_breakBetween (hstack _) _
  · exact all_breakBetween (hstack _) _

theorem all_stepNext {stack : List Open} (hstack : ∀ o ∈ stack, o.All p) (t : Token) : (stepNext stack t).All p := by
  unfold stepNext
  split
  · obtain ⟨ho, houter⟩ := List.forall_mem_cons.1 hstack
    exact all_attach houter (Tree.all_list ho)
  · obtain ⟨ho, houter⟩ := List.forall_mem_cons.1 hstack
    exact all_attach houter (Tree.all_object ho)
  · exact hstack
  · obtain ⟨ho, houter⟩ := List.forall_mem_cons.1 hstack
    exact List.forall_mem_cons.2 ⟨ho, houter⟩
  · exact all_breakBetween hstack _

/-- What one token adds to a tree is its scalar. -/
theorem All.step {b : Builder} {t : Token} (h : b.All p) (ht : t.All p) : (b.step t).All p := by
  cases b with
  | complete root trailing => exact h
  | reading stack expect =>
    have houter : ∀ {o outer}, stack = o :: outer → o.All p ∧ ∀ o ∈ outer, o.All p := by
      rintro o outer rfl
      exact List.forall_mem_cons.1 h
    unfold Builder.step
    dsimp only
    split
    · exact all_attach (houter rfl).2 (.list (List.forall_mem_nil _))
    · exact all_stepValue h ht
    · exact all_stepValue h ht
    · exact all_stepName (houter rfl).1 (houter rfl).2 _ _
    · exact all_breakBetween h _
    · exact h
    · exact all_breakValue h _
    · exact all_stepNext h _

theorem All.root {b : Builder} (h : b.All p) {root : Tree} {trailing : Bool} (heq : b = .complete root trailing) :
    root.All p := by
  subst heq
  exact h

theorem All.finish {b : Builder} (h : b.All p) : b.finish.root.All p := by
  cases b with
  | complete root trailing => exact h
  | reading stack expect =>
    unfold Builder.finish
    dsimp only
    split
    · next heq =>
      cases expect with
      | value | item | colon => exact (all_breakValue h .truncated).root heq
      | name | next => exact (all_breakBetween h .truncated).root heq
    · exact .broken _

end Builder

/-- The tree of a text has no scalars but those of its tokens. -/
theorem Document.all_ofTokens {ts : List Token} (h : ∀ t ∈ ts, t.All p) : (ofTokens ts).root.All p := by
  have hempty : Builder.All p (.reading [] .value) := List.forall_mem_nil _
  exact Builder.All.finish (List.foldlRecOn ts Builder.step hempty fun _ hb t ht => hb.step (h t ht))

/-! ## Numbers of a text -/

/-- An integer fits 64 bits. -/
def Scalar.Ranged (s : Scalar) : Prop := ∀ k, s = .number (some (.int k)) → (Number.int k).Integral

theorem Numeral.ranged_number? (n : Numeral) : (Scalar.number n.number?).Ranged := by
  intro k hk
  have hk : n.number? = some (.int k) := Scalar.number.inj hk
  have hfloat : n.float?.map Number.float ≠ some (.int k) := by simp
  have hpow : Nat.pow 2 63 < Nat.pow 2 64 := by decide
  unfold Numeral.number? at hk
  unfold Number.Integral
  dsimp only at hk ⊢
  generalize Nat.pow 2 63 = low at *
  generalize Nat.pow 2 64 = high at *
  cases hsign : n.negative with
  | true =>
    simp only [hsign, if_true] at hk
    split at hk
    · next hfits =>
      simp only [Bool.and_eq_true, decide_eq_true_eq] at hfits
      cases hk
      omega
    · exact absurd hk hfloat
  | false =>
    simp only [hsign, Bool.false_eq_true, if_false] at hk
    split at hk
    · next hfits =>
      simp only [Bool.and_eq_true, decide_eq_true_eq] at hfits
      cases hk
      omega
    · exact absurd hk hfloat

namespace Lexer

/-- No token holds an integer beyond 64 bits, and no word stands for one. -/
structure Ranged (x : Lexer) : Prop where
  tokens : ∀ t ∈ x.tokens, t.All Scalar.Ranged
  word : ∀ rest value, x.mode = .word rest value → value.Ranged

variable {x : Lexer}

theorem Ranged.emit (h : x.Ranged) {t : Token} (ht : t.All Scalar.Ranged) : (x.emit t).Ranged where
  tokens := List.forall_mem_cons.2 ⟨ht, h.tokens⟩
  word := by rintro rest value ⟨⟩

theorem Ranged.stop (h : x.Ranged) (inText : Bool) (b : Break) : (x.stop inText b).Ranged where
  tokens := List.forall_mem_cons.2 ⟨trivial, h.tokens⟩
  word := by rintro rest value ⟨⟩

theorem Ranged.enter (h : x.Ranged) {mode : Mode} (hmode : ∀ rest value, mode = .word rest value → value.Ranged) :
    (x.enter mode).Ranged := ⟨h.tokens, hmode⟩

theorem Ranged.word_mode (h : x.Ranged) (rest : List Char) {value : Scalar} (hvalue : value.Ranged) :
    (x.enter (.word rest value)).Ranged :=
  h.enter fun _ _ heq => (Mode.word.inj heq).2 ▸ hvalue

/-- A new token is a word or a numeral to come, a mark, or a break. -/
theorem Ranged.start (h : x.Ranged) (c : Char) : (x.start c).Ranged := by
  have hother : ∀ {mode : Mode}, (∀ rest value, mode ≠ .word rest value) → (x.enter mode).Ranged := fun hmode =>
    h.enter fun rest value heq => absurd heq (hmode rest value)
  unfold Lexer.start
  split
  · exact hother (by simp)
  split
  · exact h.emit trivial
  split_ifs with hquote hnull htrue hfalse hminus
  · exact hother (by simp)
  · exact h.word_mode _ (by rintro k ⟨⟩)
  · exact h.word_mode _ (by rintro k ⟨⟩)
  · exact h.word_mode _ (by rintro k ⟨⟩)
  · exact hother (by simp)
  split
  · exact hother (by simp)
  · exact h.stop _ _

/-- Text adds no number, whatever stands in it. -/
theorem Ranged.stepText (h : x.Ranged) (place : TextPlace) (t : TextSoFar) (c : Char) :
    (x.stepText place t c).Ranged := by
  have hother : ∀ {place t}, (x.enter (.text place t)).Ranged := h.enter (by simp)
  cases place with
  | plain =>
    unfold Lexer.stepText
    dsimp only
    split_ifs
    · exact hother
    · exact h.emit (by rintro k ⟨⟩)
    · exact h.stop _ _
    · exact hother
  | escape =>
    unfold Lexer.stepText
    dsimp only
    split_ifs
    · exact hother
    · split
      · exact hother
      · exact h.stop _ _
  | hex bytes value =>
    unfold Lexer.stepText
    dsimp only
    split_ifs
    · exact hother
    · split
      · exact hother
      · exact h.stop _ _

theorem Ranged.numeral (h : x.Ranged) (n : Numeral) : (x.emit (.scalar (.number n.number?))).Ranged :=
  h.emit n.ranged_number?

theorem Ranged.endNumeral (h : x.Ranged) (place : Numeral.Place) (n : Numeral) (c : Char) :
    (x.endNumeral place n c).Ranged := by
  unfold Lexer.endNumeral
  split_ifs
  · exact (h.numeral n).start c
  · exact h.stop _ _

theorem Ranged.step (h : x.Ranged) (c : Char) : (x.step c).Ranged := by
  unfold Lexer.step
  split
  · exact h.start c
  · next e rest value hmode =>
    have hvalue := h.word _ _ hmode
    split_ifs
    · exact h.emit hvalue
    · exact h.word_mode _ hvalue
    · exact h.stop _ _
  · exact h.stop _ _
  · split
    · exact h.enter (by simp)
    · exact h.endNumeral _ _ c
  · exact h.stepText _ _ c
  · exact h

theorem Ranged.finish (h : x.Ranged) : x.finish.Ranged := by
  unfold Lexer.finish
  split
  · exact h
  · exact h
  · exact h.stop _ _
  · split_ifs
    · exact h.numeral _
    · exact h.stop _ _
  · exact h.stop _ _

end Lexer

theorem ranged_tokens (text : List Char) : ∀ t ∈ tokens text, t.All Scalar.Ranged := by
  have hempty : Lexer.Ranged {} := ⟨List.forall_mem_nil _, by rintro rest value ⟨⟩⟩
  have hread : (text.foldl Lexer.step {}).Ranged := List.foldlRecOn text Lexer.step hempty fun _ hx c _ => hx.step c
  exact fun t ht => hread.finish.tokens t (List.mem_reverse.1 ht)

/-- The integers of a value that was read fit 64 bits. -/
theorem integral_of_parse {text : String} {v : Json} (h : parse text = .ok v) {n : Number} (hn : n ∈ v.numbers)
    (hint : n.isFloat = false) : n.Integral := by
  cases n with
  | float x => cases hint
  | int k => exact (Document.all_ofTokens (ranged_tokens text.toList)).mem_numbers (parse_eq_ok.1 h).1 hn k rfl

end ModelStream.Json
