/-
What is learned about the end of a stream. A part of a stream reports a response id, a usage object and
end reasons, each or none. However many reports there are, what is known after them can be told from all of
them at once: the first id (`Closing.learnAll_responseId`), the last reason (`Closing.learnAll_reasonText`),
and the usage objects merged, which are the last one alone or all of them laid over each other.
-/
import ModelStream.Closing
import ModelStream.Proofs.Boards
import ModelStream.Proofs.Ordered

namespace ModelStream

open Json (Fields)

/-! ## Entries laid over each other -/

theorem Json.Fields.foldl_overlay (usages : List Fields) : usages.foldl Fields.overlay [] = Ordered.ofList usages.flatten := by
  unfold Ordered.ofList
  rw [List.foldl_flatten]
  rfl

/-! ## Reports -/

/-- What a part of a stream reports about its end. -/
structure Closing.Report where
  id : Option String := none
  usage : Option Fields := none
  /-- End reasons, in the order in which they are read. -/
  reasons : List String := []

namespace Closing

/-- The closing event that is known so far. -/
def ending (c : Closing) : Ending := { reason := c.reasonText, usage := c.usage, responseId := c.responseId }

variable (merge : Fields → Fields → Fields)

/-- Learns what is reported; `merge` joins a usage object to what is known of the usage. -/
def learn (c : Closing) (r : Report) : Closing :=
  { c with
    responseId := c.responseId <|> r.id
    usage := r.usage.elim c.usage fun usage => some (merge (c.usage.getD []) usage)
    reason := (r.reasons.getLast?.map (Source.live, ·)) <|> c.reason }

def learnAll (c : Closing) (reports : List Report) : Closing := reports.foldl (learn merge) c

@[simp] theorem learnAll_nil (c : Closing) : c.learnAll merge [] = c := rfl

@[simp] theorem learnAll_cons (c : Closing) (r : Report) (more : List Report) :
    c.learnAll merge (r :: more) = (c.learn merge r).learnAll merge more := rfl

theorem learnAll_append (c : Closing) (reports more : List Report) :
    c.learnAll merge (reports ++ more) = (c.learnAll merge reports).learnAll merge more := List.foldl_append

@[simp] theorem learn_nothing (c : Closing) : c.learn merge {} = c := by
  cases c with
  | mk reason usage responseId finished => cases responseId <;> rfl

theorem learn_reasonText (c : Closing) (r : Report) :
    (c.learn merge r).reasonText = (r.reasons.getLast? <|> c.reasonText) := by
  unfold learn reasonText
  cases r.reasons.getLast? <;> rfl

/-- Reasons learned after a report are learned with it. -/
theorem learn_reasons (c : Closing) (r : Report) (more : List String) :
    (c.learn merge r).learn merge { reasons := more } = c.learn merge { r with reasons := r.reasons ++ more } := by
  simp only [learn, List.getLast?_append]
  cases c.responseId <;> cases r.id <;> cases more.getLast? <;> cases r.reasons.getLast? <;> rfl

/-- An id learned before a report is learned with it. -/
theorem learn_id (c : Closing) (id : String) (r : Report) :
    (c.learn merge { id := some id }).learn merge r = c.learn merge { r with id := some id } := by
  cases h : c.responseId <;> simp [learn, h]

theorem offer_live (c : Closing) (reason : String) : c.offer .live reason = c.learn merge { reasons := [reason] } := by
  cases c with
  | mk known usage responseId finished =>
    rcases known with - | ⟨- | -, known⟩ <;> cases responseId <;> rfl

theorem setResponseId_eq (c : Closing) (id : String) : c.setResponseId id = c.learn merge { id := some id } := by
  cases c
  rfl

/-! ## All reports -/

theorem learnAll_responseId (reports : List Report) (c : Closing) :
    (c.learnAll merge reports).responseId = (c.responseId <|> reports.findSome? (·.id)) := by
  induction reports generalizing c with
  | nil => cases h : c.responseId <;> simp [h]
  | cons r more ih =>
    rw [learnAll_cons, ih, List.findSome?_cons]
    show ((c.responseId <|> r.id) <|> _) = _
    cases c.responseId <;> cases r.id <;> rfl

theorem learnAll_reasonText (reports : List Report) (c : Closing) :
    (c.learnAll merge reports).reasonText = ((reports.flatMap (·.reasons)).getLast? <|> c.reasonText) := by
  induction reports generalizing c with
  | nil => rfl
  | cons r more ih =>
    rw [learnAll_cons, ih, learn_reasonText, List.flatMap_cons, List.getLast?_append]
    cases (more.flatMap (·.reasons)).getLast? <;> rfl

theorem learnAll_usage (reports : List Report) (c : Closing) :
    (c.learnAll merge reports).usage =
      (reports.filterMap (·.usage)).foldl (fun known usage => some (merge (known.getD []) usage)) c.usage := by
  induction reports generalizing c with
  | nil => rfl
  | cons r more ih =>
    rw [learnAll_cons, ih, List.filterMap_cons]
    cases h : r.usage <;> simp [learn, h]

/-- Where each usage object replaces the one before, the last one is known. -/
theorem learnAll_usage_latest (reports : List Report) :
    (({} : Closing).learnAll (fun _ usage => usage) reports).usage = (reports.filterMap (·.usage)).getLast? := by
  rw [learnAll_usage]
  generalize reports.filterMap (·.usage) = usages
  have latest : ∀ (usages : List Fields) (known : Option Fields),
      usages.foldl (fun _ usage => some usage) known = (usages.getLast? <|> known) := by
    intro usages
    induction usages with
    | nil => exact fun known => rfl
    | cons usage more ih =>
      intro known
      rw [List.foldl_cons, ih, List.getLast?_cons]
      cases more.getLast? <;> rfl
  rw [latest]
  cases usages.getLast? <;> rfl

/-- Where usage objects are laid over each other, all entries are known, the later ones before the earlier. -/
theorem learnAll_usage_overlay (reports : List Report) :
    (({} : Closing).learnAll Fields.overlay reports).usage =
      if reports.filterMap (·.usage) = [] then none else some (Ordered.ofList (reports.filterMap (·.usage)).flatten) := by
  rw [learnAll_usage]
  generalize reports.filterMap (·.usage) = usages
  have overlaid : ∀ (usages : List Fields) (known : Fields),
      usages.foldl (fun known usage => some (Fields.overlay (known.getD []) usage)) (some known) =
        some (usages.foldl Fields.overlay known) := by
    intro usages
    induction usages with
    | nil => exact fun known => rfl
    | cons usage more ih => exact fun known => ih (known.overlay usage)
  cases usages with
  | nil => rfl
  | cons usage more =>
    rw [if_neg (List.cons_ne_nil _ _), ← Fields.foldl_overlay]
    exact overlaid more _

end Closing

end ModelStream
