/-
What the fault of a failed answer depends on. Its text is that of the first bytes of the body, up to the
limit, of those that come before the body fails or ends; how they are cut into chunks does not matter, and
neither does what comes after them, since no part of the body is asked for once there are enough bytes or
the body has failed (`Exchange.run_unsuccessful`).

The loop is followed part by part: the bytes it has and those still to come agree up to the limit with all
bytes of the body (`Response.collect_take`), and the parts it asks for are the front of the body that is
needed for them (`Response.collect_needed`).
-/
import ModelStream.Proofs.Exchange

namespace ModelStream

open Text (Bytes)

def Arrival.bytes : List Arrival → Bytes
  | [] => []
  | .chunk more :: rest => more ++ bytes rest
  | .pending :: rest => bytes rest
  | .failure _ :: _ => []

namespace Response

/-! ## Reading the body -/

/-- A part is needed when the parts before it, after the bytes that are there already, are not enough and
have not failed. -/
def Needed (bytes : Bytes) (before : List Arrival) : Prop :=
  (bytes ++ Arrival.bytes before).length < detailLimit ∧ ∀ f, Arrival.failure f ∉ before

theorem collect_take (body : List Arrival) (bytes : Bytes) :
    (collect bytes body).1.take detailLimit = (bytes ++ Arrival.bytes body).take detailLimit := by
  induction body generalizing bytes with
  | nil => simp [collect, Arrival.bytes]
  | cons part rest ih =>
    unfold collect
    split
    · next hfull => rw [List.take_append_of_le_length hfull]
    · cases part with
      | chunk more => simpa [Arrival.bytes] using ih (bytes ++ more)
      | pending => exact ih bytes
      | failure f => simp [Arrival.bytes]

/-- The parts of a body that are asked for are those at its front, and each of them is needed. -/
theorem collect_needed (body : List Arrival) (bytes : Bytes) :
    ∃ read, body = read ++ (collect bytes body).2 ∧
      ∀ before part after, read = before ++ part :: after → Needed bytes before := by
  induction body generalizing bytes with
  | nil => exact ⟨[], rfl, fun before part after h => by simp at h⟩
  | cons part rest ih =>
    unfold collect
    split
    · exact ⟨[], rfl, fun before part after h => by simp at h⟩
    · next hopen =>
      have hfirst : Needed bytes [] := ⟨by simpa [Arrival.bytes] using Nat.lt_of_not_le hopen, nofun⟩
      -- the first part is needed, and what is read after it is needed after it
      have hmore : ∀ {bytes' read}, (∀ before part after, read = before ++ part :: after → Needed bytes' before) →
          (∀ before, Needed bytes' before → Needed bytes (part :: before)) →
          ∀ before part' after, part :: read = before ++ part' :: after → Needed bytes before := by
        intro bytes' read hread hstep before part' after h
        cases before with
        | nil => exact hfirst
        | cons first before =>
          obtain ⟨rfl, hrest⟩ := List.cons.inj h
          exact hstep before (hread before part' after hrest)
      cases part with
      | chunk more =>
        obtain ⟨read, hbody, hread⟩ := ih (bytes ++ more)
        refine ⟨.chunk more :: read, congrArg (_ :: ·) hbody, hmore hread fun before hneeded => ?_⟩
        exact ⟨by simpa [Arrival.bytes] using hneeded.1, fun f => by simpa using hneeded.2 f⟩
      | pending =>
        obtain ⟨read, hbody, hread⟩ := ih bytes
        refine ⟨.pending :: read, congrArg (_ :: ·) hbody, hmore hread fun before hneeded => ?_⟩
        exact ⟨hneeded.1, fun f => by simpa using hneeded.2 f⟩
      | failure f => exact ⟨[.failure f], rfl, fun before part' after h => by
          obtain ⟨rfl, -⟩ : before = [] ∧ _ := by simpa [List.cons_eq_append_iff] using h
          exact hfirst⟩

theorem detail_eq (r : Response) : r.detail =
    String.ofList (Text.trim (Text.Utf8.lossy ((Arrival.bytes (r.body.getD [])).take 4096))) := by
  have htake := collect_take (r.body.getD []) []
  simp only [detail]
  rw [htake]
  rfl

end Response

/-! ## The exchange -/

namespace Exchange

/-- The one event of a failed answer is the fault of its status and of the text of the first 4096 bytes that
come before its body fails or ends. Every other body that begins with the same bytes gives the same event,
and each part of the body that is asked for comes after fewer bytes than that and after no failure. -/
theorem run_unsuccessful {o : Options} {tags : List String} {d : Decoder} {send : Request → Except Fault Response}
    {r : Response} (hmodel : Text.blank o.model = false) (hd : Decoder.create o.backend tags = .ok d)
    (hsend : send ⟨o.backend.endpoint, o.body⟩ = .ok r) (hstatus : r.isSuccess = false) :
    let said := (Arrival.bytes (r.body.getD [])).take 4096
    (run o tags send).events =
        [.ofFault (.ofStatus r.status r.headers (String.ofList (Text.trim (Text.Utf8.lossy said))))] ∧
      (∀ body, (Arrival.bytes body).take 4096 = said →
        (run o tags fun _ => .ok { r with body := some body }).events = (run o tags send).events) ∧
      ∃ read, r.body.getD [] = read ++ (Response.collect [] (r.body.getD [])).2 ∧
        ∀ before part after, read = before ++ part :: after →
          (Arrival.bytes before).length < 4096 ∧ ∀ f, .failure f ∉ before := by
  intro said
  have hevents : ∀ r' : Response, r'.isSuccess = false → ∀ send', send' ⟨o.backend.endpoint, o.body⟩ = .ok r' →
      (run o tags send').events = [.ofFault (.ofStatus r'.status r'.headers r'.detail)] := by
    intro r' hfailed send' hsent
    rw [run_of_prepared hmodel hd, hsent, answer_of_unsuccessful hfailed]
  refine ⟨?_, fun body hbody => ?_, Response.collect_needed (r.body.getD []) []⟩
  · rw [hevents r hstatus send hsend, Response.detail_eq]
  · rw [hevents r hstatus send hsend, hevents { r with body := some body } hstatus _ rfl, Response.detail_eq,
      Response.detail_eq, Option.getD_some, hbody]

/-- A body that fails inside a character, with more behind the failure that is not asked for, and the same
bytes in other chunks. -/
theorem run_unsuccessful_cut :
    let o : Options := { backend := .responses, model := "m", messages := [] }
    let reset : Arrival := .failure (.transport "reset")
    let body : List Arrival := [.chunk [32, 98], .pending, .chunk [0xC3, 0xA9, 0xE2], reset, .chunk [98]]
    let other : List Arrival := [.chunk [], .chunk [32, 98, 0xC3], .chunk [0xA9, 0xE2]]
    let r : Response := { status := 503, body := some body }
    Text.blank o.model = false ∧ Decoder.create o.backend [] = .ok (.responses {}) ∧ r.isSuccess = false ∧
      (Arrival.bytes other).take 4096 = (Arrival.bytes body).take 4096 ∧
      (run o [] fun _ => .ok r).events = [.ofFault (.api 503 "bé\uFFFD")] ∧
      (run o [] fun _ => .ok { r with body := some other }).events = [.ofFault (.api 503 "bé\uFFFD")] ∧
      ∃ read, body = read ++ [.chunk [98]] ∧
        ∀ before part after, read = before ++ part :: after →
          (Arrival.bytes before).length < 4096 ∧ ∀ f, .failure f ∉ before := by
  intro o reset body other r
  have hmodel : Text.blank o.model = false := by decide +kernel
  have hcreate : Decoder.create o.backend [] = .ok (.responses {}) := rfl
  have hsame : (Arrival.bytes other).take 4096 = (Arrival.bytes body).take 4096 := rfl
  have hsaid : String.ofList (Text.trim (Text.Utf8.lossy ((Arrival.bytes body).take 4096))) = "bé\uFFFD" := by
    decide +kernel
  obtain ⟨hevents, hothers, hread⟩ := @run_unsuccessful o [] _ (fun _ => .ok r) r hmodel hcreate rfl rfl
  have hfault : (run o [] fun _ => .ok r).events = [.ofFault (.api 503 "bé\uFFFD")] := by
    rw [hevents]
    exact congrArg (fun text => [Event.ofFault (.api 503 text)]) hsaid
  exact ⟨hmodel, hcreate, rfl, hsame, hfault, (hothers other hsame).trans hfault, hread⟩

end Exchange

end ModelStream
