/-
Tool calls and their results in the body of a request. Each backend's body is read back by what the backend's
protocol says of it, without regard to how it was built. When only the model's own messages ask for calls, the
three bodies hold the same calls and results: those of the conversation, in its order and each once
(`toolTurns_body`). The arguments of a call are a value in the one protocol and its text in the other two.
-/
import Mathlib.Data.List.Basic
import ModelStream.Proofs.Ordered
import ModelStream.Request

namespace ModelStream

/-! ## What a conversation holds -/

/-- A call that the model asks for, or what a tool has answered. -/
inductive ToolTurn
  | call (id name : String) (arguments : Json)
  | result (callId text : String)

/-- The calls of a message of the model, or the results of a message of tools. -/
def Message.toolTurns (m : Message) : List ToolTurn :=
  match m.role with
  | .assistant => m.calls.map fun c => .call c.id c.name c.arguments
  | .tool => m.results.map fun r => .result r.callId r.text
  | .system | .user => []

/-- A call with its arguments as compact text. -/
def ToolTurn.spelled : ToolTurn → ToolTurn
  | .call id name arguments => .call id name (.str arguments.render)
  | .result callId text => .result callId text

/-- The form in which a backend's body holds a call. -/
def ToolTurn.written : Backend → ToolTurn → ToolTurn
  | .anthropic, turn => turn
  | .responses, turn | .chat, turn => turn.spelled

/-! ## Reading a body -/

namespace Json

/-- The items of a field that holds a list. -/
def itemsOf (v : Json) (name : String) : List Json :=
  match v.get? name with
  | some (.arr items) => items
  | _ => []

/-- The text of a field that holds one. -/
def textOf? (v : Json) (name : String) : Option String := (v.get? name).bind str?

end Json

namespace Anthropic

/-- A part of a message's content that is a call or a result. -/
def toolTurn? (part : Json) : Option ToolTurn :=
  match part.textOf? "type" with
  | some "tool_use" => do return .call (← part.textOf? "id") (← part.textOf? "name") (← part.get? "input")
  | some "tool_result" => do return .result (← part.textOf? "tool_use_id") (← part.textOf? "content")
  | _ => none

def messageTurns (m : Json) : List ToolTurn := (m.itemsOf "content").filterMap toolTurn?

/-- Calls and results are parts of the messages. -/
def bodyTurns (body : Json) : List ToolTurn := (body.itemsOf "messages").flatMap messageTurns

end Anthropic

namespace Chat

def call? (call : Json) : Option ToolTurn := do
  let function ← call.get? "function"
  return .call (← call.textOf? "id") (← function.textOf? "name") (← function.get? "arguments")

def result? (m : Json) : Option ToolTurn :=
  if m.textOf? "role" = some "tool" then do return .result (← m.textOf? "tool_call_id") (← m.textOf? "content")
  else none

/-- A message has a list of calls, or is a result. -/
def messageTurns (m : Json) : List ToolTurn := (m.itemsOf "tool_calls").filterMap call? ++ (result? m).toList

def bodyTurns (body : Json) : List ToolTurn := (body.itemsOf "messages").flatMap messageTurns

end Chat

namespace Responses

/-- An item of the input that is a call or a result. -/
def toolTurn? (item : Json) : Option ToolTurn :=
  match item.textOf? "type" with
  | some "function_call" => do
    return .call (← item.textOf? "call_id") (← item.textOf? "name") (← item.get? "arguments")
  | some "function_call_output" => do return .result (← item.textOf? "call_id") (← item.textOf? "output")
  | _ => none

/-- Calls and results are items of their own. -/
def bodyTurns (body : Json) : List ToolTurn := (body.itemsOf "input").filterMap toolTurn?

end Responses

/-- The calls and results that a backend finds in a body. -/
def Backend.bodyTurns : Backend → Json → List ToolTurn
  | .anthropic => Anthropic.bodyTurns
  | .responses => Responses.bodyTurns
  | .chat => Chat.bodyTurns

/-! ## Fields of what is built -/

namespace Json

theorem get?_object (pairs : List (String × Json)) (name : String) :
    (object pairs).get? name = pairs.reverse.lookup name := Ordered.get?_ofList pairs name

theorem lookup_optionalField {name other : String} (h : name ≠ other) (v : Option Json) :
    (optionalField other v).reverse.lookup name = none := by
  have hne : (name == other) = false := by simpa using h
  cases v <;> simp [optionalField, List.lookup_cons, hne]

end Json

open Json

/-- Messages whose calls and results are those of the messages built for them. -/
theorem flatMap_toolTurns {build : Message → List Json} {read : Json → List ToolTurn} {form : ToolTurn → ToolTurn}
    {messages : List Message} (h : ∀ m ∈ messages, (build m).flatMap read = m.toolTurns.map form) :
    (messages.flatMap build).flatMap read = (messages.flatMap Message.toolTurns).map form := by
  rw [List.flatMap_assoc, List.map_flatMap]
  exact List.flatMap_congr h

/-! ## Parts of messages -/

namespace Anthropic

theorem itemsOf_messages (o : Options) : (requestBody o).itemsOf "messages" = o.messages.flatMap turns := by
  simp [requestBody, itemsOf, get?_object, List.lookup_append, lookup_optionalField, List.lookup_cons]

theorem messageTurns_turn (role : Role) (parts : List Json) :
    messageTurns (turn role (.arr parts)) = parts.filterMap toolTurn? := by
  simp [messageTurns, turn, itemsOf, get?_object]

/-- What a user says is no call and no result. -/
theorem messageTurns_user (parts : List Part) : messageTurns (turn .user (userContent parts)) = [] := by
  unfold userContent
  split
  · simp [messageTurns, turn, itemsOf, get?_object]
  · rw [messageTurns_turn, List.filterMap_filterMap, List.filterMap_eq_nil_iff]
    intro p _
    cases p <;> simp [userPart?, toolTurn?, textOf?, get?_object, List.lookup_cons, str?]

/-- Of the parts of the model only its calls are read as any. -/
theorem toolTurn?_assistantPart (p : Part) :
    (assistantPart? p).bind toolTurn? = p.call?.map fun c => .call c.id c.name c.arguments := by
  cases p with
  | text s =>
    simp only [assistantPart?, Part.call?]
    split <;> simp [toolTurn?, textOf?, get?_object, List.lookup_cons, str?]
  | reasoning s signature =>
    cases signature <;> simp [assistantPart?, Part.call?, toolTurn?, textOf?, get?_object, List.lookup_cons, str?]
  | _ => simp [assistantPart?, Part.call?, toolTurn?, textOf?, get?_object, List.lookup_cons, str?]

theorem messageTurns_result (r : CallResult) :
    messageTurns (turn .user (.arr [resultPart r])) = [.result r.callId r.text] := by
  simp [messageTurns_turn, toolTurn?, resultPart, textOf?, get?_object, List.lookup_cons, str?]

theorem turns_toolTurns (m : Message) : (turns m).flatMap messageTurns = m.toolTurns := by
  cases hrole : m.role with
  | system => simp [turns, hrole, Message.toolTurns]
  | user => simp [turns, hrole, Message.toolTurns, messageTurns_user]
  | assistant =>
    have hparts : (m.content.filterMap assistantPart?).filterMap toolTurn? = m.toolTurns := by
      simp only [Message.toolTurns, hrole, Message.calls, List.filterMap_filterMap, List.map_filterMap,
        toolTurn?_assistantPart]
    rw [← hparts]
    simp only [turns, hrole]
    cases m.content.filterMap assistantPart? <;> simp [messageTurns_turn]
  | tool => simp only [turns, hrole, Message.toolTurns, List.flatMap_map, messageTurns_result, ← List.map_eq_flatMap]

end Anthropic

namespace Chat

theorem itemsOf_messages (o : Options) : (requestBody o).itemsOf "messages" = o.messages.flatMap turns := by
  simp [requestBody, itemsOf, get?_object, List.lookup_append, lookup_optionalField, List.lookup_cons]

theorem call?_callJson (c : Call) : call? (callJson c) = some (.call c.id c.name (.str c.arguments.render)) := by
  simp [call?, callJson, textOf?, get?_object, List.lookup_cons, str?]

theorem messageTurns_result (r : CallResult) : messageTurns (resultTurn r) = [.result r.callId r.text] := by
  simp [messageTurns, resultTurn, itemsOf, result?, textOf?, get?_object, List.lookup_cons, str?]

theorem role_name_ne_tool {role : Role} (h : role ≠ .tool) : role.name ≠ "tool" := by
  cases role <;> first | decide | exact absurd rfl h

theorem messageTurns_calls {m : Message} (h : m.role ≠ .tool) :
    messageTurns (callsTurn m) = m.calls.map fun c => .call c.id c.name (.str c.arguments.render) := by
  simp [messageTurns, callsTurn, itemsOf, result?, textOf?, get?_object, List.lookup_cons, str?, role_name_ne_tool h,
    List.filterMap_map, call?_callJson]

/-- A message without calls is read as one. -/
theorem contentTurns_toolTurns {role : Role} (h : role ≠ .tool) (parts : List Part) :
    (contentTurns role parts).flatMap messageTurns = [] := by
  have hturn : ∀ content, messageTurns (object [("role", .str role.name), ("content", content)]) = [] := by
    intro content
    simp [messageTurns, itemsOf, result?, textOf?, get?_object, List.lookup_cons, str?, role_name_ne_tool h]
  unfold contentTurns
  simp only
  split
  · simp [hturn]
  · split <;> simp [hturn]

theorem turns_toolTurns {m : Message} (h : m.role ≠ .assistant → m.calls = []) :
    (turns m).flatMap messageTurns = m.toolTurns.map ToolTurn.spelled := by
  by_cases htool : m.role = .tool
  · simp only [turns, htool, Message.toolTurns, List.flatMap_map, messageTurns_result, ← List.map_eq_flatMap, if_true,
      List.map_map]
    rfl
  · have hcalls : m.toolTurns.map ToolTurn.spelled =
        m.calls.map fun c => ToolTurn.call c.id c.name (.str c.arguments.render) := by
      cases hrole : m.role with
      | assistant => simp [Message.toolTurns, hrole, ToolTurn.spelled]
      | tool => exact absurd hrole htool
      | _ => simp [Message.toolTurns, hrole, h]
    rw [hcalls]
    cases hempty : m.calls with
    | nil => simp [turns, htool, hempty, contentTurns_toolTurns htool]
    | cons c more => simp [turns, htool, hempty, messageTurns_calls htool]

end Chat

namespace Responses

theorem itemsOf_input (o : Options) : (requestBody o).itemsOf "input" = o.messages.flatMap items := by
  simp [requestBody, itemsOf, get?_object, List.lookup_append, lookup_optionalField, List.lookup_cons]

theorem toolTurn?_callItem (c : Call) : toolTurn? (callItem c) = some (.call c.id c.name (.str c.arguments.render)) := by
  simp [toolTurn?, callItem, textOf?, get?_object, List.lookup_cons, str?]

theorem toolTurn?_resultItem (r : CallResult) : toolTurn? (resultItem r) = some (.result r.callId r.text) := by
  simp [toolTurn?, resultItem, textOf?, get?_object, List.lookup_cons, str?]

/-- What a message shows is no call and no result. -/
theorem contentItems_toolTurns (role : Role) (parts : List Part) :
    (contentItems role parts).filterMap toolTurn? = [] := by
  have hitem : ∀ content, toolTurn? (object [("role", .str role.name), ("content", content)]) = none := by
    intro content
    simp [toolTurn?, textOf?, get?_object, List.lookup_cons]
  unfold contentItems
  simp only
  split <;> simp [hitem]

theorem items_toolTurns {m : Message} (h : m.role ≠ .assistant → m.calls = []) :
    (items m).filterMap toolTurn? = m.toolTurns.map .spelled := by
  cases hrole : m.role with
  | tool =>
    simp [items, hrole, Message.toolTurns, List.filterMap_map, Function.comp_def, toolTurn?_resultItem, ToolTurn.spelled]
  | assistant =>
    simp [items, hrole, Message.toolTurns, List.filterMap_map, Function.comp_def, toolTurn?_callItem, ToolTurn.spelled,
      contentItems_toolTurns]
  | _ => simp [items, hrole, Message.toolTurns, contentItems_toolTurns, h]

end Responses

/-! ## A whole body -/

/-- A body holds the calls and results of the conversation, in order and each once. -/
theorem toolTurns_body (o : Options) (h : ∀ m ∈ o.messages, m.role ≠ .assistant → m.calls = []) (backend : Backend) :
    backend.bodyTurns { o with backend }.body = (o.messages.flatMap Message.toolTurns).map (.written backend) := by
  cases backend with
  | anthropic =>
    refine (congrArg (List.flatMap Anthropic.messageTurns) (Anthropic.itemsOf_messages _)).trans ?_
    refine flatMap_toolTurns fun m _ => (Anthropic.turns_toolTurns m).trans ?_
    exact (List.map_id' _).symm
  | responses =>
    refine (congrArg (List.filterMap Responses.toolTurn?) (Responses.itemsOf_input _)).trans ?_
    rw [List.filterMap_eq_flatMap_toList]
    refine flatMap_toolTurns fun m hm => ?_
    rw [← List.filterMap_eq_flatMap_toList]
    exact Responses.items_toolTurns (h m hm)
  | chat =>
    refine (congrArg (List.flatMap Chat.messageTurns) (Chat.itemsOf_messages _)).trans ?_
    exact flatMap_toolTurns fun m hm => Chat.turns_toolTurns (h m hm)

/-- Calls between texts, reasoning and a picture, a result where it does not count, two results in one message of
tools with a text between them, one of which is no string, and messages that leave nothing in a body. -/
theorem toolTurns_body_mixed :
    let arguments := Json.object [("q", .str "a"), ("n", .number (.int 2))]
    let o : Options := { backend := .chat, model := "m", messages :=
      [ { role := .system, content := [.text "s", .result { callId := "x", result := .null }] },
        { role := .user, content := [.text "u", .image { data := "AA", mimeType := "image/png" }] },
        { role := .assistant, content := [.text "", .call { id := "c1", name := "f", arguments }, .reasoning "r" none,
            .text "t", .call { id := "c2", name := "g", arguments := .null }] },
        { role := .tool, content := [.result { callId := "c2", result := .str "b" }, .text "t",
            .result { callId := "c1", result := .arr [.bool true], isError := true }] },
        { role := .assistant, content := [.reasoning "r" none] } ] }
    (∀ m ∈ o.messages, m.role ≠ .assistant → m.calls = []) ∧
      Backend.anthropic.bodyTurns { o with backend := .anthropic }.body =
        [.call "c1" "f" arguments, .call "c2" "g" .null, .result "c2" "b", .result "c1" "[true]"] ∧
      Backend.responses.bodyTurns { o with backend := .responses }.body =
        [.call "c1" "f" "\x7b\"n\":2,\"q\":\"a\"\x7d", .call "c2" "g" "null", .result "c2" "b", .result "c1" "[true]"] ∧
      Backend.chat.bodyTurns { o with backend := .chat }.body =
        [.call "c1" "f" "\x7b\"n\":2,\"q\":\"a\"\x7d", .call "c2" "g" "null", .result "c2" "b", .result "c1" "[true]"] := by
  intro arguments o
  have h : ∀ m ∈ o.messages, m.role ≠ .assistant → m.calls = [] := by simp [o, Message.calls, Part.call?]
  exact ⟨h, toolTurns_body o h .anthropic, toolTurns_body o h .responses, toolTurns_body o h .chat⟩

end ModelStream
