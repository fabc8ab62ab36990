import Mathlib.Data.List.Forall2
import Rtorrent.RpcLibrary

/-! # The answers to a JSON-RPC batch

Every element of a batch that is not a notification is due one response. They are written as one
text after all commands have run. -/
namespace JsonRpcBatch

open FallibleRuns RpcTextParser RpcCommandParser RpcCommandMap RpcRequests
open RpcBehaviour JsonDump RpcLibrary
open RpcTargets (Target)

variable {ω φ τ π : Type}

def Representable (v : Json) : Prop := ∃ text, dump v = .ok text

def answerId (request : Json) : Json :=
  match (request.get "id").getD .null with
  | .boolean _ | .array _ | .object _ => .null
  | id => id

/-- What the request comes to, or some error for an element that is no object. -/
inductive Due where
  | own (request response : Json)
  | someError

/-- An own response that cannot be written is replaced by an error with its id. -/
def Due.Met : Due → Json → Prop
  | .own request response, r => r.get "id" = some (answerId request) ∧
    (Representable response → r = response) ∧
    (¬Representable response → ∃ code what, r = jsonError code what (answerId request))
  | .someError, r => ∃ code what, r = jsonError code what .null

section

variable (env : Environment ω φ τ π) (perform : Performer ω (Target φ τ π))

end

/-- The text holds exactly the responses that are due, in their order. -/
def Answers (due : List Due) (text : Text) : Prop :=
  (due = [] ∧ text = []) ∨
    (due ≠ [] ∧ ∃ rs, dump (.array rs) = .ok text ∧ List.Forall₂ Due.Met due rs)

/-- A result of `R`, or an exception with a text of `G` for which a request has an answer. -/
def Yields {α : Type} (R : α → Prop) (G : String → Prop) (P : State ω (Target φ τ π) → Prop)
    (x : CommandRun (State ω (Target φ τ π)) α) (s : State ω (Target φ τ π)) : Prop :=
  Ends (fun a t => R a ∧ P t) (fun e t => Caught e ∧ (∀ kind what, e = .error kind what → G what) ∧
    P t) x s

mutual

theorem jsonToObject_refuses : ∀ depth v, Refuses (jsonToObject depth v)
  | _, .null | _, .float _ | 0, .array _ | 0, .object _ => by
    rw [jsonToObject]
    rintro e ⟨⟩
    exact ⟨rfl, by decide⟩
  | _, .number _ | _, .boolean _ | _, .string _ => by
    rw [jsonToObject]
    exact refuses_ok _
  | depth + 1, .array items => by
    rw [jsonToObject]
    exact refuses_bind (jsonToItems_refuses depth items) fun _ => refuses_ok _
  | depth + 1, .object entries => by
    rw [jsonToObject]
    exact refuses_bind (jsonToEntries_refuses depth entries) fun _ => refuses_ok _

theorem jsonToItems_refuses : ∀ depth items, Refuses (jsonToItems depth items)
  | _, [] => by
    rw [jsonToItems]
    exact refuses_ok _
  | depth, item :: items => by
    rw [jsonToItems]
    exact refuses_bind (jsonToObject_refuses depth item) fun _ =>
      refuses_bind (jsonToItems_refuses depth items) fun _ => refuses_ok _

theorem jsonToEntries_refuses : ∀ depth entries, Refuses (jsonToEntries depth entries)
  | _, [] => by
    rw [jsonToEntries]
    exact refuses_ok _
  | depth, (_, value) :: entries => by
    rw [jsonToEntries]
    exact refuses_bind (jsonToObject_refuses depth value) fun _ =>
      refuses_bind (jsonToEntries_refuses depth entries) fun _ => refuses_ok _

end

section

variable {env : Environment ω φ τ π} {α β : Type} {R : α → Prop} {G : String → Prop}
  {perform : Performer ω (Target φ τ π)} {P : State ω (Target φ τ π) → Prop}
  {s : State ω (Target φ τ π)}

end

/-- The commands `name` and `size`, where the name is no UTF-8 text. -/
def nameAndSize (key : Text) : Option (Entry (Slot Text (Target Unit Unit Unit))) :=
  if key = "name".toList then some ⟨flagPublicRpc, fun _ _ => .done (.string [Char.ofNat 255])⟩
  else if key = "size".toList then some ⟨flagPublicRpc, fun _ _ => .done (.value 1)⟩
  else none

def requestOf (method : String) (id : ℤ) : Json :=
  .object [("id".toList, .number id), ("method".toList, .string method.toList)]

def oneNumber : Text := "[1]".toList

def notificationOf (method : String) : Json := .object [("method".toList, .string method.toList)]

def sizeAndNotification : Text :=
  "[\x7b\"id\":1,\"method\":\"size\"\x7d,\x7b\"method\":\"name\"\x7d]".toList

def oneNameOneSize : Text :=
  "[\x7b\"id\":1,\"method\":\"name\"\x7d,\x7b\"id\":2,\"method\":\"size\"\x7d]".toList

/-- What the parser makes of these texts. Nothing is loaded. -/
def threeBatches : Environment Text Unit Unit Unit where
  parseJson text :=
    if text = oneNumber then .ok (.array [.number 1])
    else if text = sizeAndNotification then
      .ok (.array [requestOf "size" 1, notificationOf "name"])
    else if text = oneNameOneSize then .ok (.array [requestOf "name" 1, requestOf "size" 2])
    else .error "[json.exception.parse_error.101] parse error"
  dumpReplaced v := (dump v).toOption.getD []
  parseXml _ := .error "Error=XML_ERROR_EMPTY_DOCUMENT"
  printXml _ := []
  transformFromHex := RpcTargets.hexBytes
  downloads _ := []

def running : State Text (Target Unit Unit Unit) := ⟨nameAndSize, true, [], [], []⟩

def answerTo (text : Text) : Text :=
  (jsonProcess (library threeBatches) (perform 0) text (fun t _ => (.ok true, t)) running).2.world

end JsonRpcBatch
