import Rtorrent.JsonDump
import Rtorrent.RpcBehaviour
import Rtorrent.RpcIntegers
import Rtorrent.RpcTargets

/-! # Requests with the conversions of the program

The targets, the results and the texts of answers are those of the program. The parsers, the
printers that do not fail and the loaded downloads are left open. -/
namespace RpcLibrary

open FallibleRuns RpcTextParser RpcCommandParser RpcCommandMap RpcRequests RpcBehaviour
open JsonDump RpcIntegers
open XmlRpcDocument (XmlNode Document documentOf element)
open ObjectRoundTrips (printObject)
open RpcTargets (Target Download HashString invalid)

structure Environment (ω φ τ π : Type) where
  parseJson : Text → Except String Json
  dumpReplaced : Json → Text
  parseXml : Text → Document
  printXml : XmlNode → Text
  transformFromHex : Text → Option HashString
  downloads : ω → List (Download φ τ π)

variable {ω φ τ π : Type}

def printXmlrpcResponse (result : Object) : XmlNode :=
  element "methodResponse" [element "params" [element "param" [element "value"
    [printObject result]]]]

def printXmlrpcFault (faultCode : ℤ) (faultString : String) : XmlNode :=
  element "methodResponse" [element "fault" [element "value"
    [printObject (faultObject faultCode faultString)]]]

def library (env : Environment ω φ τ π) : Library ω (Target φ τ π) where
  parseJson := env.parseJson
  dumpJson := dump
  dumpReplaced := env.dumpReplaced
  objectToJson obj := .ok (objectToJson obj)
  parseXml text := documentOf (env.parseXml text)
  printResult result := env.printXml (printXmlrpcResponse result)
  printFault type what := env.printXml (printXmlrpcFault type what)
  makeTarget := .empty
  objectToTarget world := RpcTargets.objectToTarget env.transformFromHex (env.downloads world)

/-- It throws nothing but `input_error` with UTF-8 texts. -/
def Refuses {α : Type} (x : Except Error α) : Prop :=
  ∀ e, x = .error e → e.1 = .inputError ∧ isUtf8 e.2.toList = true

variable {α β : Type}

theorem refuses_ok (a : α) : Refuses (.ok a : Except Error α) := by
  rintro e ⟨⟩

theorem refuses_bind {x : Except Error α} {f : α → Except Error β} (hx : Refuses x)
    (hf : ∀ a, Refuses (f a)) : Refuses (x >>= f) := by
  cases x with
  | ok a => exact hf a
  | error e =>
    rintro e' ⟨⟩
    exact hx e rfl

variable (transformFromHex : Text → Option HashString)

section

variable (env : Environment ω φ τ π)

theorem library_targets : StringTargets (library env) := by
  intro world flags obj h
  cases obj with
  | string s => exact absurd rfl (h s)
  | _ => rfl

/-- With the targets of the program the parameters decide alone. -/
theorem received_iff_int64 (world : ω) (flags : BitVec 32) (params : Params) :
    (∀ r, received (library env) world flags params = some r →
      meant (library env) world flags params = some r) ↔
    ∀ r, meant (library env) world flags params = some r → allItems isInt64 r.2 = true :=
  exact_iff_of_map (received_eq (library_targets env) world flags params)

end

variable {env : Environment ω φ τ π}

end RpcLibrary
