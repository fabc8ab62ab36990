import Mathlib.Algebra.Group.Nat.Defs
import Rtorrent.RpcCommandMap

/-! # Requests of RPC connections

What a JSON or an XML library reads from a request is answered command by command. The
libraries and the conversions of objects that run no command are parameters. -/
namespace RpcRequests

open FallibleRuns RpcTextParser RpcCommandParser RpcCommandMap

inductive Json where
  | null
  | boolean (b : Bool)
  | number (v : ℤ)
  | float (text : Text)
  | string (s : Text)
  | array (items : List Json)
  | object (entries : List (Text × Json))
  deriving Repr

namespace Json

def get (key : String) : Json → Option Json
  | .object entries => entries.lookup key.toList
  | _ => none

def typeName : Json → String
  | .null => "null"
  | .boolean _ => "boolean"
  | .number _ | .float _ => "number"
  | .string _ => "string"
  | .array _ => "array"
  | .object _ => "object"

end Json

/-- A `methodCall` with its `value` elements, each read when it is reached. -/
structure XmlCall where
  method : Text
  params : List (Except Error Object)

inductive XmlDocument where
  | invalid (e : Error)
  | methodCall (call : XmlCall)
  | multicall (calls : List (Except Error XmlCall))

structure Library (ω τ : Type) where
  parseJson : Text → Except String Json
  dumpJson : Json → Except String Text
  dumpReplaced : Json → Text
  objectToJson : Object → Except Error Json
  parseXml : Text → XmlDocument
  printResult : Object → Text
  printFault : ℤ → String → Text
  makeTarget : τ
  objectToTarget : ω → Object → BitVec 32 → Except Error τ

/-- Writes the response; it changes the connection and runs no command. -/
abbrev Callback (ω : Type) := Text → ω → Except Error Bool × ω

variable {ω τ : Type}

def raise {α : Type} (e : Error) : CommandRun (State ω τ) α := Run.fail (.error e.1 e.2)

def check {α : Type} : Except Error α → CommandRun (State ω τ) α
  | .ok a => pure a
  | .error e => raise e

def respond (callback : Callback ω) (text : Text) : CommandRun (State ω τ) Bool := do
  let s ← Run.get
  Run.modify fun t => { t with world := (callback text s.world).2 }
  check (callback text s.world).1

/-- An `untrusted_error` becomes an `rpc_error` of this type. -/
def refuse {α : Type} (type : ℤ) (x : CommandRun (State ω τ) α) : CommandRun (State ω τ) α :=
  Run.handle x fun
    | .error .untrustedError what => raise (.rpcError type, what)
    | e => Run.fail e

def jsonrpcParseError : ℤ := -32700
def jsonrpcInvalidRequestError : ℤ := -32600
def jsonrpcMethodNotFoundError : ℤ := -32601
def jsonrpcInvalidParamsError : ℤ := -32602
def jsonrpcInternalError : ℤ := -32000

def maxJsonDepth : ℕ := 1024

mutual

/-- The first argument is how many levels are left below `max_json_depth`. -/
def jsonToObject : ℕ → Json → Except Error Object
  | _, .number v => .ok (.value (Int.bmod v (2 ^ 64)))
  | _, .boolean b => .ok (.value (if b then 1 else 0))
  | _, .string s => .ok (.string s)
  | 0, .array _ | 0, .object _ =>
    .error (.inputError, "invalid parameters: max depth reached")
  | depth + 1, .array items => do
    let items ← jsonToItems depth items
    .ok (.list items)
  | depth + 1, .object entries => do
    let entries ← jsonToEntries depth entries
    .ok (.map entries)
  | _, .float _ => .error (.inputError, "invalid parameters: unexpected data type float")
  | _, .null => .error (.inputError, "invalid parameters: unexpected data type null")

def jsonToItems : ℕ → List Json → Except Error (List Object)
  | _, [] => .ok []
  | depth, item :: items => do
    let item ← jsonToObject depth item
    let items ← jsonToItems depth items
    .ok (item :: items)

def jsonToEntries : ℕ → List (Text × Json) → Except Error (List (Text × Object))
  | _, [] => .ok []
  | depth, (key, value) :: entries => do
    let value ← jsonToObject depth value
    let entries ← jsonToEntries depth entries
    .ok ((key, value) :: entries)

end

mutual

def objectToJson : Object → Json
  | .value v => .number v
  | .string s => .string s
  | .list items => .array (itemsToJson items)
  | .map entries => .object (entriesToJson entries)
  | .dictKey _ key (.list items) => .array (.string key :: itemsToJson items)
  | .dictKey _ key obj => .array [.string key, objectToJson obj]
  | .none | .rawString _ => .number 0

def itemsToJson : List Object → List Json
  | [] => []
  | item :: items => objectToJson item :: itemsToJson items

def entriesToJson : List (Text × Object) → List (Text × Json)
  | [] => []
  | (key, value) :: entries => (key, objectToJson value) :: entriesToJson entries

end

def jsonError (code : ℤ) (message : String) (id : Json) : Json :=
  .object [("error".toList, .object [("code".toList, .number code),
      ("message".toList, .string message.toList)]),
    ("id".toList, id), ("jsonrpc".toList, .string "2.0".toList)]

def jsonResponse (id result : Json) : Json :=
  .object [("id".toList, id), ("jsonrpc".toList, .string "2.0".toList),
    ("result".toList, result)]

section

variable (lib : Library ω τ) (perform : Performer ω τ)

def jsonrpcCallCommand (method : Text) : Json → CommandRun (State ω τ) Json
  | .object _ => raise (.rpcError jsonrpcInvalidParamsError,
      "invalid parameter: procedure named parameter not supported")
  | .array items => do
    let s ← Run.get
    match (s.commands (cString method)).filter fun entry => hasFlag entry.flags flagPublicRpc with
    | none => raise (.rpcError jsonrpcMethodNotFoundError,
        "method not found: " ++ String.ofList method)
    | some entry =>
      let params ← check (jsonToItems (maxJsonDepth - 2) items)
      match if params.isEmpty then [.string []] else params with
      | .string target :: params =>
        let target ← check (lib.objectToTarget s.world (.string target) entry.flags)
        refuse jsonrpcMethodNotFoundError do
          let result ← callEntry perform (cString method) entry (.list params) target
          check (lib.objectToJson result)
      | _ => raise (.inputError, "invalid parameters: target must be a string")
  | _ => raise (.rpcError jsonrpcInvalidRequestError,
      "invalid request: params field must be an array")

def callMethod (method : Text) (request : Json) : CommandRun (State ω τ) Json :=
  jsonrpcCallCommand lib perform method ((request.get "params").getD (.array [.string []]))

def handleRequest (request : Json) : CommandRun (State ω τ) Json :=
  match (request.get "id").getD .null with
  | .boolean _ | .array _ | .object _ =>
    pure (jsonError jsonrpcInvalidRequestError ("request id is invalid type " ++
      ((request.get "id").getD .null).typeName) .null)
  | id =>
    match request.get "method" with
    | some (.string method) =>
      Run.handle (do let result ← callMethod lib perform method request
                     pure (jsonResponse id result)) fun
        | .error (.rpcError type) what => pure (jsonError type what id)
        | .error .inputError what | .error .untrustedError what =>
          pure (jsonError jsonrpcInvalidParamsError what id)
        | .error .localError what => pure (jsonError jsonrpcInternalError what id)
        | e => Run.fail e
    | _ => pure (jsonError jsonrpcInvalidRequestError "method string not present" id)

/-- Every error of a notification is dropped. -/
def handleNotification (request : Json) : CommandRun (State ω τ) Unit :=
  match request.get "method" with
  | some (.string method) => do
    let _ ← attempt (callMethod lib perform method request)
    pure ()
  | _ => pure ()

def handleBatch : List Json → CommandRun (State ω τ) (List Json)
  | [] => pure []
  | item :: items =>
    match item.get "id" with
    | none => do
      handleNotification lib perform item
      handleBatch items
    | some _ => do
      let response ← handleRequest lib perform item
      let responses ← handleBatch items
      pure (response :: responses)

def respondJson (callback : Callback ω) (response : Json) : CommandRun (State ω τ) Bool :=
  match lib.dumpJson response with
  | .ok text => respond callback text
  | .error what => respond callback (lib.dumpReplaced (jsonError jsonrpcParseError what .null))

def jsonProcess (text : Text) (callback : Callback ω) : CommandRun (State ω τ) Bool :=
  match lib.parseJson text with
  | .error what => respond callback (lib.dumpReplaced (jsonError jsonrpcParseError what .null))
  | .ok (.object entries) =>
    match (Json.object entries).get "id" with
    | none => do
      handleNotification lib perform (.object entries)
      respond callback []
    | some _ => do
      let response ← handleRequest lib perform (.object entries)
      respondJson lib callback response
  | .ok (.array []) => respondJson lib callback
      (jsonError jsonrpcInvalidRequestError "invalid request: empty batch" .null)
  | .ok (.array items) => do
    let responses ← handleBatch lib perform items
    if responses.isEmpty then respond callback [] else respondJson lib callback (.array responses)
  | .ok body => respondJson lib callback
      (jsonError jsonrpcParseError ("message type " ++ body.typeName ++ " unsupported") .null)

def xmlrpcInternalError : ℤ := -500
def xmlrpcTypeError : ℤ := -501
def xmlrpcNoSuchMethodError : ℤ := -506
def xmlrpcRequestRefusedError : ℤ := -507
def xmlrpcLimitExceededError : ℤ := -509

def checkAll : List (Except Error Object) → CommandRun (State ω τ) (List Object)
  | [] => pure []
  | item :: items => do
    let item ← check item
    let items ← checkAll items
    pure (item :: items)

/-- The first parameter is the target. -/
def readParams (flags : BitVec 32) :
    List (Except Error Object) → CommandRun (State ω τ) (τ × List Object)
  | [] => pure (lib.makeTarget, [])
  | first :: params => do
    let first ← check first
    let s ← Run.get
    let target ← check (lib.objectToTarget s.world first flags)
    let params ← checkAll params
    pure (target, params)

def executeCommand (call : XmlCall) : CommandRun (State ω τ) Object := do
  let s ← Run.get
  match (s.commands (cString call.method)).filter fun entry =>
      hasFlag entry.flags flagPublicRpc with
  | none => raise (.rpcError xmlrpcNoSuchMethodError,
      "method '" ++ String.ofList call.method ++ "' not defined")
  | some entry =>
    let (target, params) ← readParams lib entry.flags call.params
    if params.isEmpty && hasFlag entry.flags (flagFileTarget ||| flagTrackerTarget) then
      raise (.rpcError xmlrpcTypeError, "invalid parameters: too few")
    else
      refuse xmlrpcRequestRefusedError
        (callEntry perform (cString call.method) entry (.list params) target)

def faultObject (type : ℤ) (what : String) : Object :=
  .map [("faultCode".toList, .value type), ("faultString".toList, .string what.toList)]

/-- The answer to an `rpc_error` or a `local_error`. -/
def onFault {α : Type} (answer : ℤ → String → CommandRun (State ω τ) α)
    (x : CommandRun (State ω τ) α) : CommandRun (State ω τ) α :=
  Run.handle x fun
    | .error (.rpcError type) what => answer type what
    | .error .localError what | .error .inputError what | .error .untrustedError what =>
      answer xmlrpcInternalError what
    | e => Run.fail e

def executeMulticall : List (Except Error XmlCall) → CommandRun (State ω τ) (List Object)
  | [] => pure []
  | call :: calls => do
    let call ← check call
    let result ← onFault (fun type what => pure (faultObject type what)) do
      let result ← executeCommand lib perform call
      pure (.list [result])
    let results ← executeMulticall calls
    pure (result :: results)

def processDocument : XmlDocument → CommandRun (State ω τ) Object
  | .invalid e => raise e
  | .methodCall call => executeCommand lib perform call
  | .multicall calls => do
    let results ← executeMulticall lib perform calls
    pure (.list results)

def xmlProcess (sizeLimit : ℕ) (text : Text) (callback : Callback ω) :
    CommandRun (State ω τ) Bool :=
  if sizeLimit < text.length then
    respond callback (lib.printFault xmlrpcLimitExceededError
      "Content size exceeds maximum XML-RPC limit")
  else
    onFault (fun type what => respond callback (lib.printFault type what)) do
      let result ← processDocument lib perform (lib.parseXml text)
      respond callback (lib.printResult result)

inductive RPCType where
  | xml
  | json
  deriving DecidableEq, Repr

structure Settings where
  xmlrpcValid : Bool
  useXmlrpc : Bool
  useJsonrpc : Bool
  sizeLimit : ℕ

def xmlrpcNotSupported : String :=
  "<?xml version=\"1.0\"?><methodResponse><fault><value><struct><member><name>faultCode</name>" ++
  "<value><i8>-501</i8></value></member><member><name>faultString</name><value>" ++
  "<string>XML-RPC not supported</string></value></member></struct></value></fault>" ++
  "</methodResponse>"

def jsonrpcNotSupported : String :=
  "\x7b\"jsonrpc\":\"2.0\",\"error\":\x7b\"code\":-32601," ++
  "\"message\":\"JSON-RPC not supported\"\x7d,\"id\":null\x7d"

def process (settings : Settings) (type : RPCType) (text : Text) (callback : Callback ω) :
    CommandRun (State ω τ) Bool :=
  match type with
  | .xml =>
    if !settings.xmlrpcValid || !settings.useXmlrpc then
      respond callback xmlrpcNotSupported.toList
    else xmlProcess lib perform settings.sizeLimit text callback
  | .json =>
    if !settings.useJsonrpc then respond callback jsonrpcNotSupported.toList
    else jsonProcess lib perform text callback

def setTrusted (trusted : Bool) : CommandRun (State ω τ) Unit :=
  Run.modify fun s => { s with trusted := trusted }

/-- A run that has not come to its end restores nothing. -/
def processUntrusted (settings : Settings) (type : RPCType) (text : Text)
    (callback : Callback ω) : CommandRun (State ω τ) Bool := do
  let previous ← (do let s ← Run.get; pure s.trusted)
  setTrusted false
  let result ← attempt (process lib perform settings type text callback)
  setTrusted previous
  check result

end

end RpcRequests
