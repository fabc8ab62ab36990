import Rtorrent.ObjectStorage
import Rtorrent.RpcRequests

/-! # XML-RPC documents

The elements of a parsed document, the objects that its values stand for and the calls that
it makes. A `nullptr` that the code follows is a failure of its own. -/
namespace XmlRpcDocument

open FallibleRuns RpcTextParser RpcCommandParser RpcCommandMap
open RpcRequests hiding executeCommand processDocument
open RpcValueParser (strtoll)
open ObjectStorage (insertEntry)

inductive XmlNode where
  | element (name : Text) (children : List XmlNode)
  | text (value : Text)
  | comment (value : Text)
  | unknown (value : Text)
  deriving Repr

namespace XmlNode

def value : XmlNode → Text
  | .element v _ | .text v | .comment v | .unknown v => cString v

def children : XmlNode → List XmlNode
  | .element _ children => children
  | _ => []

def isElement : XmlNode → Bool
  | .element _ _ => true
  | _ => false

def isComment : XmlNode → Bool
  | .comment _ => true
  | _ => false

def toText : XmlNode → Option Text
  | .text v => some (cString v)
  | _ => none

def isNamed (name : String) (node : XmlNode) : Bool :=
  node.isElement && node.value == name.toList

def firstChildElement (name : String) (node : XmlNode) : Option XmlNode :=
  node.children.find? (isNamed name)

/-- The first such element and then each next sibling. -/
def childElements (name : String) (node : XmlNode) : List XmlNode :=
  node.children.filter (isNamed name)

/-- Comments before the text are skipped. -/
def getText (node : XmlNode) : Option Text :=
  (node.children.dropWhile isComment).head?.bind toText

end XmlNode

open XmlNode (isNamed isElement firstChildElement childElements getText)

inductive ReadFailure where
  | rpcError (type : ℤ) (what : String)
  | inputError (what : String)
  | nullPointer
  deriving DecidableEq, Repr

abbrev Read := Except ReadFailure

def xmlrpcParseError : ℤ := -503

def readError {α : Type} (type : ℤ) (what : String) : Read α := .error (.rpcError type what)

def elementAccess : XmlNode → List String → Read XmlNode
  | elem, [] => .ok elem
  | elem, name :: names =>
    match firstChildElement name elem with
    | none => readError xmlrpcParseError ("could not find expected element " ++ name)
    | some result => elementAccess result names

def elementTextValue (node : XmlNode) : Read Text :=
  match node.toText with
  | none => readError xmlrpcTypeError "expected a text value"
  | some text => .ok text

def elementToInt (children : List XmlNode) : Read ℤ :=
  match children with
  | [] => readError xmlrpcTypeError "unable to parse empty integer"
  | child :: _ => do
    let str ← elementTextValue child
    match strtoll 10 str with
    | some (result, []) => .ok result
    | _ => readError xmlrpcTypeError "unable to parse integer value"

def removeNewlines (str : Text) : Text := str.filter fun c => c != '\n' && c != '\r'

def base64Digit (c : Char) : Option ℕ :=
  if 'A' ≤ c ∧ c ≤ 'Z' then some (c.toNat - 0x41)
  else if 'a' ≤ c ∧ c ≤ 'z' then some (c.toNat - 0x47)
  else if '0' ≤ c ∧ c ≤ '9' then some (c.toNat + 0x04)
  else if c = '+' then some 0x3E
  else if c = '/' then some 0x3F
  else none

def byteOf (temp : BitVec 64) (shift : ℕ) : Char := Char.ofNat ((temp >>> shift) &&& 0xFF).toNat

/-- The digits are shifted through `temp`, which is not cleared between the quanta. -/
def decodeQuanta : ℕ → BitVec 64 → Text → Read Text
  | _, _, [] => .ok []
  | position, temp, c :: cursor =>
    match base64Digit c with
    | some digit =>
      let temp := (temp <<< 6) ||| BitVec.ofNat 64 digit
      if position = 3 then do
        let decodedBytes ← decodeQuanta 0 temp cursor
        .ok (byteOf temp 16 :: byteOf temp 8 :: byteOf temp 0 :: decodedBytes)
      else decodeQuanta (position + 1) temp cursor
    | none =>
      let temp := temp <<< 6
      if c = '=' then
        match cursor with
        | [] => .ok [byteOf temp 16, byteOf temp 8]
        | [_] => .ok [byteOf temp 10]
        | _ => .error (.inputError "Invalid padding in base64.")
      else .error (.inputError "Invalid character in base64.")

def decodeBase64 (input : Text) : Read Text :=
  if input.length % 4 ≠ 0 then .error (.inputError "Invalid base64.")
  else decodeQuanta 0 0 input

/-- The types of `xml_value_to_object` without values below them. -/
def plainToObject (type : Text) (children : List XmlNode) : Read Object :=
  if type = "string".toList then
    match children with
    | [] => .ok (.string [])
    | child :: _ => do
      let text ← elementTextValue child
      .ok (.string text)
  else if type = "int".toList ∨ type = "i4".toList ∨ type = "i8".toList then do
    let value ← elementToInt children
    .ok (.value value)
  else if type = "boolean".toList then
    match children with
    | [] => readError xmlrpcTypeError "empty boolean element"
    | child :: _ => do
      let text ← elementTextValue child
      if text = "1".toList then .ok (.value 1)
      else if text = "0".toList then .ok (.value 0)
      else readError xmlrpcTypeError ("unknown boolean value: " ++ String.ofList text)
  else if type = "base64".toList then
    match children with
    | [] => .ok (.string [])
    | child :: _ => do
      let text ← elementTextValue child
      let decoded ← decodeBase64 (removeNewlines text)
      .ok (.string decoded)
  else readError xmlrpcInternalError ("received unsupported value type: " ++ String.ofList type)

mutual

/-- `xml_value_to_object` for a node. -/
def valueToObject : XmlNode → Read Object
  | .element name children =>
    if cString name ≠ "value".toList then
      readError xmlrpcInternalError "received non-value element to convert"
    else
      match children with
      | [] => readError xmlrpcTypeError "empty value element"
      | root :: _ => rootToObject root
  | .text name | .comment name | .unknown name =>
    if cString name ≠ "value".toList then
      readError xmlrpcInternalError "received non-value element to convert"
    else readError xmlrpcTypeError "empty value element"

/-- The first child of a value may be of any kind. For a text or a comment `ToElement` gives a
`nullptr`, and it has no children. -/
def rootToObject : XmlNode → Read Object
  | .element name children =>
    if cString name = "array".toList then do
      let items ← dataToItems children
      .ok (.list items)
    else if cString name = "struct".toList then do
      let entries ← membersToEntries [] children
      .ok (.map entries)
    else plainToObject (cString name) children
  | .text type | .comment type | .unknown type =>
    if cString type = "array".toList then .error .nullPointer
    else if cString type = "struct".toList then .ok (.map [])
    else plainToObject (cString type) []

def dataToItems : List XmlNode → Read (List Object)
  | [] => readError xmlrpcParseError "could not find expected data element in array"
  | .element name children :: nodes =>
    if cString name = "data".toList then valuesToItems children else dataToItems nodes
  | _ :: nodes => dataToItems nodes

def valuesToItems : List XmlNode → Read (List Object)
  | [] => .ok []
  | node :: nodes =>
    if isNamed "value" node then do
      let item ← valueToObject node
      let items ← valuesToItems nodes
      .ok (item :: items)
    else valuesToItems nodes

def membersToEntries (entries : List (Text × Object)) :
    List XmlNode → Read (List (Text × Object))
  | [] => .ok entries
  | .element name children :: nodes =>
    if cString name = "member".toList then
      match children.find? (isNamed "name") with
      | none => readError xmlrpcParseError "struct member missing name element"
      | some nameElement =>
        match getText nameElement with
        | none => readError xmlrpcParseError "struct member has an empty name element"
        | some nameText => do
          let value ← firstValueToObject children
          membersToEntries (insertEntry nameText value entries) nodes
    else membersToEntries entries nodes
  | _ :: nodes => membersToEntries entries nodes

def firstValueToObject : List XmlNode → Read Object
  | [] => readError xmlrpcInternalError "received null element to convert"
  | node :: nodes => if isNamed "value" node then valueToObject node else firstValueToObject nodes

end

def xmlValueToObject : Option XmlNode → Read Object
  | none => readError xmlrpcInternalError "received null element to convert"
  | some elem => valueToObject elem

inductive XmlFailure where
  | thrown (e : Failure)
  | nullPointer
  deriving DecidableEq, Repr

abbrev XmlRun (σ α : Type) := Run XmlFailure σ α

section

variable {ω τ α : Type}

def lift (x : CommandRun (State ω τ) α) : XmlRun (State ω τ) α := Run.mapError .thrown x

def ReadFailure.toFailure : ReadFailure → XmlFailure
  | .rpcError type what => .thrown (.error (.rpcError type) what)
  | .inputError what => .thrown (.error .inputError what)
  | .nullPointer => .nullPointer

def ofRead : Read α → XmlRun (State ω τ) α
  | .ok a => pure a
  | .error e => Run.fail e.toFailure

/-- The values of the parameters, the first being the target. The element is `params` or the
`array` of a call inside `system.multicall`. -/
def paramValues : Option XmlNode → List (Option XmlNode)
  | none => []
  | some params =>
    if params.value = "params".toList then
      (childElements "param" params).map (firstChildElement "value")
    else
      match firstChildElement "data" params with
      | none => []
      | some data => (childElements "value" data).map some

def readAll : List (Option XmlNode) → Read (List Object)
  | [] => .ok []
  | value :: values => do
    let param ← xmlValueToObject value
    let params ← readAll values
    .ok (param :: params)

variable (lib : Library ω τ) (perform : Performer ω τ)

def readTarget (flags : BitVec 32) :
    List (Option XmlNode) → XmlRun (State ω τ) (τ × List Object)
  | [] => pure (lib.makeTarget, [])
  | value :: values => do
    let first ← ofRead (xmlValueToObject value)
    let s ← Run.get
    let target ← lift (check (lib.objectToTarget s.world first flags))
    let params ← ofRead (readAll values)
    pure (target, params)

def executeCommand (method : Text) (params : Option XmlNode) : XmlRun (State ω τ) Object := do
  let s ← Run.get
  match (s.commands (cString method)).filter fun entry => hasFlag entry.flags flagPublicRpc with
  | none => lift (raise (.rpcError xmlrpcNoSuchMethodError,
      "method '" ++ String.ofList method ++ "' not defined"))
  | some entry =>
    let (target, params) ← readTarget lib entry.flags (paramValues params)
    if params.isEmpty && hasFlag entry.flags (flagFileTarget ||| flagTrackerTarget) then
      lift (raise (.rpcError xmlrpcTypeError, "invalid parameters: too few"))
    else
      lift (refuse xmlrpcRequestRefusedError
        (callEntry perform (cString method) entry (.list params) target))

/-- What is read of a call inside `system.multicall` before its errors are caught: the string in
its first member, and the array in the next. -/
def subcall (child : XmlNode) : Read (Text × Option XmlNode) := do
  let element ← elementAccess child ["struct", "member", "value", "string"]
  match getText element with
  | none => readError xmlrpcParseError "multicall methodName element is empty"
  | some subMethodName =>
    let next := (firstChildElement "struct" child).bind fun s => (childElements "member" s)[1]?
    .ok (subMethodName,
      (next.bind (firstChildElement "value")).bind (firstChildElement "array"))

/-- An exception that is caught becomes a fault in the list of results. -/
def catchFault (x : XmlRun (State ω τ) Object) : XmlRun (State ω τ) Object :=
  Run.handle x fun
    | .thrown e => lift (onFault (fun type what => pure (faultObject type what)) (Run.fail e))
    | .nullPointer => Run.fail .nullPointer

def executeCalls : List XmlNode → XmlRun (State ω τ) (List Object)
  | [] => pure []
  | child :: calls => do
    let (method, params) ← ofRead (subcall child)
    let result ← catchFault do
      let result ← executeCommand lib perform method params
      pure (.list [result])
    let results ← executeCalls calls
    pure (result :: results)

/-- The nodes at the top, or the text of the error that the parser ended with. -/
abbrev Document := Except String (List XmlNode)

def rootElement (nodes : List XmlNode) : Read XmlNode :=
  match nodes.find? isElement with
  | none => .error .nullPointer
  | some root => .ok root

def multicallData (nodes : List XmlNode) : Read XmlNode := do
  let root ← rootElement nodes
  elementAccess root ["params", "param", "value", "array", "data"]

def methodCall : Document → Read (List XmlNode × XmlNode × Text)
  | .error what => readError xmlrpcParseError what
  | .ok nodes =>
    match nodes.find? (isNamed "methodCall") with
    | none => readError xmlrpcParseError "methodCall element not found"
    | some call =>
      match firstChildElement "methodName" call with
      | none => readError xmlrpcParseError "methodName element not found"
      | some name =>
        match getText name with
        | none => readError xmlrpcParseError "methodName element is empty"
        | some methodName => .ok (nodes, call, methodName)

def processDocument (doc : Document) : XmlRun (State ω τ) Object := do
  let (nodes, call, methodName) ← ofRead (methodCall doc)
  if methodName = "system.multicall".toList then do
    let parentElements ← ofRead (multicallData nodes)
    let results ← executeCalls lib perform (childElements "value" parentElements)
    pure (.list results)
  else executeCommand lib perform methodName (firstChildElement "params" call)

end

def ReadFailure.toError : ReadFailure → Error
  | .rpcError type what => (.rpcError type, what)
  | .inputError what => (.inputError, what)
  | .nullPointer => (.internalError, "")

def readParam (value : Option XmlNode) : Except Error Object :=
  (xmlValueToObject value).mapError ReadFailure.toError

def readCall (method : Text) (params : Option XmlNode) : XmlCall :=
  ⟨method, (paramValues params).map readParam⟩

def readSubcall (child : XmlNode) : Except Error XmlCall :=
  match subcall child with
  | .error e => .error e.toError
  | .ok (method, params) => .ok (readCall method params)

def documentOf (doc : Document) : XmlDocument :=
  match methodCall doc with
  | .error e => .invalid e.toError
  | .ok (nodes, call, methodName) =>
    if methodName = "system.multicall".toList then
      match multicallData nodes with
      | .error e => .invalid e.toError
      | .ok data => .multicall ((childElements "value" data).map readSubcall)
    else .methodCall (readCall methodName (firstChildElement "params" call))

def ReadsParams (params : Option XmlNode) : Prop :=
  readAll (paramValues params) ≠ .error .nullPointer

/-- No call of the document follows a `nullptr` in its parameters. -/
def ReadsAllParams (doc : Document) : Prop :=
  ∀ nodes call methodName, methodCall doc = .ok (nodes, call, methodName) →
    if methodName = "system.multicall".toList then
      ∀ data child method params, multicallData nodes = .ok data →
        child ∈ childElements "value" data → subcall child = .ok (method, params) →
          ReadsParams params
    else ReadsParams (firstChildElement "params" call)

section

variable {ω τ α β : Type}

theorem lift_bind (x : CommandRun (State ω τ) α) (f : α → CommandRun (State ω τ) β) :
    lift (x >>= f) = lift x >>= fun a => lift (f a) :=
  Run.mapError_bind _ x f

theorem ofRead_ok_bind (a : α) (f : α → XmlRun (State ω τ) β) : (ofRead (.ok a) >>= f) = f a :=
  rfl

theorem ofRead_error_bind {e : ReadFailure} (he : e ≠ .nullPointer)
    (f : α → XmlRun (State ω τ) β) : (ofRead (.error e) >>= f) = lift (raise e.toError) := by
  cases e with
  | nullPointer => exact (he rfl).elim
  | _ => rfl

theorem lift_check_ok_bind (a : α) (f : α → XmlRun (State ω τ) β) :
    (lift (check (.ok a)) >>= f) = f a := rfl

theorem ofRead_eq_check {x : Read α} (h : x ≠ .error .nullPointer) :
    (ofRead x : XmlRun (State ω τ) α) = lift (check (x.mapError ReadFailure.toError)) := by
  cases x with
  | ok a => rfl
  | error e =>
    cases e with
    | nullPointer => exact (h rfl).elim
    | _ => rfl

variable {values : List (Option XmlNode)}

theorem readAll_cons_ne_null {value : Option XmlNode}
    (h : readAll (value :: values) ≠ .error .nullPointer) :
    xmlValueToObject value ≠ .error .nullPointer ∧
      ∀ first, xmlValueToObject value = .ok first → readAll values ≠ .error .nullPointer := by
  constructor
  · intro hv
    exact h (by rw [readAll, hv]; rfl)
  · intro first hv hr
    exact h (by rw [readAll, hv, hr]; rfl)

theorem ofRead_readAll : ∀ {values : List (Option XmlNode)},
    readAll values ≠ .error .nullPointer →
      (ofRead (readAll values) : XmlRun (State ω τ) (List Object)) =
        lift (checkAll (values.map readParam))
  | [], _ => rfl
  | value :: values, h => by
    obtain ⟨hv, hr⟩ := readAll_cons_ne_null h
    rw [List.map_cons, checkAll, lift_bind, readParam, ← ofRead_eq_check hv, readAll]
    cases hf : xmlValueToObject value with
    | error e => rfl
    | ok first =>
      rw [ofRead_ok_bind, lift_bind, ← ofRead_readAll (hr first hf)]
      cases readAll values with
      | error e => rfl
      | ok rest => rfl

variable (lib : Library ω τ) (perform : Performer ω τ)

theorem readTarget_eq_readParams (flags : BitVec 32) (h : readAll values ≠ .error .nullPointer) :
    readTarget lib flags values = lift (readParams lib flags (values.map readParam)) := by
  cases values with
  | nil => rfl
  | cons value values =>
    obtain ⟨hv, hr⟩ := readAll_cons_ne_null h
    rw [List.map_cons, readTarget, readParams, lift_bind, readParam, ← ofRead_eq_check hv]
    cases hf : xmlValueToObject value with
    | error e => rfl
    | ok first =>
      rw [ofRead_ok_bind, ofRead_ok_bind, ofRead_readAll (hr first hf)]
      simp only [lift_bind]
      rfl

variable {params : Option XmlNode}

theorem executeCommand_eq (method : Text) (h : ReadsParams params) :
    executeCommand lib perform method params =
      lift (RpcRequests.executeCommand lib perform (readCall method params)) := by
  rw [executeCommand, RpcRequests.executeCommand, lift_bind]
  congr 1
  funext s
  rw [readCall]
  cases (s.commands (cString method)).filter fun entry => hasFlag entry.flags flagPublicRpc with
  | none => rfl
  | some entry =>
    dsimp only
    rw [lift_bind, readTarget_eq_readParams lib entry.flags h]
    congr 1
    funext r
    split <;> rfl

theorem catchFault_lift (x : CommandRun (State ω τ) Object) :
    catchFault (lift x) = lift (onFault (fun type what => pure (faultObject type what)) x) := by
  funext s
  simp only [catchFault, Run.handle, lift, Run.mapError, onFault]
  cases x s with
  | mk r t =>
    cases r with
    | ok a => rfl
    | error e => rfl

theorem catchFault_eq (method : Text) (h : ReadsParams params) :
    (catchFault do
      let result ← executeCommand lib perform method params
      pure (.list [result])) =
      lift (onFault (fun type what => pure (faultObject type what)) do
        let result ← RpcRequests.executeCommand lib perform (readCall method params)
        pure (.list [result])) := by
  rw [← catchFault_lift, lift_bind, executeCommand_eq lib perform method h]
  rfl

theorem elementAccess_ne_null : ∀ {elem : XmlNode} {names : List String},
    elementAccess elem names ≠ .error .nullPointer
  | _, [], h => nomatch h
  | elem, name :: names, h => by
    rw [elementAccess] at h
    split at h
    · cases h
    · exact elementAccess_ne_null h

theorem subcall_ne_null {child : XmlNode} : subcall child ≠ .error .nullPointer := by
  intro h
  rw [subcall] at h
  cases he : elementAccess child ["struct", "member", "value", "string"] with
  | error e =>
    rw [he] at h
    cases h
    exact elementAccess_ne_null he
  | ok element =>
    rw [he] at h
    simp only [bind, Except.bind] at h
    split at h <;> cases h

theorem executeCalls_eq : ∀ {calls : List XmlNode},
    (∀ child ∈ calls, ∀ method params, subcall child = .ok (method, params) →
      ReadsParams params) →
      executeCalls lib perform calls = lift (executeMulticall lib perform (calls.map readSubcall))
  | [], _ => rfl
  | child :: calls, h => by
    have hrest := executeCalls_eq fun c hc => h c (List.mem_cons_of_mem _ hc)
    rw [List.map_cons, executeCalls, executeMulticall, lift_bind, readSubcall]
    cases hs : subcall child with
    | error e =>
      have he : e ≠ .nullPointer := fun he => subcall_ne_null (he ▸ hs)
      rw [ofRead_error_bind he]
      rfl
    | ok call =>
      obtain ⟨method, params⟩ := call
      have hp := h child List.mem_cons_self method params hs
      rw [ofRead_ok_bind]
      dsimp only
      rw [catchFault_eq lib perform method hp, hrest, lift_check_ok_bind, lift_bind]
      congr 1
      funext result
      rw [lift_bind]
      rfl

variable {doc : Document}

theorem methodCall_ne_null : methodCall doc ≠ .error .nullPointer := by
  fun_cases methodCall doc <;> simp [readError]

/-- The method call is an element at the top, so there is a root element. -/
theorem multicallData_ne_null {nodes : List XmlNode} {call : XmlNode}
    {methodName : Text} (h : methodCall doc = .ok (nodes, call, methodName)) :
    multicallData nodes ≠ .error .nullPointer := by
  have hcall : nodes.find? (isNamed "methodCall") = some call := by
    revert h
    fun_cases methodCall doc <;> rintro ⟨⟩
    assumption
  rw [multicallData, rootElement]
  cases hr : nodes.find? isElement with
  | some root => exact elementAccess_ne_null
  | none =>
    have he := List.find?_eq_none.mp hr call (List.mem_of_find?_eq_some hcall)
    have hn := List.find?_some hcall
    rw [isNamed, Bool.and_eq_true] at hn
    exact (he hn.1).elim

/-- A document does what the requests do that it stands for, unless a `nullptr` is followed. -/
theorem processDocument_eq (h : ReadsAllParams doc) :
    processDocument lib perform doc =
      lift (RpcRequests.processDocument lib perform (documentOf doc)) := by
  rw [processDocument, documentOf]
  cases hm : methodCall doc with
  | error e =>
    have he : e ≠ .nullPointer := fun he => methodCall_ne_null (he ▸ hm)
    exact ofRead_error_bind he _
  | ok r =>
    obtain ⟨nodes, call, methodName⟩ := r
    have hp := h nodes call methodName hm
    rw [ofRead_ok_bind]
    dsimp only
    split
    · next hname =>
      rw [if_pos hname] at hp
      cases hd : multicallData nodes with
      | error e =>
        have he : e ≠ .nullPointer := fun he => multicallData_ne_null hm (he ▸ hd)
        exact ofRead_error_bind he _
      | ok data =>
        rw [ofRead_ok_bind, executeCalls_eq lib perform fun child hc method params hs =>
          hp data child method params hd hc hs]
        dsimp only
        rw [RpcRequests.processDocument, lift_bind]
        rfl
    · next hname =>
      rw [if_neg hname] at hp
      exact executeCommand_eq lib perform methodName hp

end

def element (name : String) (children : List XmlNode) : XmlNode := .element name.toList children

def stringValue (text : String) : XmlNode :=
  element "value" [element "string" [.text text.toList]]

def arrayValue (values : List XmlNode) : XmlNode :=
  element "value" [element "array" [element "data" values]]

def member (name : String) (value : XmlNode) : XmlNode :=
  element "member" [element "name" [.text name.toList], value]

def subcallOf (members : List XmlNode) : XmlNode := element "value" [element "struct" members]

def multicallRequest (calls : List XmlNode) : Document :=
  .ok [element "methodCall" [element "methodName" [.text "system.multicall".toList],
    element "params" [element "param" [arrayValue calls]]]]

def integerValue (text : String) : XmlNode :=
  element "value" [element "i4" [.text text.toList]]

def callOf (method : String) (params : List XmlNode) : XmlNode :=
  subcallOf [member "methodName" (stringValue method), member "params" (arrayValue params)]

def pingAndSize : List XmlNode :=
  [callOf "ping" [stringValue "target", integerValue "7"],
    callOf "size" [stringValue "", integerValue "seven"]]

/-- The parameters of the second call cannot be read. -/
theorem pingAndSize_processed :
    ReadsAllParams (multicallRequest pingAndSize) ∧
    documentOf (multicallRequest pingAndSize) = .multicall
      [.ok ⟨"ping".toList, [.ok (.string "target".toList), .ok (.value 7)]⟩,
        .ok ⟨"size".toList, [.ok (.string []),
          .error (.rpcError xmlrpcTypeError, "unable to parse integer value")]⟩] ∧
    ∀ (ω τ : Type) (lib : Library ω τ) perform,
      processDocument lib perform (multicallRequest pingAndSize) =
        lift (RpcRequests.processDocument lib perform
          (documentOf (multicallRequest pingAndSize))) := by
  have h : ReadsAllParams (multicallRequest pingAndSize) := by
    rintro _ _ _ ⟨⟩
    rw [if_pos (by decide)]
    intro data child method params hd hc hs
    cases hd
    have hcalls : child ∈ pingAndSize := hc
    rcases List.mem_pair.mp hcalls with rfl | rfl
    · cases hs
      intro hnull
      cases hnull
    · cases hs
      intro hnull
      cases hnull
  exact ⟨h, rfl, fun _ _ lib perform => processDocument_eq lib perform h⟩

end XmlRpcDocument
