import Rtorrent.ObjectRoundTrips

/-! # Integers in the parameters of a call

The objects that the parameters stand for hold the integers as they are written. An integer that a
command is given has 64 bits. -/
namespace RpcIntegers

open FallibleRuns RpcTextParser RpcCommandParser RpcCommandMap XmlRpcDocument ObjectRoundTrips
open RpcRequests hiding executeCommand processDocument
open RpcValueParser (strtoll saturate int64Max int64Min digitsValue isDigitOf readSign
  readBase_ten)
open ObjectStorage (insertEntry)
open XmlNode (isNamed getText)

mutual

def mapValues (f : ℤ → ℤ) : Object → Object
  | .value v => .value (f v)
  | .list items => .list (mapItems f items)
  | .map entries => .map (mapEntries f entries)
  | .dictKey flag key obj => .dictKey flag key (mapValues f obj)
  | obj => obj

def mapItems (f : ℤ → ℤ) : List Object → List Object
  | [] => []
  | item :: items => mapValues f item :: mapItems f items

def mapEntries (f : ℤ → ℤ) : List (Text × Object) → List (Text × Object)
  | [] => []
  | (key, obj) :: entries => (key, mapValues f obj) :: mapEntries f entries

end

mutual

def allValues (p : ℤ → Bool) : Object → Bool
  | .value v => p v
  | .list items => allItems p items
  | .map entries => allEntries p entries
  | .dictKey _ _ obj => allValues p obj
  | _ => true

def allItems (p : ℤ → Bool) : List Object → Bool
  | [] => true
  | item :: items => allValues p item && allItems p items

def allEntries (p : ℤ → Bool) : List (Text × Object) → Bool
  | [] => true
  | (_, obj) :: entries => allValues p obj && allEntries p entries

end

def isInt64 (v : ℤ) : Bool := decide (int64Min ≤ v ∧ v ≤ int64Max)

section

variable {f : ℤ → ℤ} {p : ℤ → Bool}

mutual

theorem mapValues_eq_self_iff (h : ∀ v, f v = v ↔ p v = true) :
    ∀ o : Object, mapValues f o = o ↔ allValues p o = true
  | .value v => by simp only [mapValues, allValues, Object.value.injEq, h]
  | .list items => by
    simp only [mapValues, allValues, Object.list.injEq, mapItems_eq_self_iff h items]
  | .map entries => by
    simp only [mapValues, allValues, Object.map.injEq, mapEntries_eq_self_iff h entries]
  | .dictKey flag key obj => by
    simp only [mapValues, allValues, Object.dictKey.injEq, true_and, mapValues_eq_self_iff h obj]
  | .none | .string _ | .rawString _ => by simp only [mapValues, allValues]

theorem mapItems_eq_self_iff (h : ∀ v, f v = v ↔ p v = true) :
    ∀ items : List Object, mapItems f items = items ↔ allItems p items = true
  | [] => by simp only [mapItems, allItems]
  | item :: items => by
    simp only [mapItems, allItems, List.cons.injEq, Bool.and_eq_true,
      mapValues_eq_self_iff h item, mapItems_eq_self_iff h items]

theorem mapEntries_eq_self_iff (h : ∀ v, f v = v ↔ p v = true) :
    ∀ entries : List (Text × Object), mapEntries f entries = entries ↔ allEntries p entries = true
  | [] => by simp only [mapEntries, allEntries]
  | (key, obj) :: entries => by
    simp only [mapEntries, allEntries, List.cons.injEq, Prod.mk.injEq, true_and,
      Bool.and_eq_true, mapValues_eq_self_iff h obj, mapEntries_eq_self_iff h entries]

end

theorem mapEntries_insertEntry (f : ℤ → ℤ) (key : Text) (obj : Object)
    (entries : List (Text × Object)) :
    mapEntries f (insertEntry key obj entries) =
      insertEntry key (mapValues f obj) (mapEntries f entries) := by
  induction entries with
  | nil => rfl
  | cons e entries ih =>
    rw [insertEntry, mapEntries, insertEntry]
    by_cases he : key = e.1
    · rw [if_pos he, if_pos he]
      rfl
    · by_cases hl : key < e.1
      · rw [if_neg he, if_neg he, if_pos hl, if_pos hl]
        rfl
      · rw [if_neg he, if_neg he, if_neg hl, if_neg hl, mapEntries, ih]

end

theorem isInt64_iff {v : ℤ} : isInt64 v = true ↔ -2 ^ 63 ≤ v ∧ v ≤ 2 ^ 63 - 1 :=
  decide_eq_true_iff

theorem saturate_eq_self_iff (v : ℤ) : saturate v = v ↔ isInt64 v = true := by
  rw [saturate, isInt64, decide_eq_true_eq]
  constructor
  · intro h
    rw [← h]
    simp only [int64Min, int64Max]
    omega
  · exact saturate_int64

/-- `get<int64_t>` of a number with 64 bits. -/
def wrap (v : ℤ) : ℤ := Int.bmod v (2 ^ 64)

theorem wrap_eq_self_iff (v : ℤ) : wrap v = v ↔ isInt64 v = true := by
  simp only [wrap, isInt64, decide_eq_true_eq]
  constructor
  · intro h
    have hlow := Int.le_bmod (x := v) (m := 2 ^ 64) (by decide)
    have hhigh := Int.bmod_lt (x := v) (m := 2 ^ 64) (by decide)
    rw [h] at hlow hhigh
    simp only [int64Min, int64Max]
    omega
  · exact bmod_int64

def integerOf (str : Text) : Option ℤ :=
  let (negative, digits) := readSign (str.dropWhile isSpace)
  if digits.isEmpty || !digits.all (isDigitOf 10) then none
  else
    let value : ℤ := digitsValue 10 digits
    some (if negative then -value else value)

def exactInt (children : List XmlNode) : Read ℤ :=
  match children with
  | [] => readError xmlrpcTypeError "unable to parse empty integer"
  | child :: _ => do
    let str ← elementTextValue child
    match integerOf str with
    | some value => .ok value
    | none => readError xmlrpcTypeError "unable to parse integer value"

def isIntType (type : Text) : Bool :=
  decide (type = "int".toList ∨ type = "i4".toList ∨ type = "i8".toList)

def exactPlain (type : Text) (children : List XmlNode) : Read Object :=
  if isIntType type then do
    let value ← exactInt children
    .ok (.value value)
  else plainToObject type children

mutual

/-- The object that a `value` element stands for. -/
def exactValue : XmlNode → Read Object
  | .element name children =>
    if cString name ≠ "value".toList then
      readError xmlrpcInternalError "received non-value element to convert"
    else
      match children with
      | [] => readError xmlrpcTypeError "empty value element"
      | root :: _ => exactRoot root
  | .text name | .comment name | .unknown name =>
    if cString name ≠ "value".toList then
      readError xmlrpcInternalError "received non-value element to convert"
    else readError xmlrpcTypeError "empty value element"

def exactRoot : XmlNode → Read Object
  | .element name children =>
    if cString name = "array".toList then do
      let items ← exactData children
      .ok (.list items)
    else if cString name = "struct".toList then do
      let entries ← exactMembers [] children
      .ok (.map entries)
    else exactPlain (cString name) children
  | .text type | .comment type | .unknown type =>
    if cString type = "array".toList then .error .nullPointer
    else if cString type = "struct".toList then .ok (.map [])
    else exactPlain (cString type) []

def exactData : List XmlNode → Read (List Object)
  | [] => readError xmlrpcParseError "could not find expected data element in array"
  | .element name children :: nodes =>
    if cString name = "data".toList then exactValues children else exactData nodes
  | _ :: nodes => exactData nodes

def exactValues : List XmlNode → Read (List Object)
  | [] => .ok []
  | node :: nodes =>
    if isNamed "value" node then do
      let item ← exactValue node
      let items ← exactValues nodes
      .ok (item :: items)
    else exactValues nodes

def exactMembers (entries : List (Text × Object)) : List XmlNode → Read (List (Text × Object))
  | [] => .ok entries
  | .element name children :: nodes =>
    if cString name = "member".toList then
      match children.find? (isNamed "name") with
      | none => readError xmlrpcParseError "struct member missing name element"
      | some nameElement =>
        match getText nameElement with
        | none => readError xmlrpcParseError "struct member has an empty name element"
        | some nameText => do
          let value ← exactFirstValue children
          exactMembers (insertEntry nameText value entries) nodes
    else exactMembers entries nodes
  | _ :: nodes => exactMembers entries nodes

def exactFirstValue : List XmlNode → Read Object
  | [] => readError xmlrpcInternalError "received null element to convert"
  | node :: nodes => if isNamed "value" node then exactValue node else exactFirstValue nodes

end

theorem strtoll_integerOf (str : Text) {value : ℤ} :
    strtoll 10 str = some (value, []) ↔ (integerOf str).map saturate = some value := by
  cases hs : readSign (str.dropWhile isSpace) with
  | mk negative text =>
    simp only [strtoll, integerOf, hs, readBase_ten]
    by_cases hall : text.all (isDigitOf 10) = true
    · have htake : text.takeWhile (isDigitOf 10) = text := by
        rw [List.takeWhile_eq_self_iff]
        exact List.all_eq_true.mp hall
      cases text with
      | nil => simp
      | cons c text => simp [htake, hall]
    · have hrest : ¬text.drop (text.takeWhile (isDigitOf 10)).length = [] := by
        intro hd
        apply hall
        rw [List.all_eq_true]
        have htake : text.takeWhile (isDigitOf 10) = text := by
          rw [List.drop_eq_nil_iff] at hd
          exact (List.takeWhile_prefix _).eq_of_length_le hd
        exact List.takeWhile_eq_self_iff.mp htake
      simp [hall, hrest]

theorem elementToInt_eq (children : List XmlNode) :
    elementToInt children = (exactInt children).map saturate := by
  cases children with
  | nil => rfl
  | cons child children =>
    rw [elementToInt, exactInt]
    cases elementTextValue child with
    | error e => rfl
    | ok str =>
      simp only [bind, Except.bind]
      cases hi : integerOf str with
      | none =>
        have hno : ∀ value, strtoll 10 str ≠ some (value, []) := by
          intro value h
          rw [strtoll_integerOf, hi] at h
          cases h
        split
        · exact absurd ‹_› (hno _)
        · rfl
      | some value =>
        have hread : strtoll 10 str = some (saturate value, []) := by
          rw [strtoll_integerOf, hi]
          rfl
        rw [hread]
        rfl

theorem plainToObject_eq (type : Text) (children : List XmlNode) :
    plainToObject type children = (exactPlain type children).map (mapValues saturate) := by
  by_cases hint : isIntType type = true
  · have hstring : type ≠ "string".toList := by
      rintro rfl
      revert hint
      decide
    rw [exactPlain, if_pos hint, plainToObject.eq_def, if_neg hstring,
      if_pos (of_decide_eq_true hint), elementToInt_eq]
    cases exactInt children <;> rfl
  · rw [exactPlain, if_neg hint, plainToObject.eq_def,
      if_neg (c := _ ∨ _) fun h => hint (decide_eq_true h)]
    split
    · cases children with
      | nil => rfl
      | cons child _ =>
        dsimp only
        cases elementTextValue child <;> rfl
    · split
      · cases children with
        | nil => rfl
        | cons child _ =>
          dsimp only
          cases elementTextValue child with
          | error e => rfl
          | ok text =>
            simp only [bind, Except.bind]
            split
            · rfl
            · split <;> rfl
      · split
        · cases children with
          | nil => rfl
          | cons child _ =>
            dsimp only
            cases elementTextValue child with
            | error e => rfl
            | ok text =>
              simp only [bind, Except.bind]
              cases decodeBase64 (removeNewlines text) <;> rfl
        · rfl

mutual

theorem valueToObject_eq : ∀ node : XmlNode,
    valueToObject node = (exactValue node).map (mapValues saturate)
  | .element name children => by
    rw [valueToObject.eq_def, exactValue.eq_def]
    dsimp only
    split
    · rfl
    · cases children with
      | nil => rfl
      | cons root children => exact rootToObject_eq root
  | .text name | .comment name | .unknown name => by
    rw [valueToObject, exactValue]
    split <;> rfl

theorem rootToObject_eq : ∀ node : XmlNode,
    rootToObject node = (exactRoot node).map (mapValues saturate)
  | .element name children => by
    have hmembers := membersToEntries_eq [] children
    rw [mapEntries] at hmembers
    rw [rootToObject, exactRoot, dataToItems_eq children, hmembers, plainToObject_eq]
    split
    · cases exactData children <;> rfl
    · split
      · cases exactMembers [] children <;> rfl
      · rfl
  | .text type | .comment type | .unknown type => by
    rw [rootToObject, exactRoot, plainToObject_eq]
    split
    · rfl
    · split <;> rfl

theorem dataToItems_eq : ∀ nodes : List XmlNode,
    dataToItems nodes = (exactData nodes).map (mapItems saturate)
  | [] => by
    rw [dataToItems, exactData]
    rfl
  | .element name children :: nodes => by
    rw [dataToItems, exactData, valuesToItems_eq children, dataToItems_eq nodes]
    split <;> rfl
  | .text _ :: nodes | .comment _ :: nodes | .unknown _ :: nodes => by
    rw [dataToItems, exactData, dataToItems_eq nodes]
    all_goals simp

theorem valuesToItems_eq : ∀ nodes : List XmlNode,
    valuesToItems nodes = (exactValues nodes).map (mapItems saturate)
  | [] => by
    rw [valuesToItems, exactValues]
    rfl
  | node :: nodes => by
    rw [valuesToItems, exactValues, valueToObject_eq node, valuesToItems_eq nodes]
    split
    · cases exactValue node <;> cases exactValues nodes <;> rfl
    · rfl

theorem membersToEntries_eq : ∀ (entries : List (Text × Object)) (nodes : List XmlNode),
    membersToEntries (mapEntries saturate entries) nodes =
      (exactMembers entries nodes).map (mapEntries saturate)
  | entries, [] => by
    rw [membersToEntries, exactMembers]
    rfl
  | entries, .element name children :: nodes => by
    rw [membersToEntries, exactMembers, firstValueToObject_eq children,
      membersToEntries_eq entries nodes]
    split
    · cases children.find? (isNamed "name") with
      | none => rfl
      | some nameElement =>
        dsimp only
        cases getText nameElement with
        | none => rfl
        | some nameText =>
          cases exactFirstValue children with
          | error e => rfl
          | ok value =>
            have ih := membersToEntries_eq (insertEntry nameText value entries) nodes
            rw [mapEntries_insertEntry] at ih
            exact ih
    · rfl
  | entries, .text _ :: nodes | entries, .comment _ :: nodes | entries, .unknown _ :: nodes => by
    rw [membersToEntries, exactMembers, membersToEntries_eq entries nodes]
    all_goals simp

theorem firstValueToObject_eq : ∀ nodes : List XmlNode,
    firstValueToObject nodes = (exactFirstValue nodes).map (mapValues saturate)
  | [] => by
    rw [firstValueToObject, exactFirstValue]
    rfl
  | node :: nodes => by
    rw [firstValueToObject, exactFirstValue, valueToObject_eq node, firstValueToObject_eq nodes]
    split <;> rfl

end

def exactXml : Option XmlNode → Read Object
  | none => readError xmlrpcInternalError "received null element to convert"
  | some elem => exactValue elem

def exactAll : List (Option XmlNode) → Read (List Object)
  | [] => .ok []
  | value :: values => do
    let param ← exactXml value
    let params ← exactAll values
    .ok (param :: params)

theorem xmlValueToObject_eq (value : Option XmlNode) :
    xmlValueToObject value = (exactXml value).map (mapValues saturate) := by
  cases value with
  | none => rfl
  | some elem => exact valueToObject_eq elem

theorem readAll_eq (values : List (Option XmlNode)) :
    readAll values = (exactAll values).map (mapItems saturate) := by
  induction values with
  | nil => rfl
  | cons value values ih =>
    rw [readAll, exactAll, xmlValueToObject_eq, ih]
    cases exactXml value <;> cases exactAll values <;> rfl

mutual

/-- What `nlohmann::json` makes of integers with any number of digits: one that does not fit in 64
bits is a float. -/
def parsed : Json → Json
  | .number v => if int64Min ≤ v ∧ v < 2 ^ 64 then .number v else .float (toString v).toList
  | .array items => .array (parsedItems items)
  | .object entries => .object (parsedEntries entries)
  | value => value

def parsedItems : List Json → List Json
  | [] => []
  | item :: items => parsed item :: parsedItems items

def parsedEntries : List (Text × Json) → List (Text × Json)
  | [] => []
  | (key, value) :: entries => (key, parsed value) :: parsedEntries entries

end

mutual

/-- The object that a JSON value stands for. -/
def exactJson : ℕ → Json → Except Error Object
  | _, .number v => .ok (.value v)
  | _, .boolean b => .ok (.value (if b then 1 else 0))
  | _, .string s => .ok (.string s)
  | 0, .array _ | 0, .object _ =>
    .error (.inputError, "invalid parameters: max depth reached")
  | depth + 1, .array items => do
    let items ← exactItems depth items
    .ok (.list items)
  | depth + 1, .object entries => do
    let entries ← exactEntries depth entries
    .ok (.map entries)
  | _, .float _ => .error (.inputError, "invalid parameters: unexpected data type float")
  | _, .null => .error (.inputError, "invalid parameters: unexpected data type null")

def exactItems : ℕ → List Json → Except Error (List Object)
  | _, [] => .ok []
  | depth, item :: items => do
    let item ← exactJson depth item
    let items ← exactItems depth items
    .ok (item :: items)

def exactEntries : ℕ → List (Text × Json) → Except Error (List (Text × Object))
  | _, [] => .ok []
  | depth, (key, value) :: entries => do
    let value ← exactJson depth value
    let entries ← exactEntries depth entries
    .ok ((key, value) :: entries)

end

mutual

theorem jsonToObject_eq : ∀ (depth : ℕ) (value : Json),
    jsonToObject depth value = (exactJson depth value).map (mapValues wrap)
  | _, .number v => by
    rw [jsonToObject, exactJson]
    rfl
  | _, .boolean b => by
    rw [jsonToObject, exactJson]
    cases b <;> rfl
  | _, .string s => by
    rw [jsonToObject, exactJson]
    rfl
  | 0, .array _ | 0, .object _ => by
    rw [jsonToObject, exactJson]
    rfl
  | depth + 1, .array items => by
    rw [jsonToObject, exactJson, jsonToItems_eq depth items]
    cases exactItems depth items <;> rfl
  | depth + 1, .object entries => by
    rw [jsonToObject, exactJson, jsonToEntries_eq depth entries]
    cases exactEntries depth entries <;> rfl
  | _, .float _ | _, .null => by
    rw [jsonToObject, exactJson]
    rfl

theorem jsonToItems_eq : ∀ (depth : ℕ) (items : List Json),
    jsonToItems depth items = (exactItems depth items).map (mapItems wrap)
  | _, [] => by
    rw [jsonToItems, exactItems]
    rfl
  | depth, item :: items => by
    rw [jsonToItems, exactItems, jsonToObject_eq depth item, jsonToItems_eq depth items]
    cases exactJson depth item <;> cases exactItems depth items <;> rfl

theorem jsonToEntries_eq : ∀ (depth : ℕ) (entries : List (Text × Json)),
    jsonToEntries depth entries = (exactEntries depth entries).map (mapEntries wrap)
  | _, [] => by
    rw [jsonToEntries, exactEntries]
    rfl
  | depth, (key, value) :: entries => by
    rw [jsonToEntries, exactEntries, jsonToObject_eq depth value, jsonToEntries_eq depth entries]
    cases exactJson depth value <;> cases exactEntries depth entries <;> rfl

end

inductive Params where
  | xml (params : Option XmlNode)
  | json (items : List Json)

section

variable {ω τ : Type} (lib : Library ω τ)

def targetOf (world : ω) (flags : BitVec 32) (obj : Object) : Option τ :=
  (lib.objectToTarget world obj flags).toOption

/-- `object_to_target` refuses what is no string. -/
def StringTargets : Prop :=
  ∀ world flags obj, (∀ s, obj ≠ .string s) → targetOf lib world flags obj = none

variable (world : ω) (flags : BitVec 32)

def xmlArguments (read : Option XmlNode → Read Object)
    (readRest : List (Option XmlNode) → Read (List Object)) :
    List (Option XmlNode) → Option (τ × List Object)
  | [] => some (lib.makeTarget, [])
  | value :: values => do
    let first ← (read value).toOption
    let target ← targetOf lib world flags first
    let params ← (readRest values).toOption
    some (target, params)

def jsonArguments : List Object → Option (τ × List Object)
  | [] => (targetOf lib world flags (.string [])).map (·, [])
  | .string target :: params => (targetOf lib world flags (.string target)).map (·, params)
  | _ => none

/-- The target and the arguments that the command is called with, none when the call is
refused. -/
def received : Params → Option (τ × List Object)
  | .xml params => xmlArguments lib world flags xmlValueToObject readAll (paramValues params)
  | .json items =>
    (jsonToItems (maxJsonDepth - 2) (parsedItems items)).toOption.bind
      (jsonArguments lib world flags)

def meant : Params → Option (τ × List Object)
  | .xml params => xmlArguments lib world flags exactXml exactAll (paramValues params)
  | .json items =>
    (exactItems (maxJsonDepth - 2) (parsedItems items)).toOption.bind
      (jsonArguments lib world flags)

end

section

variable {ω τ : Type} {lib : Library ω τ} {perform : Performer ω τ}

theorem readTarget_received (flags : BitVec 32) (params : Option XmlNode) (s : State ω τ) :
    (readTarget lib flags (paramValues params) s).1.toOption =
      received lib s.world flags (.xml params) := by
  rw [received]
  cases paramValues params with
  | nil => rfl
  | cons value values =>
    rw [readTarget, xmlArguments]
    cases xmlValueToObject value with
    | error e => rfl
    | ok first =>
      rw [ofRead_ok_bind, Run.get_bind]
      show _ = (targetOf lib s.world flags first).bind fun target =>
        (readAll values).toOption.bind fun params => some (target, params)
      rw [targetOf]
      cases lib.objectToTarget s.world first flags with
      | error e => rfl
      | ok target => cases readAll values <;> rfl

variable (lib perform) in
def runJson (method : Text) (entry : Entry (Slot ω τ)) (target : τ) (params : List Object) :
    CommandRun (State ω τ) Json :=
  refuse jsonrpcMethodNotFoundError do
    let result ← callEntry perform (cString method) entry (.list params) target
    check (lib.objectToJson result)

theorem jsonrpcCallCommand_received {method : Text} {items : List Json} {s : State ω τ}
    {entry : Entry (Slot ω τ)} (he : s.commands (cString method) = some entry)
    (hf : hasFlag entry.flags flagPublicRpc = true) :
    match received lib s.world entry.flags (.json items) with
    | some (target, params) =>
      jsonrpcCallCommand lib perform method (.array (parsedItems items)) s =
        runJson lib perform method entry target params s
    | none =>
      ∃ e, jsonrpcCallCommand lib perform method (.array (parsedItems items)) s =
        (.error e, s) := by
  have hentry : (s.commands (cString method)).filter
      (fun entry => hasFlag entry.flags flagPublicRpc) = some entry := by
    rw [he]
    exact Option.filter_some_pos hf
  have htarget : ∀ text params,
      match (targetOf lib s.world entry.flags (.string text)).map (·, params) with
      | some (target, args) =>
        (check (lib.objectToTarget s.world (.string text) entry.flags) >>= fun target =>
          runJson lib perform method entry target params) s =
            runJson lib perform method entry target args s
      | none =>
        ∃ e, (check (lib.objectToTarget s.world (.string text) entry.flags) >>= fun target =>
          runJson lib perform method entry target params) s = (.error e, s) := by
    intro text params
    rw [targetOf]
    cases lib.objectToTarget s.world (.string text) entry.flags with
    | error e => exact ⟨_, rfl⟩
    | ok target => rfl
  rw [jsonrpcCallCommand, Run.get_bind]
  simp only [hentry, received]
  cases jsonToItems (maxJsonDepth - 2) (parsedItems items) with
  | error e => exact ⟨_, rfl⟩
  | ok params =>
    cases params with
    | nil => exact htarget [] []
    | cons first params =>
      cases first with
      | string text => exact htarget text params
      | _ => exact ⟨_, rfl⟩

theorem targetOf_mapValues (hl : StringTargets lib) (f : ℤ → ℤ) (world : ω)
    (flags : BitVec 32) (obj : Object) :
    targetOf lib world flags (mapValues f obj) = targetOf lib world flags obj := by
  cases obj with
  | string s => rfl
  | _ => rw [hl world flags _ (by simp [mapValues]), hl world flags _ (by simp)]

theorem jsonArguments_mapItems (f : ℤ → ℤ) (world : ω) (flags : BitVec 32)
    (params : List Object) :
    jsonArguments lib world flags (mapItems f params) =
      (jsonArguments lib world flags params).map fun r => (r.1, mapItems f r.2) := by
  cases params with
  | nil =>
    rw [mapItems, jsonArguments]
    cases targetOf lib world flags (.string []) <;> rfl
  | cons first params =>
    cases first with
    | string target =>
      simp only [mapItems, mapValues, jsonArguments]
      cases targetOf lib world flags (.string target) <;> rfl
    | _ => rfl

def converted : Params → ℤ → ℤ
  | .xml _ => saturate
  | .json _ => wrap

theorem converted_eq_self_iff (params : Params) (v : ℤ) :
    converted params v = v ↔ isInt64 v = true := by
  cases params with
  | xml _ => exact saturate_eq_self_iff v
  | json _ => exact wrap_eq_self_iff v

theorem received_eq (hl : StringTargets lib) (world : ω) (flags : BitVec 32) (params : Params) :
    received lib world flags params =
      (meant lib world flags params).map fun r => (r.1, mapItems (converted params) r.2) := by
  cases params with
  | xml params =>
    rw [received, meant, converted]
    cases paramValues params with
    | nil => rfl
    | cons value values =>
      rw [xmlArguments, xmlArguments, xmlValueToObject_eq, readAll_eq]
      cases exactXml value with
      | error e => rfl
      | ok first =>
        show ((targetOf lib world flags (mapValues saturate first)).bind fun target => _) =
          ((targetOf lib world flags first).bind fun target =>
            (exactAll values).toOption.bind fun params => some (target, params)).map _
        rw [targetOf_mapValues hl]
        cases targetOf lib world flags first with
        | none => rfl
        | some target => cases exactAll values <;> rfl
  | json items =>
    rw [received, meant, converted, jsonToItems_eq]
    cases exactItems (maxJsonDepth - 2) (parsedItems items) with
    | error e => rfl
    | ok params => exact jsonArguments_mapItems wrap world flags params

theorem exact_iff_of_map {params : Params} {r m : Option (τ × List Object)}
    (h : r = m.map fun r => (r.1, mapItems (converted params) r.2)) :
    (∀ x, r = some x → m = some x) ↔ ∀ x, m = some x → allItems isInt64 x.2 = true := by
  subst h
  cases m with
  | none => simp
  | some x =>
    have hself := mapItems_eq_self_iff (converted_eq_self_iff params) x.2
    constructor
    · intro h y hy
      cases hy
      have hx := h _ rfl
      rw [Option.some.injEq, Prod.ext_iff] at hx
      exact hself.mp hx.2.symm
    · intro h y hy
      rw [Option.map_some, hself.mpr (h x rfl)] at hy
      exact hy

theorem received_exact_iff (hl : StringTargets lib) (world : ω) (flags : BitVec 32)
    (params : Params) :
    (∀ r, received lib world flags params = some r → meant lib world flags params = some r) ↔
      ∀ r, meant lib world flags params = some r → allItems isInt64 r.2 = true :=
  exact_iff_of_map (received_eq hl world flags params)

end

def noDownloads : Library Unit Unit where
  parseJson _ := .error ""
  dumpJson _ := .error ""
  dumpReplaced _ := []
  objectToJson _ := .ok .null
  parseXml _ := .invalid (.inputError, "")
  printResult _ := []
  printFault _ _ := []
  makeTarget := ()
  objectToTarget _ obj _ :=
    match obj with
    | .string [] => .ok ()
    | .string _ => .error (.inputError, "invalid parameters: info-hash not found")
    | _ => .error (.inputError, "invalid parameters: target must be a string")

theorem noDownloads_targets : StringTargets noDownloads := by
  intro world flags obj h
  cases obj with
  | string s => exact absurd rfl (h s)
  | _ => rfl

def xmlParams (type text : String) : Params :=
  .xml (some (.element "params".toList
    [.element "param".toList [.element "value".toList [.element "string".toList []]],
      .element "param".toList [.element "value".toList
        [.element type.toList [.text text.toList]]]]))

theorem small_integer_received :
    StringTargets noDownloads ∧
      ∀ r, received noDownloads () 0 (xmlParams "i8" "-12") = some r →
        meant noDownloads () 0 (xmlParams "i8" "-12") = some r := by
  refine ⟨noDownloads_targets, (received_exact_iff noDownloads_targets () 0 _).mpr ?_⟩
  have hmeant : meant noDownloads () 0 (xmlParams "i8" "-12") = some ((), [.value (-12)]) := rfl
  intro r hr
  rw [hmeant] at hr
  cases hr
  rfl

theorem large_integer_received :
    (received noDownloads () 0 (xmlParams "i8" "99999999999999999999") =
        some ((), [.value (2 ^ 63 - 1)]) ∧
      meant noDownloads () 0 (xmlParams "i8" "99999999999999999999") =
        some ((), [.value 99999999999999999999])) ∧
    (received noDownloads () 0 (.json [.string [], .number (2 ^ 63)]) =
        some ((), [.value (-2 ^ 63)]) ∧
      meant noDownloads () 0 (.json [.string [], .number (2 ^ 63)]) =
        some ((), [.value (2 ^ 63)])) :=
  ⟨⟨rfl, rfl⟩, ⟨rfl, rfl⟩⟩

end RpcIntegers
