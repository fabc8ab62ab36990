import Rtorrent.CommandScheduler
import Rtorrent.ObjectStorageConstants
import Rtorrent.ValueCommands

/-! # Methods that the user defines

`method.insert` and its typed variants put an entry into the object storage and add the
commands that read, run or set it. -/
namespace MethodCommands

open FallibleRuns RpcTextParser RpcCommandParser RpcCommandMap RpcValueParser ObjectStorage
open CommandScheduler (asString)
open ObjectStorageConstants (setObject_cases listPushBack_cases entry_of_check)
open ObjectStorageLookup (setMultiKeyObj_wrong_type setMultiKeyObj_error setMultiKeyObj_ok
  eraseMultiKey_error eraseMultiKey_ok)

def isOptionChar (c : Char) : Bool := c.isAlphanum || c == '_'

def skipSpace (text : Text) : Text := text.dropWhile isSpace

/-- A negative flag is a mask. -/
def addFlag (flags f : BitVec 32) : BitVec 32 := if f.slt 0 then flags &&& f else flags ||| f

/-- The loop of `parse_option_flags` on the rest of the option. -/
def optionFlags (option : Text) (ftor : Text → Except Failure (BitVec 32)) :
    ℕ → Text → BitVec 32 → Except Failure (BitVec 32)
  | 0, _, _ => .error .outOfFuel
  | turns + 1, rest, flags =>
    let first := skipSpace rest
    if first.isEmpty then .ok flags
    else
      let name := first.takeWhile isOptionChar
      if name.isEmpty then inputError (String.ofList option)
      else do
        let f ← ftor name
        match skipSpace (first.dropWhile isOptionChar) with
        | [] => .ok (addFlag flags f)
        | c :: next =>
          if c ≠ '|' ∨ next.isEmpty then inputError (String.ofList option)
          else optionFlags option ftor turns next (addFlag flags f)

def parseOptionFlags (option : Text) (ftor : Text → Except Failure (BitVec 32))
    (flags : BitVec 32) : Except Failure (BitVec 32) :=
  optionFlags option ftor (option.length + 1) option flags

def objectStorageFlags : List (String × BitVec 32) :=
  [("multi", flagMultiType), ("simple", flagFunctionType), ("value", flagValueType),
    ("bool", flagBoolType), ("string", flagStringType), ("list", flagListType),
    ("static", flagStatic), ("private", flagPrivate), ("const", flagConstant),
    ("rlookup", flagRlookup)]

def objectStorageParseFlag (flag : Text) : Except Failure (BitVec 32) :=
  match objectStorageFlags.find? fun entry => entry.1.toList == flag with
  | some entry => .ok entry.2
  | none => inputError "unknown flag"

/-- What a command of the map does when it is called. -/
inductive MethodSlot where
  | other
  | get (key : Text)
  | callFunction (key : Text)
  | setBool (key : Text)
  | setValue (key : Text)
  | setString (key : Text)
  | setList (key : Text)
  deriving DecidableEq, Repr

structure Methods where
  storage : Storage
  commands : CommandMap MethodSlot

abbrev MethodRun (α : Type) := Run Failure Methods α

def onStorage {α : Type} (x : StorageRun α) : MethodRun α := fun s =>
  ((x s.storage).1, { s with storage := (x s.storage).2 })

def insertSlot (key : Text) (flags : BitVec 32) (slot : MethodSlot) : MethodRun Unit := fun s =>
  match RpcCommandMap.insert s.commands key flags slot with
  | .ok commands => (.ok (), { s with commands := commands })
  | .error e => (.error (.error e.1 e.2), s)

def flagModifiable : BitVec 32 := 0x10

/-- The texts with ` ;` between them. -/
def generateFrom (command : Text) : List Object → Except Failure Text
  | [] => .ok command
  | item :: items => do
    let text ← asString item
    generateFrom ((if command.isEmpty then command else command ++ " ;".toList) ++ text) items

def systemMethodGenerateCommand (items : List Object) : Except Failure Text :=
  generateFrom [] items

/-- One level of quoting is taken off a command object. -/
def unquoteCommand : Object → Except Failure Object
  | .dictKey flag key obj => .ok (.dictKey (unquote flag) key obj)
  | _ => inputError "New command of wrong type."

def unquoteCommands : List Object → Except Failure (List Object)
  | [] => .ok []
  | item :: items => do
    let command ← unquoteCommand item
    let commands ← unquoteCommands items
    .ok (command :: commands)

def systemMethodGenerateCommand2 : List Object → Except Failure Object
  | [] => .ok (.string [])
  | .string text :: rest => do
    let command ← generateFrom [] (.string text :: rest)
    .ok (.string command)
  | [item] => unquoteCommand item
  | items => do
    let commands ← unquoteCommands items
    .ok (.list commands)

/-- The object that `system_method_insert_object` makes of the arguments behind the key. -/
def methodObject (flags : BitVec 32) (args : List Object) : Except Failure Object :=
  if flags &&& maskType = flagBoolType ∨ flags &&& maskType = flagValueType then
    match args with
    | [] => .ok (.value 0)
    | arg :: _ => (convertToValue arg).map .value
  else if flags &&& maskType = flagStringType then
    match args with
    | [] => .ok (.string [])
    | arg :: _ => (convertToString arg).map .string
  else if flags &&& maskType = flagFunctionType then systemMethodGenerateCommand2 args
  else if flags &&& maskType = flagListType ∨ flags &&& maskType = flagMultiType then .ok .none
  else inputError "Invalid type."

def commandFlags (flags : BitVec 32) : BitVec 32 :=
  (if hasFlag flags flagStatic then 0 else flagModifiable) |||
    (if hasFlag flags flagPrivate then 0 else flagPublicRpc)

/-- The command behind `.set`, for the types that have one. -/
def setSlot (key : Text) (flags : BitVec 32) : Option MethodSlot :=
  if hasFlag flags flagConstant then none
  else if flags &&& maskType = flagBoolType then some (.setBool key)
  else if flags &&& maskType = flagValueType then some (.setValue key)
  else if flags &&& maskType = flagStringType then some (.setString key)
  else if flags &&& maskType = flagListType then some (.setList key)
  else none

def setKey (key : Text) : Text := key ++ ".set".toList

/-- Without a second argument the source reads the object behind the last one, `pastEnd`. -/
def listObject (pastEnd : Object) (args : List Object) : Object :=
  match args.head?.getD pastEnd with
  | .list items => .list items
  | _ => .list []

def systemMethodInsertObject (pastEnd : Object) (args : List Object) (flags : BitVec 32) :
    MethodRun Object :=
  match args with
  | [] => Run.ofExcept (inputError "Invalid argument count.")
  | first :: args => do
    let rawKey ← Run.ofExcept (asString first)
    let s ← Run.get
    if rawKey.isEmpty ∨ (s.storage.findRawString rawKey).isSome ∨ (s.commands rawKey).isSome ∨
        (s.commands (setKey rawKey)).isSome then
      Run.ofExcept (inputError "Invalid key.")
    else
      let value ← Run.ofExcept (methodObject flags args)
      let object := if flags &&& maskType = flagListType then listObject pastEnd args else value
      let _ ← onStorage (ObjectStorage.insert rawKey object flags)
      insertSlot rawKey (commandFlags flags)
        (if flags &&& maskType = flagFunctionType ∨ flags &&& maskType = flagMultiType then
          .callFunction rawKey
        else .get rawKey)
      match setSlot rawKey flags with
      | some slot => insertSlot (setKey rawKey) (commandFlags flags) slot
      | none => pure ()
      pure .none

def systemMethodInsert (pastEnd : Object) : List Object → MethodRun Object
  | first :: option :: args => do
    let rawKey ← Run.ofExcept (asString first)
    let s ← Run.get
    if rawKey.isEmpty ∨ (s.commands rawKey).isSome then
      Run.ofExcept (inputError "Invalid key.")
    else
      let text ← Run.ofExcept (asString option)
      let flags ← Run.ofExcept (parseOptionFlags text objectStorageParseFlag 0)
      if hasFlag flags flagFunctionType ∨ hasFlag flags flagMultiType then
        let command ← Run.ofExcept (systemMethodGenerateCommand args)
        systemMethodInsertObject pastEnd [.string rawKey, .string command] flags
      else if hasFlag flags flagValueType ∨ hasFlag flags flagBoolType ∨
          hasFlag flags flagStringType ∨ hasFlag flags flagListType then
        systemMethodInsertObject pastEnd (.string rawKey :: args) flags
      else Run.ofExcept (inputError "No object type specified.")
  | _ => Run.ofExcept (inputError "Invalid argument count.")

def systemMethodSetFunction : List Object → MethodRun Object
  | [] => Run.ofExcept (inputError "Invalid argument count.")
  | first :: args => do
    let key ← Run.ofExcept (asString first)
    let s ← Run.get
    match s.storage.findRawString key with
    | none => Run.ofExcept (inputError "Command is not modifiable.")
    | some (_, node) =>
      if hasFlag node.flags flagConstant then
        Run.ofExcept (inputError "Command is not modifiable.")
      else
        let command ← Run.ofExcept (systemMethodGenerateCommand args)
        onStorage (setFunction key command)

/-- A command object is passed on with the key up to its first nul byte. -/
def systemMethodSetKey : List Object → MethodRun Object
  | first :: second :: args => do
    let key ← Run.ofExcept (asString first)
    let cmdKey ← Run.ofExcept (asString second)
    match args with
    | [] => onStorage (eraseMultiKey key cmdKey)
    | arg :: rest =>
      match arg with
      | .dictKey _ _ _ | .list _ => onStorage (setMultiKeyObj (cString key) cmdKey arg)
      | _ =>
        let command ← Run.ofExcept (systemMethodGenerateCommand (arg :: rest))
        onStorage (setMultiKeyObj key cmdKey (.string command))
    pure .none
  | _ => Run.ofExcept (inputError "Invalid argument count.")

/-- The arguments of a list command. -/
def callList : Object → List Object
  | .list items => items
  | .none => []
  | arg => [arg]

/-- The text a string command is called with. -/
def callString (argsRaw : Object) : Except Failure Text :=
  match convertToSingleArgument argsRaw with
  | .rawString text => .ok text
  | arg => asString arg

/-- Other commands, and those that `call_function` runs, are commands of their own. -/
def callSlot (args : Object) : MethodSlot → MethodRun Object
  | .other | .callFunction _ => pure .none
  | .get key => onStorage (ObjectStorage.get key)
  | .setBool key => do
    let value ← Run.ofExcept (ValueCommands.callValue true args)
    onStorage (ObjectStorage.setBool key value)
  | .setValue key => do
    let value ← Run.ofExcept (ValueCommands.callValue true args)
    onStorage (ObjectStorage.setValue key value)
  | .setString key => do
    let text ← Run.ofExcept (callString args)
    onStorage (ObjectStorage.setString key text)
  | .setList key => onStorage (ObjectStorage.setList key (callList args))

/-- The variants of `method.insert` that fix the flags. -/
inductive InsertCommand where
  | value
  | bool
  | string
  | list
  | simple
  | cSimple
  | sCSimple
  deriving DecidableEq, Repr

def InsertCommand.flags : InsertCommand → BitVec 32
  | .value => flagValueType
  | .bool => flagBoolType
  | .string => flagStringType
  | .list => flagListType
  | .simple => flagFunctionType
  | .cSimple => flagConstant ||| flagFunctionType
  | .sCSimple => flagStatic ||| flagConstant ||| flagFunctionType

inductive MethodCommand where
  | insert (args : Object)
  | insertAs (type : InsertCommand) (args : Object)
  | call (key : Text) (args : Object)
  | setFunction (args : Object)
  | setKey (args : Object)
  | listPushBack (key : Text) (object : Object)

def perform (pastEnd : Object) : MethodCommand → MethodRun Object
  | .insert args => systemMethodInsert pastEnd (callList args)
  | .insertAs type args => systemMethodInsertObject pastEnd (callList args) type.flags
  | .call key args => do
    let s ← Run.get
    match s.commands key with
    | none =>
      Run.ofExcept (inputError ("Command \"" ++ String.ofList key ++ "\" does not exist."))
    | some entry => callSlot args entry.slot
  | .setFunction args => systemMethodSetFunction (callList args)
  | .setKey args => systemMethodSetKey (callList args)
  | .listPushBack key object => do
    onStorage (ObjectStorage.listPushBack key object)
    pure .none

/-- What is read behind the last argument may be another object each time. -/
def performAll : List (Object × MethodCommand) → Methods → Methods
  | [], s => s
  | (pastEnd, command) :: commands, s => performAll commands (perform pastEnd command s).2

def isDictKey : Object → Bool
  | .dictKey _ _ _ => true
  | _ => false

def IsFunction (object : Object) : Prop :=
  (∃ text, object = .string text) ∨ isDictKey object ∨
    ∃ items, object = .list items ∧ ∀ item ∈ items, isDictKey item

def IsMulti (object : Object) : Prop :=
  ∃ entries, object = .map entries ∧ ∀ entry ∈ entries, isCommandObject entry.2

/-- The object is of the type that the flags name. -/
def HasType (type : BitVec 32) (object : Object) : Prop :=
  (type = flagBoolType ∧ (object = .value 0 ∨ object = .value 1)) ∨
  (type = flagValueType ∧ ∃ v, object = .value v) ∨
  (type = flagStringType ∧ ∃ text, object = .string text) ∨
  (type = flagListType ∧ ∃ items, object = .list items) ∨
  (type = flagMultiType ∧ IsMulti object) ∨
  (type = flagFunctionType ∧ IsFunction object)

def Typed (node : Node) : Prop := HasType (node.flags &&& maskType) node.object

variable {object : Object}

theorem HasType.multi (h : HasType flagMultiType object) : IsMulti object := by
  rcases h with ⟨h, -⟩ | ⟨h, -⟩ | ⟨h, -⟩ | ⟨h, -⟩ | ⟨-, h⟩ | ⟨h, -⟩
  · exact absurd h (by decide)
  · exact absurd h (by decide)
  · exact absurd h (by decide)
  · exact absurd h (by decide)
  · exact h
  · exact absurd h (by decide)

theorem unquoteCommand_isDictKey {item command : Object} (h : unquoteCommand item = .ok command) :
    isDictKey command := by
  cases item with
  | dictKey flag key obj => cases h; rfl
  | _ => cases h

theorem unquoteCommands_isDictKey {items commands : List Object}
    (h : unquoteCommands items = .ok commands) : ∀ command ∈ commands, isDictKey command := by
  induction items generalizing commands with
  | nil => cases h; simp
  | cons item items ih =>
    rw [unquoteCommands] at h
    cases hc : unquoteCommand item with
    | error e => rw [hc] at h; cases h
    | ok command =>
      cases hcs : unquoteCommands items with
      | error e => rw [hc, hcs] at h; cases h
      | ok rest =>
        rw [hc, hcs] at h
        cases h
        exact List.forall_mem_cons.mpr ⟨unquoteCommand_isDictKey hc, ih hcs⟩

theorem generateCommand2_isFunction {items : List Object}
    (h : systemMethodGenerateCommand2 items = .ok object) : IsFunction object := by
  unfold systemMethodGenerateCommand2 at h
  split at h
  · cases h
    exact .inl ⟨[], rfl⟩
  · rename_i text rest
    cases hg : generateFrom [] (.string text :: rest) with
    | error e => rw [hg] at h; cases h
    | ok command =>
      rw [hg] at h
      cases h
      exact .inl ⟨command, rfl⟩
  · exact .inr (.inl (unquoteCommand_isDictKey h))
  · cases hu : unquoteCommands items with
    | error e => rw [hu] at h; cases h
    | ok commands =>
      rw [hu] at h
      cases h
      exact .inr (.inr ⟨commands, rfl, unquoteCommands_isDictKey hu⟩)

variable (pastEnd : Object) (args : List Object)

theorem listObject_isList : ∃ items, listObject pastEnd args = .list items := by
  unfold listObject
  split
  · exact ⟨_, rfl⟩
  · exact ⟨[], rfl⟩

theorem initialObject_typed {pastEnd value : Object} {args : List Object}
    {flags : BitVec 32} (hvalue : methodObject flags args = .ok value)
    (h : initialObject
      (if flags &&& maskType = flagListType then listObject pastEnd args else value) flags =
        .ok object) : Typed ⟨object, flags⟩ := by
  unfold initialObject at h
  unfold methodObject at hvalue
  unfold Typed HasType
  by_cases hbool : flags &&& maskType = flagBoolType
  · rw [if_pos hbool] at h
    obtain ⟨v, -, rfl⟩ := except_map_ok.mp h
    refine .inl ⟨hbool, ?_⟩
    split
    · exact .inl rfl
    · exact .inr rfl
  rw [if_neg hbool] at h
  by_cases hval : flags &&& maskType = flagValueType
  · rw [if_pos hval] at h
    obtain ⟨v, -, rfl⟩ := except_map_ok.mp h
    exact .inr (.inl ⟨hval, v, rfl⟩)
  rw [if_neg hval] at h
  rw [if_neg (not_or.mpr ⟨hbool, hval⟩)] at hvalue
  by_cases hstring : flags &&& maskType = flagStringType
  · rw [if_pos hstring] at h
    obtain ⟨text, -, rfl⟩ := except_map_ok.mp h
    exact .inr (.inr (.inl ⟨hstring, text, rfl⟩))
  rw [if_neg hstring] at h hvalue
  by_cases hlist : flags &&& maskType = flagListType
  · rw [if_pos hlist, if_pos hlist] at h
    cases h
    exact .inr (.inr (.inr (.inl ⟨hlist, listObject_isList pastEnd args⟩)))
  rw [if_neg hlist, if_neg hlist] at h
  by_cases hfunction : flags &&& maskType = flagFunctionType
  · rw [if_pos hfunction] at h hvalue
    cases h
    exact .inr (.inr (.inr (.inr (.inr ⟨hfunction, generateCommand2_isFunction hvalue⟩))))
  rw [if_neg hfunction] at h hvalue
  by_cases hmulti : flags &&& maskType = flagMultiType
  · rw [if_pos hmulti] at h
    cases h
    exact .inr (.inr (.inr (.inr (.inl ⟨hmulti, [], rfl, by simp⟩))))
  · rw [if_neg (not_or.mpr ⟨hlist, hmulti⟩)] at hvalue
    cases hvalue

/-- Each entry afterwards is of its type, or it was there and still is if it was. -/
def TypeKept (s t : Storage) : Prop :=
  ∀ k node, t.entries k = some node →
    Typed node ∨ ∃ old, s.entries k = some old ∧ (Typed old → Typed node)

section

variable {s t u : Storage}

theorem TypeKept.refl (s : Storage) : TypeKept s s := fun _ node h => .inr ⟨node, h, id⟩

theorem TypeKept.of_entries (h : t.entries = s.entries) : TypeKept s t := by
  intro k node hk
  rw [h] at hk
  exact .inr ⟨node, hk, id⟩

theorem TypeKept.trans (h : TypeKept s t) (h' : TypeKept t u) : TypeKept s u := by
  intro k node hk
  rcases h' k node hk with hnode | ⟨mid, hmid, himp⟩
  · exact .inl hnode
  rcases h k mid hmid with hmid | ⟨old, hold, himp'⟩
  · exact .inl (himp hmid)
  · exact .inr ⟨old, hold, himp ∘ himp'⟩

variable {node : Node}

theorem TypeKept.of_write {k : Key} {node' : Node} (hk : s.entries k = some node)
    (h : ∀ k', t.entries k' = if k' = k then some node' else s.entries k')
    (htyped : Typed node → Typed node') : TypeKept s t := by
  intro k' n hn
  rw [h] at hn
  split at hn
  · rename_i he
    cases hn
    exact .inr ⟨node, he ▸ hk, htyped⟩
  · exact .inr ⟨n, hn, id⟩

theorem setObject_typeKept {type : BitVec 32} {object : Object} (h0 : type ≠ 0)
    (hobject : HasType type object) (s : Storage) (key : Text) :
    TypeKept s (setObject type key object s).2 := by
  rcases setObject_cases s type key object with h | ⟨k, node, hc, h⟩
  · exact .of_entries (by rw [h])
  · obtain ⟨hk, ht⟩ := entry_of_check hc h0
    refine .of_write hk (fun k' => h ▸ s.assign_entries k k' _) fun _ => ?_
    rw [Typed, ht]
    exact hobject

theorem listPushBack_typeKept (s : Storage) (key : Text) (object : Object) :
    TypeKept s (listPushBack key object s).2 := by
  rcases listPushBack_cases s key object with h | ⟨k, node, items, hc, -, h⟩
  · exact .of_entries (by rw [h])
  · obtain ⟨hk, ht⟩ := entry_of_check hc (by decide)
    refine .of_write hk (fun k' => h ▸ s.assign_entries k k' _) fun _ => ?_
    rw [Typed, ht]
    exact .inr (.inr (.inr (.inl ⟨rfl, _, rfl⟩)))

variable {entries : List (Text × Object)}

theorem mem_insertEntry {key : Text} {obj : Object}
    {entry : Text × Object} (h : entry ∈ insertEntry key obj entries) :
    entry = (key, obj) ∨ entry ∈ entries := by
  induction entries with
  | nil => exact .inl (List.mem_singleton.mp h)
  | cons e entries ih =>
    rw [insertEntry] at h
    split at h
    · exact (List.mem_cons.mp h).imp_right (List.mem_cons_of_mem e)
    · split at h
      · exact List.mem_cons.mp h
      · rcases List.mem_cons.mp h with rfl | h
        · exact .inr List.mem_cons_self
        · exact (ih h).imp_right (List.mem_cons_of_mem e)

theorem typed_multi (ht : node.flags &&& maskType = flagMultiType)
    (h : ∀ entry ∈ entries, isCommandObject entry.2) :
    Typed { node with object := .map entries } := by
  rw [Typed, ht]
  exact .inr (.inr (.inr (.inr (.inl ⟨rfl, entries, rfl, h⟩))))

theorem Typed.members (h : Typed node)
    (ht : node.flags &&& maskType = flagMultiType) (ho : node.object = .map entries) :
    ∀ entry ∈ entries, isCommandObject entry.2 := by
  rw [Typed, ht, ho] at h
  obtain ⟨es, hes, hmembers⟩ := h.multi
  cases hes
  exact hmembers

theorem setMultiKeyObj_typeKept (s : Storage) (key cmdKey : Text) (object : Object) :
    TypeKept s (setMultiKeyObj key cmdKey object s).2 := by
  cases hobject : isCommandObject object with
  | false => exact .of_entries (by rw [setMultiKeyObj_wrong_type hobject])
  | true =>
    cases hc : checkMutable flagMultiType (s.findRawString key) with
    | error e => exact .of_entries (by rw [setMultiKeyObj_error hc])
    | ok r =>
      obtain ⟨k, node⟩ := r
      obtain ⟨hk, ht⟩ := entry_of_check hc (by decide)
      cases ho : node.object with
      | map entries =>
        refine .of_write hk (setMultiKeyObj_ok hobject ho hc).entries fun hnode => ?_
        refine typed_multi ht fun entry he => ?_
        rcases mem_insertEntry he with rfl | he
        · exact hobject
        · exact hnode.members ht ho entry he
      | _ =>
        apply TypeKept.of_entries
        simp only [setMultiKeyObj, hobject, Bool.not_true, Bool.false_eq_true, if_false,
          Run.bind_apply, findRawStringMutable, hc, Run.modify, insertKey, ho, inputError,
          Run.ofExcept, Run.fail]
        cases hasFlag node.flags flagRlookup <;> rfl

theorem eraseMultiKey_typeKept (s : Storage) (key cmdKey : Text) :
    TypeKept s (eraseMultiKey key cmdKey s).2 := by
  cases hc : checkMutable flagMultiType (s.findRawString key) with
  | error e => exact .of_entries (by rw [eraseMultiKey_error hc])
  | ok r =>
    obtain ⟨k, node⟩ := r
    obtain ⟨hk, ht⟩ := entry_of_check hc (by decide)
    cases ho : node.object with
    | map entries =>
      refine .of_write hk (eraseMultiKey_ok ho hc).entries fun hnode => ?_
      refine typed_multi ht fun entry he => ?_
      exact hnode.members ht ho entry (List.mem_of_mem_filter he)
    | _ =>
      apply TypeKept.of_entries
      simp only [eraseMultiKey, Run.bind_apply, findRawStringMutable, hc, eraseKey, ho, inputError,
        Run.ofExcept, Run.fail]

theorem get_typeKept (s : Storage) (key : Text) : TypeKept s (ObjectStorage.get key s).2 := by
  simp only [ObjectStorage.get, Run.bind_apply, findRawStringConst]
  cases checkConst 0 (s.findRawString key) with
  | error e => exact .refl s
  | ok r => exact .refl s

theorem insert_typeKept {key : Text} {pastEnd value : Object} {args : List Object}
    {flags : BitVec 32} (hvalue : methodObject flags args = .ok value) (s : Storage) :
    TypeKept s (ObjectStorage.insert key
      (if flags &&& maskType = flagListType then listObject pastEnd args else value) flags
        s).2 := by
  rcases insert_cases key (if flags &&& maskType = flagListType then listObject pastEnd args
    else value) flags s with ⟨e, he⟩ | ⟨object, ho, -, hinitial, -, -⟩
  · rw [he]
    exact .refl s
  · rw [ho]
    intro k node hk
    rw [Storage.assign_entries] at hk
    split at hk
    · cases hk
      exact .inl (initialObject_typed hvalue hinitial)
    · exact .inr ⟨node, hk, id⟩

end

def MethodsKept (s t : Methods) : Prop := TypeKept s.storage t.storage

theorem methodsKept_compositional :
    Compositional (fun _ : Failure => True) (@Keeps Failure Methods MethodsKept) :=
  keeps_compositional (fun s => TypeKept.refl s.storage) (fun _ _ _ h h' => h.trans h') _

variable {α : Type}

theorem onStorage_kept {x : StorageRun α} (h : ∀ s, TypeKept s (x s).2) :
    Keeps MethodsKept (onStorage x) :=
  fun s => h s.storage

theorem ofExcept_kept (x : Except Failure α) : Keeps MethodsKept (Run.ofExcept x : MethodRun α) :=
  methodsKept_compositional.ofExcept fun _ _ => trivial

theorem get_kept : Keeps MethodsKept (Run.get : MethodRun Methods) :=
  fun s => TypeKept.refl s.storage

theorem insertSlot_kept (key : Text) (flags : BitVec 32) (slot : MethodSlot) :
    Keeps MethodsKept (insertSlot key flags slot) := by
  intro s
  unfold insertSlot
  split <;> exact TypeKept.refl s.storage

/-- The rest of a computation that starts with a conversion of its arguments. -/
theorem ofExcept_bind_kept {β : Type} {x : Except Failure α} {f : α → MethodRun β}
    (h : ∀ a, x = .ok a → Keeps MethodsKept (f a)) :
    Keeps MethodsKept (Run.ofExcept x >>= f) := by
  cases x with
  | error e => exact fun s => TypeKept.refl s.storage
  | ok a => exact h a rfl

theorem get_bind_kept {β : Type} {f : Methods → MethodRun β}
    (h : ∀ a, Keeps MethodsKept (f a)) : Keeps MethodsKept (Run.get >>= f) :=
  methodsKept_compositional.bind get_kept h

theorem insertObject_kept (flags : BitVec 32) :
    Keeps MethodsKept (systemMethodInsertObject pastEnd args flags) := by
  cases args with
  | nil => exact ofExcept_kept _
  | cons first args =>
    refine ofExcept_bind_kept fun rawKey _ => get_bind_kept fun s => ?_
    split
    · exact ofExcept_kept _
    refine ofExcept_bind_kept fun value hvalue => ?_
    refine methodsKept_compositional.bind (onStorage_kept (insert_typeKept hvalue)) fun _ => ?_
    refine methodsKept_compositional.bind (insertSlot_kept _ _ _) fun _ => ?_
    split
    · exact methodsKept_compositional.bind (insertSlot_kept _ _ _) fun _ =>
        methodsKept_compositional.pure _
    · exact methodsKept_compositional.pure _

theorem insert_kept : Keeps MethodsKept (systemMethodInsert pastEnd args) := by
  unfold systemMethodInsert
  split
  · refine ofExcept_bind_kept fun rawKey _ => get_bind_kept fun s => ?_
    split
    · exact ofExcept_kept _
    refine ofExcept_bind_kept fun text _ => ofExcept_bind_kept fun flags _ => ?_
    split
    · exact ofExcept_bind_kept fun command _ => insertObject_kept _ _ _
    split
    · exact insertObject_kept _ _ _
    · exact ofExcept_kept _
  · exact ofExcept_kept _

theorem hasType_bool (v : ℤ) : HasType flagBoolType (.value (if v = 0 then 0 else 1)) := by
  refine .inl ⟨rfl, ?_⟩
  split
  · exact .inl rfl
  · exact .inr rfl

theorem hasType_function (text : Text) : HasType flagFunctionType (.string text) :=
  .inr (.inr (.inr (.inr (.inr ⟨rfl, .inl ⟨text, rfl⟩⟩))))

theorem setFunction_kept : Keeps MethodsKept (systemMethodSetFunction args) := by
  cases args with
  | nil => exact ofExcept_kept _
  | cons first args =>
    refine ofExcept_bind_kept fun key _ => get_bind_kept fun s => ?_
    split
    · exact ofExcept_kept _
    split
    · exact ofExcept_kept _
    refine ofExcept_bind_kept fun command _ => onStorage_kept fun s => ?_
    exact setObject_typeKept (by decide) (hasType_function command) s key

theorem onStorage_none_kept {x : StorageRun Unit} (h : ∀ s, TypeKept s (x s).2) :
    Keeps MethodsKept (onStorage x >>= fun _ => pure Object.none) :=
  methodsKept_compositional.bind (onStorage_kept h) fun _ => methodsKept_compositional.pure _

theorem setKey_kept : Keeps MethodsKept (systemMethodSetKey args) := by
  unfold systemMethodSetKey
  split
  · refine ofExcept_bind_kept fun key _ => ofExcept_bind_kept fun cmdKey _ => ?_
    split
    · exact onStorage_none_kept fun s => eraseMultiKey_typeKept s _ _
    split
    · exact onStorage_none_kept fun s => setMultiKeyObj_typeKept s _ _ _
    · exact onStorage_none_kept fun s => setMultiKeyObj_typeKept s _ _ _
    · refine ofExcept_bind_kept fun command _ => ?_
      exact onStorage_none_kept fun s => setMultiKeyObj_typeKept s _ _ _
  · exact ofExcept_kept _

theorem callSlot_kept (args : Object) (slot : MethodSlot) :
    Keeps MethodsKept (callSlot args slot) := by
  cases slot with
  | other => exact methodsKept_compositional.pure _
  | callFunction key => exact methodsKept_compositional.pure _
  | get key => exact onStorage_kept fun s => get_typeKept s key
  | setBool key =>
    refine ofExcept_bind_kept fun value _ => onStorage_kept fun s => ?_
    exact setObject_typeKept (by decide) (hasType_bool value) s key
  | setValue key =>
    refine ofExcept_bind_kept fun value _ => onStorage_kept fun s => ?_
    exact setObject_typeKept (by decide) (.inr (.inl ⟨rfl, value, rfl⟩)) s key
  | setString key =>
    refine ofExcept_bind_kept fun text _ => onStorage_kept fun s => ?_
    exact setObject_typeKept (by decide) (.inr (.inr (.inl ⟨rfl, text, rfl⟩))) s key
  | setList key =>
    refine onStorage_kept fun s => ?_
    exact setObject_typeKept (by decide) (.inr (.inr (.inr (.inl ⟨rfl, _, rfl⟩)))) s key

theorem perform_kept (command : MethodCommand) : Keeps MethodsKept (perform pastEnd command) := by
  cases command with
  | insert args => exact insert_kept _ _
  | insertAs type args => exact insertObject_kept _ _ _
  | call key args =>
    refine get_bind_kept fun s => ?_
    split
    · exact ofExcept_kept _
    · exact callSlot_kept _ _
  | setFunction args => exact setFunction_kept _
  | setKey args => exact setKey_kept _
  | listPushBack key object =>
    exact methodsKept_compositional.bind (onStorage_kept fun s => listPushBack_typeKept s _ _)
      fun _ => methodsKept_compositional.pure _

theorem performAll_kept (commands : List (Object × MethodCommand)) (s : Methods) :
    MethodsKept s (performAll commands s) := by
  induction commands generalizing s with
  | nil => exact TypeKept.refl s.storage
  | cons command commands ih =>
    exact (perform_kept command.1 command.2 s).trans (ih _)

/-- After any commands an entry that was not there before them is of its type. -/
theorem created_entries_typed (s : Methods) (commands : List (Object × MethodCommand)) (k : Key)
    (node : Node) (hnew : s.storage.entries k = none)
    (hk : (performAll commands s).storage.entries k = some node) :
    HasType (node.flags &&& maskType) node.object := by
  rcases performAll_kept commands s k node hk with h | ⟨old, hold, -⟩
  · exact h
  · rw [hnew] at hold
    cases hold

/-- A boolean method is made with 0 and then set to 5. -/
def boolSetToFive : List (Object × MethodCommand) :=
  [(.none, .insert (.list [.string "m".toList, .string "bool|private".toList, .string "0".toList])),
    (.none, .call "m.set".toList (.value 5))]

theorem bool_method_typed :
    (performAll boolSetToFive ⟨.empty, fun _ => none⟩).storage.entries (.setData "m".toList) =
        some ⟨.value 1, flagBoolType ||| flagPrivate⟩ ∧
      HasType ((flagBoolType ||| flagPrivate) &&& maskType) (.value 1) := by
  have hk : (performAll boolSetToFive ⟨.empty, fun _ => none⟩).storage.entries
      (.setData "m".toList) = some ⟨.value 1, flagBoolType ||| flagPrivate⟩ := rfl
  exact ⟨hk, created_entries_typed _ _ _ _ rfl hk⟩

end MethodCommands
