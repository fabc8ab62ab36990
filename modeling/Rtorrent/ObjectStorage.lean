import Mathlib.Data.List.Perm.Basic
import Rtorrent.RpcCommandMap
import Rtorrent.RpcValueParser
import Rtorrent.TransitionSystems

/-! # The object storage

A key has a fixed size; it is filled from a pointer and a size when an entry is inserted and
from a C string when it is looked up. It also stands for the pointer to its entry. -/
namespace ObjectStorage

open FallibleRuns RpcTextParser RpcCommandParser RpcCommandMap RpcValueParser TransitionSystems

/-- `fixed_key_type<MaxSize>`, whose `max_size` is `MaxSize - 1`. -/
@[ext] structure FixedKey (maxSize : ℕ) where
  data : Text
  fits : data.length ≤ maxSize - 1
  deriving DecidableEq

namespace FixedKey

variable {maxSize : ℕ}

def empty : FixedKey maxSize := ⟨[], Nat.zero_le _⟩

/-- A text that fills the key leaves it empty. -/
def setData (src : Text) : FixedKey maxSize :=
  if h : maxSize - 1 ≤ src.length then empty else ⟨src, Nat.le_of_lt (Nat.lt_of_not_le h)⟩

/-- A text that is too long is cut. -/
def setCStr (src : Text) : FixedKey maxSize :=
  ⟨(cString src).take (maxSize - 1), List.length_take_le _ _⟩

variable {src : Text}

theorem setData_data_of_lt (h : src.length < maxSize - 1) :
    (setData src : FixedKey maxSize).data = src := by
  rw [setData, dif_neg (Nat.not_le_of_lt h)]

theorem setData_of_le (h : maxSize - 1 ≤ src.length) :
    (setData src : FixedKey maxSize) = empty := dif_pos h

theorem setData_length (src : Text) (h : 0 < maxSize - 1) :
    (setData src : FixedKey maxSize).data.length < maxSize - 1 := by
  rcases Nat.lt_or_ge src.length (maxSize - 1) with hs | hs
  · rw [setData_data_of_lt hs]
    exact hs
  · rw [setData_of_le hs]
    exact h

theorem mem_setData {c : Char} (h : c ∈ (setData src : FixedKey maxSize).data) : c ∈ src := by
  rcases Nat.lt_or_ge src.length (maxSize - 1) with hs | hs
  · rwa [setData_data_of_lt hs] at h
  · rw [setData_of_le hs] at h
    cases h

theorem setCStr_data (h : '\x00' ∉ src) :
    (setCStr src : FixedKey maxSize).data = src.take (maxSize - 1) := by
  simp only [setCStr, cString_of_not_mem h]

end FixedKey

abbrev Key := FixedKey 64

def insertEntry (key : Text) (obj : Object) : List (Text × Object) → List (Text × Object)
  | [] => [(key, obj)]
  | entry :: entries =>
    if key = entry.1 then (key, obj) :: entries
    else if key < entry.1 then (key, obj) :: entry :: entries
    else entry :: insertEntry key obj entries

def hasKey (key : Text) : Object → Bool
  | .map entries => entries.any (·.1 == key)
  | _ => false

def insertKey (key : Text) (value : Object) : Object → Except Failure Object
  | .map entries => .ok (.map (insertEntry key value entries))
  | _ => inputError "Wrong object type."

def eraseKey (key : Text) : Object → Except Failure Object
  | .map entries => .ok (.map (entries.filter (·.1 != key)))
  | _ => inputError "Wrong object type."

theorem hasKey_insertEntry (key key' : Text) (obj : Object) (entries : List (Text × Object)) :
    hasKey key' (.map (insertEntry key obj entries)) ↔
      key = key' ∨ hasKey key' (.map entries) := by
  induction entries with
  | nil => simp [insertEntry, hasKey]
  | cons entry entries ih =>
    simp only [hasKey] at ih ⊢
    rw [insertEntry]
    split
    · rename_i h
      simp [← h]
    · split
      · simp
      · rw [List.any_cons, Bool.or_eq_true, ih, List.any_cons, Bool.or_eq_true]
        tauto

theorem hasKey_eraseKey (key key' : Text) (entries : List (Text × Object)) :
    hasKey key' (.map (entries.filter (·.1 != key))) ↔
      key ≠ key' ∧ hasKey key' (.map entries) := by
  simp only [hasKey, List.any_filter, List.any_eq_true, Bool.and_eq_true, bne_iff_ne, beq_iff_eq]
  constructor
  · rintro ⟨entry, he, hne, rfl⟩
    exact ⟨fun h => hne h.symm, entry, he, rfl⟩
  · rintro ⟨hne, entry, he, rfl⟩
    exact ⟨entry, he, fun h => hne h.symm, rfl⟩

def flagBoolType : BitVec 32 := 0x2
def flagValueType : BitVec 32 := 0x4
def flagStringType : BitVec 32 := 0x8
def flagListType : BitVec 32 := 0x10
def flagFunctionType : BitVec 32 := 0x20
def flagMultiType : BitVec 32 := 0x40

def maskType : BitVec 32 := 0xff

def flagConstant : BitVec 32 := 0x100
def flagStatic : BitVec 32 := 0x200
def flagPrivate : BitVec 32 := 0x400
def flagRlookup : BitVec 32 := 0x800

structure Node where
  object : Object
  flags : BitVec 32

structure Storage where
  entries : Key → Option Node
  rlookup : Text → Option (List Key)

namespace Storage

def empty : Storage := ⟨fun _ => none, fun _ => none⟩

def assign (s : Storage) (k : Key) (node : Node) : Storage :=
  { s with entries := Function.update s.entries k (some node) }

def listed (s : Storage) (cmdKey : Text) : List Key := (s.rlookup cmdKey).getD []

def setListed (s : Storage) (cmdKey : Text) (keys : List Key) : Storage :=
  { s with rlookup := Function.update s.rlookup cmdKey (some keys) }

@[simp] theorem assign_rlookup (s : Storage) (k : Key) (node : Node) :
    (s.assign k node).rlookup = s.rlookup := rfl

@[simp] theorem assign_listed (s : Storage) (k : Key) (node : Node) (cmdKey : Text) :
    (s.assign k node).listed cmdKey = s.listed cmdKey := rfl

@[simp] theorem setListed_entries (s : Storage) (cmdKey : Text) (keys : List Key) :
    (s.setListed cmdKey keys).entries = s.entries := rfl

theorem assign_entries (s : Storage) (k k' : Key) (node : Node) :
    (s.assign k node).entries k' = if k' = k then some node else s.entries k' :=
  Function.update_apply _ _ _ _

theorem setListed_listed (s : Storage) (cmdKey cmdKey' : Text) (keys : List Key) :
    (s.setListed cmdKey keys).listed cmdKey' =
      if cmdKey' = cmdKey then keys else s.listed cmdKey' := by
  simp only [listed, setListed, Function.update_apply]
  split <;> rfl

/-- The iterator that `find_raw_string` returns. -/
def findRawString (s : Storage) (key : Text) : Option (Key × Node) :=
  (s.entries (.setCStr key)).map fun node => (.setCStr key, node)

end Storage

abbrev StorageRun (α : Type) := Run Failure Storage α

def checkConst (type : BitVec 32) : Option (Key × Node) → Except Failure (Key × Node)
  | none => inputError "Key not found."
  | some (k, node) =>
    if type ≠ 0 ∧ node.flags &&& maskType ≠ type then inputError "Object is wrong type or const."
    else .ok (k, node)

def checkMutable (type : BitVec 32) : Option (Key × Node) → Except Failure (Key × Node)
  | none => inputError "Key not found."
  | some (k, node) =>
    if (type ≠ 0 ∧ node.flags &&& maskType ≠ type) ∨ hasFlag node.flags flagConstant then
      inputError "Object is wrong type or const."
    else .ok (k, node)

def findRawStringConst (key : Text) (type : BitVec 32) : StorageRun (Key × Node) := fun s =>
  (checkConst type (s.findRawString key), s)

def findRawStringMutable (key : Text) (type : BitVec 32) : StorageRun (Key × Node) := fun s =>
  (checkMutable type (s.findRawString key), s)

variable {k : Key} {node : Node}

theorem checkMutable_ok {type : BitVec 32} {r : Option (Key × Node)}
    (h : checkMutable type r = .ok (k, node)) :
    r = some (k, node) ∧ (type ≠ 0 → node.flags &&& maskType = type) ∧
      hasFlag node.flags flagConstant = false := by
  cases r with
  | none => cases h
  | some r =>
    simp only [checkMutable] at h
    split at h
    · cases h
    · rename_i hc
      cases h
      rw [not_or, not_and, not_not, Bool.not_eq_true] at hc
      exact ⟨rfl, hc⟩

variable {s : Storage}

theorem findRawString_some {key : Text}
    (h : s.findRawString key = some (k, node)) : k = .setCStr key ∧ s.entries k = some node := by
  simp only [Storage.findRawString, Option.map_eq_some_iff, Prod.mk.injEq] at h
  rcases h with ⟨n, hn, rfl, rfl⟩
  exact ⟨rfl, hn⟩

def initialObject (rawObject : Object) (flags : BitVec 32) : Except Failure Object :=
  if flags &&& maskType = flagBoolType then
    (convertToValue rawObject).map fun v => .value (if v = 0 then 0 else 1)
  else if flags &&& maskType = flagValueType then (convertToValue rawObject).map .value
  else if flags &&& maskType = flagStringType then (convertToString rawObject).map .string
  else if flags &&& maskType = flagListType then .ok rawObject
  else if flags &&& maskType = flagFunctionType then .ok rawObject
  else if flags &&& maskType = flagMultiType then .ok (.map [])
  else .ok .none

def insert (key : Text) (rawObject : Object) (flags : BitVec 32) : StorageRun Key := fun s =>
  if '\x00' ∈ key then (inputError "Found nul-char in string.", s)
  else
    match initialObject rawObject flags with
    | .error e => (.error e, s)
    | .ok object =>
      if flags &&& maskType = 0 then
        (inputError "No type flags set when calling object_storage::insert.", s)
      else if hasFlag flags flagRlookup &&
          (!hasFlag flags flagStatic || !hasFlag flags flagMultiType) then
        (inputError
          "Cannot insert non-static or non-multi-type object with rlookup enabled.", s)
      else
        match s.entries (.setData key) with
        | some _ => (inputError "Key already exists in object_storage.", s)
        | none => (.ok (.setData key), s.assign (.setData key) ⟨object, flags⟩)

theorem insert_cases (key : Text) (rawObject : Object) (flags : BitVec 32) (s : Storage) :
    (∃ e, insert key rawObject flags s = (.error e, s)) ∨
    ∃ object, insert key rawObject flags s =
        (.ok (.setData key), s.assign (.setData key) ⟨object, flags⟩) ∧
      '\x00' ∉ key ∧ initialObject rawObject flags = .ok object ∧
      (hasFlag flags flagRlookup → hasFlag flags flagMultiType) ∧
      s.entries (.setData key) = none := by
  simp only [insert]
  split
  · exact .inl ⟨_, rfl⟩
  rename_i hnul
  split
  · exact .inl ⟨_, rfl⟩
  rename_i object hobject
  split
  · exact .inl ⟨_, rfl⟩
  split
  · exact .inl ⟨_, rfl⟩
  rename_i hrlookup
  split
  · exact .inl ⟨_, rfl⟩
  rename_i hnone
  refine .inr ⟨object, rfl, hnul, hobject, ?_, hnone⟩
  intro h
  simp only [h, Bool.true_and, Bool.or_eq_true, Bool.not_eq_true', not_or] at hrlookup
  exact Bool.not_eq_false _ |>.mp hrlookup.2

theorem insert_entries_of_some (h : s.entries k = some node)
    (key : Text) (rawObject : Object) (flags : BitVec 32) :
    (insert key rawObject flags s).2.entries k = some node := by
  rcases insert_cases key rawObject flags s with ⟨e, he⟩ | ⟨object, ho, -, -, -, hnone⟩
  · rw [he]
    exact h
  · rw [ho, Storage.assign_entries, if_neg, h]
    intro hk
    rw [← hk, h] at hnone
    cases hnone

def hasFlagOf (key : Text) (flag : BitVec 32) : StorageRun Bool := do
  let (_, node) ← findRawStringConst key 0
  pure (hasFlag node.flags flag)

def enableFlag (key : Text) (flag : BitVec 32) : StorageRun Unit := do
  let (k, node) ← findRawStringMutable key 0
  Run.modify fun s => s.assign k { node with flags := node.flags ||| (flag &&& flagConstant) }

def get (key : Text) : StorageRun Object := do
  let (_, node) ← findRawStringConst key 0
  pure node.object

/-- The setters differ in the type they ask for. -/
def setObject (type : BitVec 32) (key : Text) (object : Object) : StorageRun Object := do
  let (k, node) ← findRawStringMutable key type
  Run.modify fun s => s.assign k { node with object := object }
  pure object

def setBool (key : Text) (object : ℤ) : StorageRun Object :=
  setObject flagBoolType key (.value (if object = 0 then 0 else 1))

def setValue (key : Text) (object : ℤ) : StorageRun Object :=
  setObject flagValueType key (.value object)

def setString (key : Text) (object : Text) : StorageRun Object :=
  setObject flagStringType key (.string object)

def setList (key : Text) (object : List Object) : StorageRun Object :=
  setObject flagListType key (.list object)

def setFunction (key : Text) (object : Text) : StorageRun Object :=
  setObject flagFunctionType key (.string object)

def listPushBack (key : Text) (object : Object) : StorageRun Unit := do
  let (k, node) ← findRawStringMutable key flagListType
  match node.object with
  | .list items => Run.modify fun s => s.assign k { node with object := .list (items ++ [object]) }
  | _ => Run.ofExcept (inputError "Wrong object type.")

/-- `unordered_vector::erase`: the last element takes the place of the erased one. -/
def unorderedErase {α : Type} (items : List α) (i : ℕ) : List α :=
  match items.getLast? with
  | none => []
  | some last => (items.set i last).dropLast

/-- The first entry whose key is the whole raw string is taken off the list. -/
def unlist (key : Text) (keys : List Key) : List Key :=
  match keys.findIdx? fun k => k.data == key with
  | none => keys
  | some i => unorderedErase keys i

def eraseMultiKey (key cmdKey : Text) : StorageRun Unit := do
  let (k, node) ← findRawStringMutable key flagMultiType
  let object ← Run.ofExcept (eraseKey cmdKey node.object)
  Run.modify fun s => s.assign k { node with object := object }
  if !hasFlag node.flags flagRlookup then pure ()
  else
    let s ← Run.get
    match s.rlookup cmdKey with
    | none => pure ()
    | some keys => Run.modify fun s => s.setListed cmdKey (unlist key keys)

def isCommandObject : Object → Bool
  | .string _ | .dictKey _ _ _ | .list _ => true
  | _ => false

/-- Listed again unless the whole raw string is the key of an entry on the list. -/
def relist (key : Text) (k : Key) (keys : List Key) : List Key :=
  if keys.all fun k => k.data != key then keys ++ [k] else keys

def setMultiKeyObj (key cmdKey : Text) (object : Object) : StorageRun Unit :=
  if !isCommandObject object then Run.ofExcept (inputError "Object is wrong type.")
  else do
    let (k, node) ← findRawStringMutable key flagMultiType
    Run.modify fun s =>
      if hasFlag node.flags flagRlookup then s.setListed cmdKey (relist key k (s.listed cmdKey))
      else s
    let object ← Run.ofExcept (insertKey cmdKey object node.object)
    Run.modify fun s => s.assign k { node with object := object }

/-- `erase_key` on a listed entry. -/
def clearEntry (cmdKey : Text) (k : Key) : StorageRun Unit := fun s =>
  match s.entries k with
  | none => (.ok (), s)
  | some node =>
    match eraseKey cmdKey node.object with
    | .ok object => (.ok (), s.assign k { node with object := object })
    | .error e => (.error e, s)

def clearEntries (cmdKey : Text) : List Key → StorageRun Unit
  | [] => pure ()
  | k :: keys => do
    clearEntry cmdKey k
    clearEntries cmdKey keys

def rlookupClear (cmdKey : Text) : StorageRun Unit := do
  let s ← Run.get
  match s.rlookup cmdKey with
  | none => pure ()
  | some keys =>
    clearEntries cmdKey keys
    Run.modify fun s => s.setListed cmdKey []

inductive Call where
  | insert (key : Text) (rawObject : Object) (flags : BitVec 32)
  | setMultiKeyObj (key cmdKey : Text) (object : Object)
  | eraseMultiKey (key cmdKey : Text)
  | enableFlag (key : Text) (flag : BitVec 32)
  | rlookupClear (cmdKey : Text)

/-- The state after a call, whether it returned or threw. -/
def next (s : Storage) : Call → Storage
  | .insert key rawObject flags => (insert key rawObject flags s).2
  | .setMultiKeyObj key cmdKey object => (setMultiKeyObj key cmdKey object s).2
  | .eraseMultiKey key cmdKey => (eraseMultiKey key cmdKey s).2
  | .enableFlag key flag => (enableFlag key flag s).2
  | .rlookupClear cmdKey => (rlookupClear cmdKey s).2

def machine : Machine Storage Call := ⟨fun _ _ => True, next⟩

end ObjectStorage
