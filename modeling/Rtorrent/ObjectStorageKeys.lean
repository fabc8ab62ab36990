import Rtorrent.ObjectStorage

/-! # Which entry a key reaches -/
namespace ObjectStorageKeys

open FallibleRuns RpcTextParser ObjectStorage

def insertAll (s : Storage) (calls : List (Text × Object × BitVec 32)) : Storage :=
  calls.foldl (fun s call => (ObjectStorage.insert call.1 call.2.1 call.2.2 s).2) s

def without (s : Storage) (k : Key) : Storage :=
  { s with entries := Function.update s.entries k none }

/-- `get`, `has_flag` and the setters find the entry `k`, which is `node`. -/
structure Reaches (s : Storage) (key : Text) (k : Key) (node : Node) : Prop where
  get : ObjectStorage.get key s = (.ok node.object, s)
  hasFlag : ∀ flag, hasFlagOf key flag s = (.ok (RpcCommandMap.hasFlag node.flags flag), s)
  set : ∀ type object, setObject type key object s =
    if (type ≠ 0 ∧ node.flags &&& maskType ≠ type) ∨
        RpcCommandMap.hasFlag node.flags flagConstant then
      (inputError "Object is wrong type or const.", s)
    else (.ok object, s.assign k { node with object := object })

/-- The answers are the same without the entry `k`, and the setters leave it alone. -/
structure Misses (s : Storage) (key : Text) (k : Key) : Prop where
  get : (ObjectStorage.get key (without s k)).1 = (ObjectStorage.get key s).1
  hasFlag : ∀ flag, (hasFlagOf key flag (without s k)).1 = (hasFlagOf key flag s).1
  set : ∀ type object, (setObject type key object (without s k)).1 =
      (setObject type key object s).1 ∧
    (setObject type key object s).2.entries k = s.entries k
  insert : ∀ rawObject flags, (ObjectStorage.insert key rawObject flags (without s k)).1 =
    (ObjectStorage.insert key rawObject flags s).1

/-- In every run of inserts the entry inserted under `a` is reached with the key `a`, and
not with the key `b`. -/
def KeepsApart (a b : Text) : Prop :=
  ∀ calls rawObject flags k s,
    ObjectStorage.insert a rawObject flags (insertAll .empty calls) = (.ok k, s) →
    ∀ calls', ∃ node, s.entries k = some node ∧
      Reaches (insertAll s calls') a k node ∧
      (a ≠ b → Misses (insertAll s calls') b k)

variable {s : Storage} {k : Key}

theorem insertAll_entries {node : Node} (h : s.entries k = some node)
    (calls : List (Text × Object × BitVec 32)) : (insertAll s calls).entries k = some node := by
  induction calls generalizing s with
  | nil => exact h
  | cons call calls ih =>
    apply ih
    apply insert_entries_of_some h

variable {key : Text}

theorem reaches_of_find {node : Node}
    (h : s.findRawString key = some (k, node)) : Reaches s key k node := by
  constructor
  · simp [ObjectStorage.get, Run.bind_apply, Run.pure_apply, findRawStringConst, checkConst, h]
  · intro flag
    simp [hasFlagOf, Run.bind_apply, Run.pure_apply, findRawStringConst, checkConst, h]
  · intro type object
    simp only [setObject, Run.bind_apply, findRawStringMutable, h, checkMutable]
    by_cases hc : (type ≠ 0 ∧ node.flags &&& maskType ≠ type) ∨
        RpcCommandMap.hasFlag node.flags flagConstant
    · rw [if_pos hc, if_pos hc]
      rfl
    · rw [if_neg hc, if_neg hc]
      rfl

theorem find_without (h : FixedKey.setCStr key ≠ k) :
    (without s k).findRawString key = s.findRawString key := by
  simp only [Storage.findRawString, without, Function.update_of_ne h]

theorem misses_of_ne (hc : FixedKey.setCStr key ≠ k)
    (hd : FixedKey.setData key ≠ k) : Misses s key k := by
  have hfind := find_without (s := s) hc
  constructor
  · simp only [ObjectStorage.get, Run.bind_apply, findRawStringConst, hfind]
    cases checkConst 0 (s.findRawString key) with
    | error e => rfl
    | ok r => rfl
  · intro flag
    simp only [hasFlagOf, Run.bind_apply, findRawStringConst, hfind]
    cases checkConst 0 (s.findRawString key) with
    | error e => rfl
    | ok r => rfl
  · intro type object
    simp only [setObject, Run.bind_apply, findRawStringMutable, hfind]
    cases hr : checkMutable type (s.findRawString key) with
    | error e => exact ⟨rfl, rfl⟩
    | ok r =>
      have hk := (findRawString_some (checkMutable_ok hr).1).1
      constructor
      · rfl
      · apply Function.update_of_ne
        rw [hk]
        exact hc.symm
  · intro rawObject flags
    have he : (without s k).entries (.setData key) = s.entries (.setData key) :=
      Function.update_of_ne hd _ _
    simp only [ObjectStorage.insert, he]
    split
    · rfl
    split
    · rfl
    split
    · rfl
    split
    · rfl
    split <;> rfl

theorem get_of_find_none (h : s.findRawString key = none) :
    ObjectStorage.get key s = (inputError "Key not found.", s) := by
  simp only [ObjectStorage.get, Run.bind_apply, findRawStringConst, checkConst, h]
  rfl

variable {a : Text}

theorem setCStr_eq_setData (ha : '\x00' ∉ a) (hl : a.length < 63) :
    (FixedKey.setCStr a : Key) = .setData a := by
  apply FixedKey.ext
  rw [FixedKey.setCStr_data ha, FixedKey.setData_data_of_lt hl, List.take_of_length_le hl.le]

theorem setCStr_ne_setData {b : Text} (hb : '\x00' ∉ b) (hl : a.length < 63) (hab : a ≠ b) :
    (FixedKey.setCStr b : Key) ≠ .setData a := by
  intro h
  have hd : b.take 63 = a := by
    rw [← @FixedKey.setData_data_of_lt 64 _ hl, ← h, FixedKey.setCStr_data hb]
  have hlen := congrArg List.length hd
  rw [List.length_take] at hlen
  rw [List.take_of_length_le (by omega)] at hd
  exact hab hd.symm

theorem setData_ne_setData {b : Text} (hl : a.length < 63) (hab : a ≠ b)
    (hne : 63 ≤ b.length → a ≠ []) : (FixedKey.setData b : Key) ≠ .setData a := by
  intro h
  have hd := congrArg FixedKey.data h
  rw [@FixedKey.setData_data_of_lt 64 _ hl] at hd
  rcases Nat.lt_or_ge b.length 63 with hb | hb
  · rw [@FixedKey.setData_data_of_lt 64 _ hb] at hd
    exact hab hd.symm
  · rw [@FixedKey.setData_of_le 64 _ hb] at hd
    exact hne hb hd.symm

/-- Only an entry in the place of the key stands in the way of a value. -/
theorem insert_value (ha : '\x00' ∉ a) (s : Storage) :
    ObjectStorage.insert a .none flagValueType s =
      match s.entries (.setData a) with
      | some _ => (inputError "Key already exists in object_storage.", s)
      | none => (.ok (.setData a), s.assign (.setData a) ⟨.value 0, flagValueType⟩) := by
  simp only [ObjectStorage.insert, if_neg ha]
  rfl

theorem find_long (ha : '\x00' ∉ a) (hl : 63 ≤ a.length) (node : Node) :
    (Storage.empty.assign (.setData a) node).findRawString a = none := by
  rw [Storage.findRawString, Storage.assign_entries, if_neg]
  · rfl
  · intro h
    have hlen := congrArg (fun k : Key => k.data.length) h
    simp only [FixedKey.setCStr_data ha, List.length_take,
      @FixedKey.setData_of_le 64 _ hl, FixedKey.empty, List.length_nil] at hlen
    omega

/-- A longer key is stored as the empty key and looked up as its first 63 bytes. -/
theorem keepsApart_iff (a b : Text) (ha : '\x00' ∉ a) (hb : '\x00' ∉ b) :
    KeepsApart a b ↔ a.length < 63 ∧ (a ≠ b → 63 ≤ b.length → a ≠ []) := by
  constructor
  · intro h
    rcases h [] .none flagValueType _ _ (insert_value ha .empty) [] with ⟨node, -, hreach, hmiss⟩
    constructor
    · by_contra hl
      have hfind := hreach.get
      rw [get_of_find_none] at hfind
      · cases hfind
      · exact find_long ha (Nat.le_of_not_lt hl) _
    · rintro hab hlb rfl
      have hi := (hmiss hab).insert .none flagValueType
      have hk : (FixedKey.setData b : Key) = .setData [] := FixedKey.setData_of_le hlb
      rw [insert_value hb, insert_value hb, hk] at hi
      simp [insertAll, without, Storage.assign, inputError] at hi
  · rintro ⟨hl, hne⟩ calls rawObject flags k s hinsert calls'
    rcases insert_cases a rawObject flags (insertAll .empty calls) with
      ⟨e, he⟩ | ⟨object, ho, -, -, -, -⟩
    · rw [he] at hinsert
      cases hinsert
    · rw [ho] at hinsert
      cases hinsert
      have hs : ((insertAll .empty calls).assign (.setData a) ⟨object, flags⟩).entries
          (.setData a) = some ⟨object, flags⟩ := Function.update_self _ _ _
      refine ⟨⟨object, flags⟩, hs, ?_, ?_⟩
      · apply reaches_of_find
        simp only [Storage.findRawString, setCStr_eq_setData ha hl, insertAll_entries hs,
          Option.map_some]
      · intro hab
        exact misses_of_ne (setCStr_ne_setData hb hl hab) (setData_ne_setData hl hab (hne hab))

theorem keepsApart_short : KeepsApart "d.name".toList "d.hash".toList :=
  (keepsApart_iff "d.name".toList "d.hash".toList (by decide) (by decide)).mpr
    ⟨by decide, by decide⟩

def longKey (size : ℕ) : Text := List.replicate size 'k'

/-- The entry of a key of 63 bytes is found with the empty key only, and excludes a key of 64
bytes. -/
theorem long_keys_collide :
    let s := (ObjectStorage.insert (longKey 63) (.string ['x']) flagStringType .empty).2
    (ObjectStorage.insert (longKey 63) (.string ['x']) flagStringType .empty).1 = .ok .empty ∧
    (ObjectStorage.get (longKey 63) s).1 = inputError "Key not found." ∧
    (ObjectStorage.get [] s).1 = .ok (.string ['x']) ∧
    (ObjectStorage.insert (longKey 64) (.string ['y']) flagStringType s).1 =
      inputError "Key already exists in object_storage." :=
  ⟨rfl, rfl, rfl, rfl⟩

end ObjectStorageKeys
