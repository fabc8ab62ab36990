import Rtorrent.ObjectStorageLookup

/-! # Constant entries of the object storage

The writers find their entry with `find_raw_string_mutable`, which refuses a constant one.
`rlookup_clear` reaches the entries through the reverse lookup instead. -/
namespace ObjectStorageConstants

open FallibleRuns RpcTextParser RpcCommandMap ObjectStorage
open ObjectStorageLookup TransitionSystems

inductive Access where
  | call (c : Call)
  | setBool (key : Text) (object : ℤ)
  | setValue (key : Text) (object : ℤ)
  | setString (key object : Text)
  | setList (key : Text) (object : List Object)
  | setFunction (key object : Text)
  | listPushBack (key : Text) (object : Object)

def Access.next (s : Storage) : Access → Storage
  | .call c => ObjectStorage.next s c
  | .setBool key object => (ObjectStorage.setBool key object s).2
  | .setValue key object => (ObjectStorage.setValue key object s).2
  | .setString key object => (ObjectStorage.setString key object s).2
  | .setList key object => (ObjectStorage.setList key object s).2
  | .setFunction key object => (ObjectStorage.setFunction key object s).2
  | .listPushBack key object => (ObjectStorage.listPushBack key object s).2

def accessMachine : Machine Storage Access := ⟨fun _ _ => True, Access.next⟩

/-- `performed` are the operations of the commands that `call_function` runs, up to the point
where one of them throws. -/
inductive Operation where
  | access (a : Access)
  | callFunction (key : Text) (performed : List Operation)

/-- The entry that `call_function` runs, or what it throws. -/
def functionOf (key : Text) (s : Storage) : Except Failure Object := do
  let (_, node) ← checkConst 0 (s.findRawString key)
  if node.flags &&& maskType = flagFunctionType ∨ node.flags &&& maskType = flagMultiType then
    .ok node.object
  else inputError "Key not found or wrong type."

mutual

/-- The writes of an operation in their order. -/
def writes (s : Storage) : Operation → List Access
  | .access a => [a]
  | .callFunction key performed =>
    match functionOf key s with
    | .ok _ => writesAll s performed
    | .error _ => []

def writesAll (s : Storage) : List Operation → List Access
  | [] => []
  | o :: os => writes s o ++ writesAll (accessMachine.replay s (writes s o)) os

end

def isConstant (node : Node) : Bool := hasFlag node.flags flagConstant

def Unchanged (s t : Storage) : Prop :=
  ∀ k node, s.entries k = some node → isConstant node → t.entries k = some node

/-- A constant entry of any state of the run is the same at its end. -/
def Kept (s : Storage) (accesses : List Access) : Prop :=
  ∀ before after, accesses = before ++ after →
    Unchanged (accessMachine.replay s before) (accessMachine.replay s accesses)

/-- `rlookup_clear` finds no constant entry with the command key on its list. -/
def Spares (s : Storage) : Access → Prop
  | .call (.rlookupClear cmdKey) => ∀ k ∈ s.listed cmdKey, ∀ node, s.entries k = some node →
      isConstant node → hasKey cmdKey node.object = false
  | _ => True

section

variable {s t u : Storage}

/-- At most one entry is written, and a constant one is not. -/
def WritesMutable (s t : Storage) : Prop :=
  t.entries = s.entries ∨ ∃ k node,
    (∀ old, s.entries k = some old → isConstant old = false) ∧
    ∀ k', t.entries k' = if k' = k then some node else s.entries k'

theorem Unchanged.refl (s : Storage) : Unchanged s s := fun _ _ h _ => h

theorem Unchanged.trans (h : Unchanged s t) (h' : Unchanged t u) : Unchanged s u :=
  fun k node hk hc => h' k node (h k node hk hc) hc

theorem WritesMutable.unchanged (h : WritesMutable s t) : Unchanged s t := by
  intro k node hk hc
  rcases h with h | ⟨k', node', hold, h⟩
  · rw [h, hk]
  · rw [h, if_neg, hk]
    rintro rfl
    rw [hold node hk] at hc
    cases hc

variable {type : BitVec 32} {k : Key} {node : Node}

theorem mutable_of_check {key : Text}
    (h : checkMutable type (s.findRawString key) = .ok (k, node)) :
    ∀ old, s.entries k = some old → isConstant old = false := by
  obtain ⟨hfind, -, hc⟩ := checkMutable_ok h
  intro old hold
  rw [(findRawString_some hfind).2] at hold
  cases hold
  exact hc

theorem writesMutable_assign {key : Text}
    (h : checkMutable type (s.findRawString key) = .ok (k, node)) (node' : Node) :
    WritesMutable s (s.assign k node') :=
  .inr ⟨k, node', mutable_of_check h, fun k' => s.assign_entries k k' node'⟩

theorem insert_writesMutable (s : Storage) (key : Text) (rawObject : Object) (flags : BitVec 32) :
    WritesMutable s (insert key rawObject flags s).2 := by
  rcases insert_cases key rawObject flags s with ⟨e, he⟩ | ⟨object, ho, -, -, -, hnone⟩
  · rw [he]
    exact .inl rfl
  · rw [ho]
    refine .inr ⟨.setData key, ⟨object, flags⟩, ?_, fun k' => s.assign_entries _ k' _⟩
    intro old hold
    rw [hnone] at hold
    cases hold

theorem enableFlag_writesMutable (s : Storage) (key : Text) (flag : BitVec 32) :
    WritesMutable s (enableFlag key flag s).2 := by
  simp only [enableFlag, Run.bind_apply, findRawStringMutable]
  cases hc : checkMutable 0 (s.findRawString key) with
  | error e => exact .inl rfl
  | ok r => exact writesMutable_assign hc _

theorem setObject_cases (s : Storage) (type : BitVec 32) (key : Text) (object : Object) :
    (setObject type key object s).2 = s ∨ ∃ k node,
      checkMutable type (s.findRawString key) = .ok (k, node) ∧
      (setObject type key object s).2 = s.assign k { node with object := object } := by
  simp only [setObject, Run.bind_apply, findRawStringMutable]
  cases hc : checkMutable type (s.findRawString key) with
  | error e => exact .inl rfl
  | ok r => exact .inr ⟨r.1, r.2, rfl, rfl⟩

theorem listPushBack_cases (s : Storage) (key : Text) (object : Object) :
    (listPushBack key object s).2 = s ∨ ∃ k node items,
      checkMutable flagListType (s.findRawString key) = .ok (k, node) ∧
      node.object = .list items ∧
      (listPushBack key object s).2 =
        s.assign k { node with object := .list (items ++ [object]) } := by
  simp only [listPushBack, Run.bind_apply, findRawStringMutable]
  cases hc : checkMutable flagListType (s.findRawString key) with
  | error e => exact .inl rfl
  | ok r =>
    obtain ⟨k, node⟩ := r
    cases ho : node.object with
    | list items => exact .inr ⟨k, node, items, rfl, ho, by simp [ho, Run.modify]⟩
    | _ => exact .inl (by simp [ho, Run.ofExcept, inputError, Run.fail])

theorem setObject_writesMutable (s : Storage) (type : BitVec 32) (key : Text) (object : Object) :
    WritesMutable s (setObject type key object s).2 := by
  rcases setObject_cases s type key object with h | ⟨k, node, hc, h⟩
  · exact .inl (by rw [h])
  · rw [h]
    exact writesMutable_assign hc _

theorem listPushBack_writesMutable (s : Storage) (key : Text) (object : Object) :
    WritesMutable s (listPushBack key object s).2 := by
  rcases listPushBack_cases s key object with h | ⟨k, node, items, hc, -, h⟩
  · exact .inl (by rw [h])
  · rw [h]
    exact writesMutable_assign hc _

theorem eraseMultiKey_writesMutable (hs : WellFormed s) (key cmdKey : Text) :
    WritesMutable s (eraseMultiKey key cmdKey s).2 := by
  cases hc : checkMutable flagMultiType (s.findRawString key) with
  | error e => exact .inl (by rw [eraseMultiKey_error hc])
  | ok r =>
    obtain ⟨entries, hf⟩ := found_of_check hs hc
    exact .inr ⟨r.1, _, mutable_of_check hc, (eraseMultiKey_ok hf.object hc).entries⟩

theorem setMultiKeyObj_writesMutable (hs : WellFormed s) (key cmdKey : Text) (object : Object) :
    WritesMutable s (setMultiKeyObj key cmdKey object s).2 := by
  cases hobject : isCommandObject object with
  | false => exact .inl (by rw [setMultiKeyObj_wrong_type hobject])
  | true =>
    cases hc : checkMutable flagMultiType (s.findRawString key) with
    | error e => exact .inl (by rw [setMultiKeyObj_error hc])
    | ok r =>
      obtain ⟨entries, hf⟩ := found_of_check hs hc
      exact .inr ⟨r.1, _, mutable_of_check hc, (setMultiKeyObj_ok hobject hf.object hc).entries⟩

theorem rlookupClear_entries (hs : WellFormed s) (cmdKey : Text) (k : Key) :
    (rlookupClear cmdKey s).2.entries k =
      if k ∈ s.listed cmdKey then (s.entries k).map (cleared cmdKey) else s.entries k := by
  cases hr : s.rlookup cmdKey with
  | none =>
    have hl : s.listed cmdKey = [] := by rw [Storage.listed, hr, Option.getD_none]
    simp [rlookupClear, Run.bind_apply, Run.get, hr, hl, Run.pure_apply]
  | some keys =>
    have hl : s.listed cmdKey = keys := by rw [Storage.listed, hr, Option.getD_some]
    obtain ⟨t, ht, hc⟩ := clearEntries_spec cmdKey (hl ▸ listed_maps hs cmdKey)
    have hrun : (rlookupClear cmdKey s).2 = t.setListed cmdKey [] := by
      simp only [rlookupClear, Run.bind_apply, Run.get, hr, ht, Run.modify]
    rw [hrun, Storage.setListed_entries, hc.entries, hl]

theorem cleared_eq_self_iff (cmdKey : Text) (node : Node) :
    cleared cmdKey node = node ↔ hasKey cmdKey node.object = false := by
  constructor
  · intro h
    have hkey := (hasKey_cleared cmdKey cmdKey node).not.mpr (fun hk => hk.1 rfl)
    rw [h] at hkey
    exact Bool.eq_false_iff.mpr hkey
  · intro h
    obtain ⟨object, flags⟩ := node
    cases object with
    | map entries =>
      have hfilter : entries.filter (·.1 != cmdKey) = entries := by
        rw [List.filter_eq_self]
        intro entry he
        rw [hasKey, List.any_eq_false] at h
        simpa using h entry he
      simp only [cleared, eraseKey, hfilter]
    | _ => rfl

/-- A constant entry stays, with its flags, and gets no command key it did not have. -/
def LosesKeys (s t : Storage) : Prop :=
  ∀ k node, s.entries k = some node → isConstant node →
    ∃ node', t.entries k = some node' ∧ isConstant node' ∧
      ∀ cmdKey, hasKey cmdKey node'.object → hasKey cmdKey node.object

theorem LosesKeys.trans (h : LosesKeys s t) (h' : LosesKeys t u) : LosesKeys s u := by
  intro k node hk hc
  obtain ⟨node', hk', hc', hkeys⟩ := h k node hk hc
  obtain ⟨node'', hk'', hc'', hkeys'⟩ := h' k node' hk' hc'
  exact ⟨node'', hk'', hc'', fun cmdKey hkey => hkeys cmdKey (hkeys' cmdKey hkey)⟩

theorem Unchanged.losesKeys (h : Unchanged s t) : LosesKeys s t :=
  fun k node hk hc => ⟨node, h k node hk hc, hc, fun _ hkey => hkey⟩

theorem rlookupClear_losesKeys (hs : WellFormed s) (cmdKey : Text) :
    LosesKeys s (rlookupClear cmdKey s).2 := by
  intro k node hk hc
  rw [rlookupClear_entries hs, hk]
  split
  · refine ⟨cleared cmdKey node, rfl, ?_, ?_⟩
    · rw [isConstant, cleared_flags]
      exact hc
    · intro cmdKey' hkey
      exact ((hasKey_cleared cmdKey cmdKey' node).mp hkey).2
  · exact ⟨node, rfl, hc, fun _ hkey => hkey⟩

theorem rlookupClear_unchanged (hs : WellFormed s) {cmdKey : Text}
    (h : Spares s (.call (.rlookupClear cmdKey))) : Unchanged s (rlookupClear cmdKey s).2 := by
  intro k node hk hc
  rw [rlookupClear_entries hs, hk]
  split
  · rename_i hmem
    rw [Option.map_some, (cleared_eq_self_iff cmdKey node).mpr (h k hmem node hk hc)]
  · rfl

/-- An erased command key does not come back, so a later state shows the difference. -/
theorem spares_of_unchanged (hs : WellFormed s) {cmdKey : Text}
    (hlater : LosesKeys (rlookupClear cmdKey s).2 u) (h : Unchanged s u) :
    Spares s (.call (.rlookupClear cmdKey)) := by
  intro k hmem node hk hc
  have hcleared : (rlookupClear cmdKey s).2.entries k = some (cleared cmdKey node) := by
    rw [rlookupClear_entries hs, if_pos hmem, hk, Option.map_some]
  have hcc : isConstant (cleared cmdKey node) = true := by
    rw [isConstant, cleared_flags]
    exact hc
  obtain ⟨node', hk', -, hkeys⟩ := hlater k _ hcleared hcc
  rw [h k node hk hc] at hk'
  cases hk'
  by_contra hkey
  have hback := hkeys cmdKey (Bool.not_eq_false _ |>.mp hkey)
  exact ((hasKey_cleared cmdKey cmdKey node).mp hback).1 rfl

theorem assign_wellFormed (hs : WellFormed s) {node' : Node}
    (hk : s.entries k = some node) (hflags : node'.flags = node.flags)
    (hobject : node.flags &&& maskType ≠ flagMultiType) : WellFormed (s.assign k node') := by
  constructor
  · intro k' n hn
    rw [Storage.assign_entries] at hn
    split at hn
    · rename_i he
      exact he ▸ hs.stored k node hk
    · exact hs.stored k' n hn
  · intro k' n hn ht
    rw [Storage.assign_entries] at hn
    split at hn
    · cases hn
      exact absurd (hflags ▸ ht) hobject
    · exact hs.maps k' n hn ht
  · intro cmdKey k' hk'
    rw [Storage.assign_entries]
    obtain ⟨n, hn, ht⟩ := hs.known cmdKey k' hk'
    split
    · rename_i he
      rw [he, hk] at hn
      cases hn
      exact ⟨node', rfl, hflags ▸ ht⟩
    · exact ⟨n, hn, ht⟩

theorem entry_of_check {key : Text}
    (h : checkMutable type (s.findRawString key) = .ok (k, node)) (ht : type ≠ 0) :
    s.entries k = some node ∧ node.flags &&& maskType = type :=
  ⟨(findRawString_some (checkMutable_ok h).1).2, (checkMutable_ok h).2.1 ht⟩

theorem setObject_wellFormed (hs : WellFormed s) (h0 : type ≠ 0)
    (hm : type ≠ flagMultiType) (key : Text) (object : Object) :
    WellFormed (setObject type key object s).2 := by
  rcases setObject_cases s type key object with h | ⟨k, node, hc, h⟩
  · rwa [h]
  · obtain ⟨hk, ht⟩ := entry_of_check hc h0
    rw [h]
    exact assign_wellFormed hs hk rfl (ht ▸ hm)

theorem listPushBack_wellFormed (hs : WellFormed s) (key : Text) (object : Object) :
    WellFormed (listPushBack key object s).2 := by
  rcases listPushBack_cases s key object with h | ⟨k, node, items, hc, -, h⟩
  · rwa [h]
  · obtain ⟨hk, ht⟩ := entry_of_check hc (by decide)
    rw [h]
    exact assign_wellFormed hs hk rfl (ht ▸ by decide)

theorem access_wellFormed (hs : WellFormed s) (a : Access) : WellFormed (a.next s) := by
  cases a with
  | call c => exact next_wellFormed hs c
  | setBool key object => exact setObject_wellFormed hs (by decide) (by decide) key _
  | setValue key object => exact setObject_wellFormed hs (by decide) (by decide) key _
  | setString key object => exact setObject_wellFormed hs (by decide) (by decide) key _
  | setList key object => exact setObject_wellFormed hs (by decide) (by decide) key _
  | setFunction key object => exact setObject_wellFormed hs (by decide) (by decide) key _
  | listPushBack key object => exact listPushBack_wellFormed hs key object

theorem access_cases (hs : WellFormed s) (a : Access) :
    (WritesMutable s (a.next s) ∧ Spares s a) ∨ ∃ cmdKey, a = .call (.rlookupClear cmdKey) := by
  cases a with
  | call c =>
    cases c with
    | insert key rawObject flags =>
      exact .inl ⟨insert_writesMutable s key rawObject flags, trivial⟩
    | setMultiKeyObj key cmdKey object =>
      exact .inl ⟨setMultiKeyObj_writesMutable hs key cmdKey object, trivial⟩
    | eraseMultiKey key cmdKey => exact .inl ⟨eraseMultiKey_writesMutable hs key cmdKey, trivial⟩
    | enableFlag key flag => exact .inl ⟨enableFlag_writesMutable s key flag, trivial⟩
    | rlookupClear cmdKey => exact .inr ⟨cmdKey, rfl⟩
  | setBool key object => exact .inl ⟨setObject_writesMutable s _ key _, trivial⟩
  | setValue key object => exact .inl ⟨setObject_writesMutable s _ key _, trivial⟩
  | setString key object => exact .inl ⟨setObject_writesMutable s _ key _, trivial⟩
  | setList key object => exact .inl ⟨setObject_writesMutable s _ key _, trivial⟩
  | setFunction key object => exact .inl ⟨setObject_writesMutable s _ key _, trivial⟩
  | listPushBack key object => exact .inl ⟨listPushBack_writesMutable s key object, trivial⟩

theorem access_losesKeys (hs : WellFormed s) (a : Access) : LosesKeys s (a.next s) := by
  rcases access_cases hs a with ⟨h, -⟩ | ⟨cmdKey, rfl⟩
  · exact h.unchanged.losesKeys
  · exact rlookupClear_losesKeys hs cmdKey

theorem access_unchanged (hs : WellFormed s) {a : Access} (h : Spares s a) :
    Unchanged s (a.next s) := by
  rcases access_cases hs a with ⟨hw, -⟩ | ⟨cmdKey, rfl⟩
  · exact hw.unchanged
  · exact rlookupClear_unchanged hs h

theorem access_spares (hs : WellFormed s) {a : Access} (hlater : LosesKeys (a.next s) u)
    (h : Unchanged s u) : Spares s a := by
  rcases access_cases hs a with ⟨-, hspares⟩ | ⟨cmdKey, rfl⟩
  · exact hspares
  · exact spares_of_unchanged hs hlater h

theorem replay_losesKeys (hs : WellFormed s) (accesses : List Access) :
    LosesKeys s (accessMachine.replay s accesses) := by
  induction accesses generalizing s with
  | nil => exact (Unchanged.refl s).losesKeys
  | cons a accesses ih => exact (access_losesKeys hs a).trans (ih (access_wellFormed hs a))

theorem kept_cons_iff (hs : WellFormed s) (a : Access) (accesses : List Access) :
    Kept s (a :: accesses) ↔ Spares s a ∧ Kept (a.next s) accesses := by
  constructor
  · intro h
    refine ⟨?_, ?_⟩
    · exact access_spares hs (replay_losesKeys (access_wellFormed hs a) accesses) (h [] _ rfl)
    · intro before after he
      exact h (a :: before) after (by rw [he, List.cons_append])
  · rintro ⟨hspares, h⟩ before after he
    cases before with
    | nil => exact (access_unchanged hs hspares).trans (h [] accesses rfl)
    | cons b before =>
      obtain ⟨rfl, htail⟩ := List.cons.inj he
      exact h before after htail

theorem kept_iff (hs : WellFormed s) (accesses : List Access) :
    Kept s accesses ↔ (accessMachine.guarded Spares).Accepts s accesses := by
  induction accesses generalizing s with
  | nil =>
    refine iff_of_true ?_ trivial
    intro before after he
    obtain ⟨rfl, -⟩ := List.append_eq_nil_iff.mp he.symm
    exact Unchanged.refl _
  | cons a accesses ih =>
    rw [kept_cons_iff hs, ih (access_wellFormed hs a)]
    exact and_congr_left' (and_iff_left trivial).symm

/-- From any state the storage can be in, a run of public operations leaves every constant
entry as it is just when no `rlookup_clear` of it finds the command key in a listed one. -/
theorem constants_kept_iff (s : Storage) (h : Reachable accessMachine.system .empty s)
    (operations : List Operation) :
    Kept s (writesAll s operations) ↔
      (accessMachine.guarded Spares).Accepts s (writesAll s operations) := by
  have hs : WellFormed s := by
    apply h.invariant empty_wellFormed
    rintro s a t hs ⟨-, rfl⟩
    exact access_wellFormed hs a
  exact kept_iff hs _

def constantEvent : List Access :=
  [.call (.insert "event".toList .none (flagMultiType ||| flagStatic ||| flagRlookup)),
    .call (.setMultiKeyObj "event".toList "handler".toList (.string "print=".toList)),
    .call (.enableFlag "event".toList flagConstant)]

/-- Calling the event, whose handler tries to write to it, changes nothing. -/
theorem constantEvent_kept :
    let s := accessMachine.replay .empty constantEvent
    Kept s (writesAll s [.callFunction "event".toList
      [.access (.call (.eraseMultiKey "event".toList "handler".toList))]]) := by
  have hreach : (accessMachine).Accepts .empty constantEvent := by simp [constantEvent,
    Machine.Accepts, accessMachine]
  refine (constants_kept_iff _ ⟨_, hreach.execution⟩ _).mpr ?_
  exact ⟨⟨trivial, trivial⟩, trivial⟩

/-- Clearing the handler's key takes it out of the constant event. -/
theorem constantEvent_cleared :
    let k : Key := .setData "event".toList
    let s := accessMachine.replay .empty constantEvent
    let t := accessMachine.replay s
      (writesAll s [.access (.call (.rlookupClear "handler".toList))])
    (s.entries k).map (fun node => (isConstant node, hasKey "handler".toList node.object)) =
        some (true, true) ∧
      (t.entries k).map (fun node => (isConstant node, hasKey "handler".toList node.object)) =
        some (true, false) := by
  decide

end

end ObjectStorageConstants
