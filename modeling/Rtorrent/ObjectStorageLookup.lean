import Rtorrent.ObjectStorage

/-! # The reverse lookup of command keys -/
namespace ObjectStorageLookup

open FallibleRuns RpcTextParser RpcCommandMap ObjectStorage TransitionSystems

/-- An entry with `flag_rlookup` is listed once under each command key of its map, and
under no other. -/
def Indexed (s : Storage) : Prop :=
  ∀ k node, s.entries k = some node → hasFlag node.flags flagRlookup →
    ∀ cmdKey, (hasKey cmdKey node.object ↔ k ∈ s.listed cmdKey) ∧ (s.listed cmdKey).count k ≤ 1

structure WellFormed (s : Storage) : Prop where
  stored : ∀ k node, s.entries k = some node → '\x00' ∉ k.data ∧ k.data.length < 63
  maps : ∀ k node, s.entries k = some node → node.flags &&& maskType = flagMultiType →
    ∃ entries, node.object = .map entries
  known : ∀ cmdKey, ∀ k ∈ s.listed cmdKey, ∃ node, s.entries k = some node ∧
    node.flags &&& maskType = flagMultiType

theorem set_last {α : Type} (front : List α) (x : α) (i : ℕ) (h : i < (front ++ [x]).length) :
    ∃ rest, (front ++ [x]).set i x = rest ++ [x] := by
  rcases Nat.lt_or_ge i front.length with hi | hi
  · exact ⟨front.set i x, List.set_append_left i x hi⟩
  · rw [List.length_append, List.length_singleton] at h
    obtain rfl : i = front.length := by omega
    exact ⟨front, by rw [List.set_append_right _ _ hi, Nat.sub_self, List.set_cons_zero]⟩

theorem perm_unorderedErase {α : Type} {items : List α} {i : ℕ} (h : i < items.length) :
    items.Perm (items[i] :: unorderedErase items i) := by
  rcases List.eq_nil_or_concat' items with rfl | ⟨front, x, rfl⟩
  · cases h
  rcases set_last front x i h with ⟨rest, hrest⟩
  have herase : unorderedErase (front ++ [x]) i = rest := by
    rw [unorderedErase, List.getLast?_concat]
    simp only [hrest, List.dropLast_concat]
  have hperm : rest.Perm ((front ++ [x]).eraseIdx i) := by
    rw [← List.perm_cons x]
    have hset := List.set_perm_cons_eraseIdx h x
    rw [hrest] at hset
    exact (List.perm_append_singleton x rest).symm.trans hset
  rw [herase]
  exact (List.getElem_cons_eraseIdx_perm h).symm.trans (hperm.symm.cons _)

def NulFree (keys : List Key) : Prop := ∀ k ∈ keys, '\x00' ∉ k.data

theorem relist_self (k : Key) (keys : List Key) :
    relist k.data k keys = if k ∈ keys then keys else keys ++ [k] := by
  have hall : (keys.all fun k' => k'.data != k.data) = true ↔ k ∉ keys := by
    simp only [List.all_eq_true, bne_iff_ne]
    constructor
    · intro h hk
      exact h k hk rfl
    · intro h k' hk' he
      exact h (FixedKey.ext he ▸ hk')
  rw [relist]
  by_cases hk : k ∈ keys
  · rw [if_pos hk, if_neg (fun h => hall.mp h hk)]
  · rw [if_neg hk, if_pos (hall.mpr hk)]

variable {key : Text} {keys : List Key}

theorem relist_nul (h : NulFree keys) (hkey : '\x00' ∈ key)
    (k : Key) : relist key k keys = keys ++ [k] := by
  rw [relist, if_pos]
  simp only [List.all_eq_true, bne_iff_ne]
  intro k' hk' he
  exact h k' hk' (he ▸ hkey)

theorem unlist_of_forall_ne (h : ∀ k ∈ keys, k.data ≠ key) : unlist key keys = keys := by
  have hnone : keys.findIdx? (fun k => k.data == key) = none := by
    rw [List.findIdx?_eq_none_iff]
    intro k hk
    simpa using h k hk
  rw [unlist, hnone]

variable {k : Key}

theorem perm_unlist_self (h : k ∈ keys) : keys.Perm (k :: unlist k.data keys) := by
  rw [unlist]
  split
  · rename_i hnone
    rw [List.findIdx?_eq_none_iff] at hnone
    simpa using hnone k h
  · rename_i i hi
    rw [List.findIdx?_eq_some_iff_getElem] at hi
    rcases hi with ⟨hlt, hk, -⟩
    have hi : keys[i] = k := FixedKey.ext (by simpa using hk)
    have hperm := perm_unorderedErase hlt
    rwa [hi] at hperm

/-- A raw string either is the key of the entry it finds or has a nul byte. -/
def Names (key : Text) (k : Key) : Prop := '\x00' ∉ key → k.data = key

theorem unlist_nul (h : NulFree keys) (hkey : '\x00' ∈ key) : unlist key keys = keys := by
  apply unlist_of_forall_ne
  intro k hk he
  exact h k hk (he ▸ hkey)

theorem unlist_self_of_not_mem (h : k ∉ keys) : unlist k.data keys = keys := by
  apply unlist_of_forall_ne
  intro k' hk' he
  exact h (FixedKey.ext he ▸ hk')

theorem count_unlist {k' : Key} (hf : NulFree keys)
    (hn : Names key k) (h : k' ≠ k) : (unlist key keys).count k' = keys.count k' := by
  by_cases hnul : '\x00' ∈ key
  · rw [unlist_nul hf hnul]
  · rw [← hn hnul]
    by_cases hk : k ∈ keys
    · rw [(perm_unlist_self hk).count_eq, List.count_cons_of_ne h.symm]
    · rw [unlist_self_of_not_mem hk]

theorem mem_unlist_iff (hf : NulFree keys) (hn : Names key k) (h : keys.count k ≤ 1) :
    k ∈ unlist key keys ↔ '\x00' ∈ key ∧ k ∈ keys := by
  by_cases hnul : '\x00' ∈ key
  · rw [unlist_nul hf hnul, and_iff_right hnul]
  · apply iff_of_false _ (fun h => hnul h.1)
    rw [← hn hnul]
    by_cases hk : k ∈ keys
    · rw [(perm_unlist_self hk).count_eq, List.count_cons_self] at h
      rw [← List.count_eq_zero]
      omega
    · rw [unlist_self_of_not_mem hk]
      exact hk

theorem count_unlist_le (hf : NulFree keys)
    (hn : Names key k) (h : keys.count k ≤ 1) : (unlist key keys).count k ≤ 1 := by
  by_cases hk : k ∈ unlist key keys
  · rwa [unlist_nul hf ((mem_unlist_iff hf hn h).mp hk).1]
  · rw [List.count_eq_zero.mpr hk]
    exact Nat.zero_le 1

theorem count_relist {k' : Key} (h : k' ≠ k) : (relist key k keys).count k' = keys.count k' := by
  rw [relist]
  split
  · rw [List.count_append, List.count_singleton, if_neg (by simpa using h.symm), Nat.add_zero]
  · rfl

theorem relist_once_iff (hf : NulFree keys) (hn : Names key k) (h : keys.count k ≤ 1) :
    k ∈ relist key k keys ∧ (relist key k keys).count k ≤ 1 ↔ ¬('\x00' ∈ key ∧ k ∈ keys) := by
  by_cases hnul : '\x00' ∈ key
  · rw [relist_nul hf hnul, and_iff_right hnul, List.count_append, List.count_singleton_self,
      ← List.count_eq_zero]
    simp
  · apply iff_of_true _ (fun h => hnul h.1)
    rw [← hn hnul, relist_self]
    split
    · rename_i hk
      exact ⟨hk, h⟩
    · rename_i hk
      simp [List.count_eq_zero.mpr hk]

/-- Only the object of the entry `k` and what is listed under `cmdKey` differ. -/
structure Rewritten (s t : Storage) (k : Key) (node : Node) (cmdKey : Text) (keys : List Key) :
    Prop where
  entries : ∀ k', t.entries k' = if k' = k then some node else s.entries k'
  listed : ∀ cmdKey', t.listed cmdKey' = if cmdKey' = cmdKey then keys else s.listed cmdKey'

variable {s : Storage} {node : Node} {object : Object} {cmdKey : Text} {t : Storage}

theorem rewritten_indexed_iff (hs : Indexed s) (hk : s.entries k = some node)
    (h : Rewritten s t k { node with object := object } cmdKey keys)
    (hothers : ∀ k' ≠ k, keys.count k' = (s.listed cmdKey).count k')
    (hkeys : ∀ cmdKey' ≠ cmdKey, hasKey cmdKey' object ↔ hasKey cmdKey' node.object) :
    Indexed t ↔ (hasFlag node.flags flagRlookup →
      (hasKey cmdKey object ↔ k ∈ keys) ∧ keys.count k ≤ 1) := by
  constructor
  · intro ht hflag
    have hself := ht k { node with object := object } (by rw [h.entries, if_pos rfl]) hflag cmdKey
    rwa [h.listed, if_pos rfl] at hself
  · intro hself k' node' hk' hflag cmdKey'
    rw [h.entries] at hk'
    rw [h.listed]
    by_cases hkk : k' = k
    · rw [if_pos hkk] at hk'
      cases hk'
      subst hkk
      by_cases hc : cmdKey' = cmdKey
      · rw [if_pos hc, hc]
        exact hself hflag
      · rw [if_neg hc, hkeys cmdKey' hc]
        exact hs k' node hk hflag cmdKey'
    · rw [if_neg hkk] at hk'
      by_cases hc : cmdKey' = cmdKey
      · rw [if_pos hc, hc, ← List.count_pos_iff, hothers k' hkk, List.count_pos_iff]
        exact hs k' node' hk' hflag cmdKey
      · rw [if_neg hc]
        exact hs k' node' hk' hflag cmdKey'

variable {entries : List (Text × Object)}

theorem rewritten_wellFormed (hs : WellFormed s)
    (hk : s.entries k = some node) (htype : node.flags &&& maskType = flagMultiType)
    (h : Rewritten s t k { node with object := .map entries } cmdKey keys)
    (hkeys : ∀ k' ∈ keys, k' = k ∨ k' ∈ s.listed cmdKey) : WellFormed t := by
  constructor
  · intro k' node' hk'
    rw [h.entries] at hk'
    split at hk'
    · rename_i he
      exact he ▸ hs.stored k node hk
    · exact hs.stored k' node' hk'
  · intro k' node' hk' ht
    rw [h.entries] at hk'
    split at hk'
    · cases hk'
      exact ⟨entries, rfl⟩
    · exact hs.maps k' node' hk' ht
  · intro cmdKey' k' hk'
    rw [h.listed] at hk'
    rw [h.entries]
    split
    · exact ⟨_, rfl, htype⟩
    · rename_i hne
      split at hk'
      · exact hs.known cmdKey k' ((hkeys k' hk').resolve_left hne)
      · exact hs.known cmdKey' k' hk'

variable {e : Failure}

theorem eraseMultiKey_error (h : checkMutable flagMultiType (s.findRawString key) = .error e) :
    (eraseMultiKey key cmdKey s).2 = s := by
  simp only [eraseMultiKey, Run.bind_apply, findRawStringMutable, h]

theorem rewritten_assign (s : Storage) (k : Key) (node : Node) (cmdKey : Text) :
    Rewritten s (s.assign k node) k node cmdKey (s.listed cmdKey) := by
  constructor
  · intro k'
    exact s.assign_entries k k' node
  · intro cmdKey'
    split
    · rename_i h
      rw [h, Storage.assign_listed]
    · rfl

theorem rewritten_setListed (s : Storage) (k : Key) (node : Node) (cmdKey : Text)
    (keys : List Key) :
    Rewritten s ((s.assign k node).setListed cmdKey keys) k node cmdKey keys := by
  constructor
  · intro k'
    exact s.assign_entries k k' node
  · intro cmdKey'
    exact (s.assign k node).setListed_listed cmdKey cmdKey' keys

theorem eraseMultiKey_ok (ho : node.object = .map entries)
    (h : checkMutable flagMultiType (s.findRawString key) = .ok (k, node)) :
    Rewritten s (eraseMultiKey key cmdKey s).2 k
      { node with object := .map (entries.filter (·.1 != cmdKey)) } cmdKey
      (if hasFlag node.flags flagRlookup then unlist key (s.listed cmdKey)
        else s.listed cmdKey) := by
  simp only [eraseMultiKey, Run.bind_apply, findRawStringMutable, h, ho, eraseKey, Run.ofExcept,
    Run.pure_apply, Run.modify]
  cases hasFlag node.flags flagRlookup with
  | false => exact rewritten_assign s k _ cmdKey
  | true =>
    simp only [Bool.not_true, Bool.false_eq_true, if_false, Run.bind_apply, Run.get,
      Storage.assign_rlookup, if_true, Storage.listed]
    cases hlist : s.rlookup cmdKey with
    | none =>
      have hr := rewritten_assign s k
        { node with object := .map (entries.filter (·.1 != cmdKey)) } cmdKey
      rwa [Storage.listed, hlist] at hr
    | some keys => exact rewritten_setListed s k _ cmdKey _

theorem setMultiKeyObj_error (h : checkMutable flagMultiType (s.findRawString key) = .error e) :
    (setMultiKeyObj key cmdKey object s).2 = s := by
  simp only [setMultiKeyObj]
  split
  · rfl
  · simp only [Run.bind_apply, findRawStringMutable, h]

theorem setMultiKeyObj_wrong_type (h : isCommandObject object = false)
    (s : Storage) (key cmdKey : Text) : (setMultiKeyObj key cmdKey object s).2 = s := by
  simp only [setMultiKeyObj, h]
  rfl

theorem setMultiKeyObj_ok (hobject : isCommandObject object = true)
    (ho : node.object = .map entries)
    (h : checkMutable flagMultiType (s.findRawString key) = .ok (k, node)) :
    Rewritten s (setMultiKeyObj key cmdKey object s).2 k
      { node with object := .map (insertEntry cmdKey object entries) } cmdKey
      (if hasFlag node.flags flagRlookup then relist key k (s.listed cmdKey)
        else s.listed cmdKey) := by
  simp only [setMultiKeyObj, hobject, Bool.not_true, Bool.false_eq_true, if_false,
    Run.bind_apply, findRawStringMutable, h, ho, insertKey, Run.ofExcept, Run.pure_apply,
    Run.modify]
  cases hasFlag node.flags flagRlookup with
  | false => exact rewritten_assign s k _ cmdKey
  | true => exact rewritten_setListed s k _ cmdKey _

/-- The entry found with the key up to a nul byte can be changed, has `flag_rlookup` and holds the
command key. -/
def Mismatch (s : Storage) (key cmdKey : Text) : Prop :=
  '\x00' ∈ key ∧ ∃ k node, checkMutable flagMultiType (s.findRawString key) = .ok (k, node) ∧
    hasFlag node.flags flagRlookup ∧ hasKey cmdKey node.object

def Exact (s : Storage) : Call → Prop
  | .setMultiKeyObj key cmdKey object => isCommandObject object → ¬ Mismatch s key cmdKey
  | .eraseMultiKey key cmdKey => ¬ Mismatch s key cmdKey
  | _ => True

/-- What a call to change a multi-command entry has found. -/
structure Found (s : Storage) (key : Text) (k : Key) (node : Node)
    (entries : List (Text × Object)) : Prop where
  entry : s.entries k = some node
  object : node.object = .map entries
  type : node.flags &&& maskType = flagMultiType
  names : Names key k

theorem found_of_check (hs : WellFormed s)
    (h : checkMutable flagMultiType (s.findRawString key) = .ok (k, node)) :
    ∃ entries, Found s key k node entries := by
  rcases checkMutable_ok h with ⟨hfind, htype, -⟩
  rcases findRawString_some hfind with ⟨hk, hentry⟩
  have htype := htype (by decide)
  rcases hs.maps k node hentry htype with ⟨entries, ho⟩
  refine ⟨entries, hentry, ho, htype, ?_⟩
  intro hnul
  have hlen := (hs.stored k node hentry).2
  rw [hk, FixedKey.setCStr_data hnul] at hlen ⊢
  rw [List.length_take] at hlen
  exact List.take_of_length_le (by omega)

theorem nulFree_listed (hs : WellFormed s) (cmdKey : Text) : NulFree (s.listed cmdKey) := by
  intro k hk
  rcases hs.known cmdKey k hk with ⟨node, hnode, -⟩
  exact (hs.stored k node hnode).1

theorem mismatch_iff (h : checkMutable flagMultiType (s.findRawString key) = .ok (k, node)) :
    Mismatch s key cmdKey ↔
      '\x00' ∈ key ∧ hasFlag node.flags flagRlookup ∧ hasKey cmdKey node.object := by
  constructor
  · rintro ⟨hnul, k', node', hc, hflag, hkey⟩
    rw [h] at hc
    cases hc
    exact ⟨hnul, hflag, hkey⟩
  · rintro ⟨hnul, hflag, hkey⟩
    exact ⟨hnul, k, node, h, hflag, hkey⟩

theorem not_mismatch_of_error (h : checkMutable flagMultiType (s.findRawString key) = .error e) :
    ¬ Mismatch s key cmdKey := by
  rintro ⟨-, k, node, hc, -⟩
  rw [h] at hc
  cases hc

theorem eraseMultiKey_indexed_iff (hs : WellFormed s) (hi : Indexed s) (key cmdKey : Text) :
    Indexed (eraseMultiKey key cmdKey s).2 ↔ ¬ Mismatch s key cmdKey := by
  cases hc : checkMutable flagMultiType (s.findRawString key) with
  | error e =>
    rw [eraseMultiKey_error hc]
    exact iff_of_true hi (not_mismatch_of_error hc)
  | ok r =>
    rcases found_of_check hs hc with ⟨entries, hf⟩
    have hl := nulFree_listed hs cmdKey
    have hgone : ¬ hasKey cmdKey (.map (entries.filter (·.1 != cmdKey))) := by
      rw [hasKey_eraseKey]
      exact fun h => h.1 rfl
    rw [mismatch_iff hc, rewritten_indexed_iff hi hf.entry (eraseMultiKey_ok hf.object hc)]
    · cases hflag : hasFlag r.2.flags flagRlookup with
      | false => simp
      | true =>
        have ⟨hkey, hcount⟩ := hi _ _ hf.entry hflag cmdKey
        have hmem := mem_unlist_iff hl hf.names hcount
        have hle := count_unlist_le hl hf.names hcount
        simp only [if_true, true_implies, true_and, hkey, hmem, hle, and_true]
        exact iff_false_left hgone
    · intro k' hne
      split
      · exact count_unlist hl hf.names hne
      · rfl
    · intro cmdKey' hne
      rw [hf.object, hasKey_eraseKey]
      exact and_iff_right hne.symm

theorem setMultiKeyObj_indexed_iff (hs : WellFormed s) (hi : Indexed s)
    (key cmdKey : Text) (object : Object) :
    Indexed (setMultiKeyObj key cmdKey object s).2 ↔
      (isCommandObject object → ¬ Mismatch s key cmdKey) := by
  cases hobject : isCommandObject object with
  | false =>
    rw [setMultiKeyObj_wrong_type hobject]
    exact iff_of_true hi (fun h => Bool.noConfusion h)
  | true =>
    cases hc : checkMutable flagMultiType (s.findRawString key) with
    | error e =>
      rw [setMultiKeyObj_error hc]
      exact iff_of_true hi (fun _ => not_mismatch_of_error hc)
    | ok r =>
      rcases found_of_check hs hc with ⟨entries, hf⟩
      have hthere : hasKey cmdKey (.map (insertEntry cmdKey object entries)) := by
        rw [hasKey_insertEntry]
        exact .inl rfl
      rw [imp_iff_right rfl, mismatch_iff hc,
        rewritten_indexed_iff hi hf.entry (setMultiKeyObj_ok hobject hf.object hc)]
      · cases hflag : hasFlag r.2.flags flagRlookup with
        | false => simp
        | true =>
          have ⟨hkey, hcount⟩ := hi _ _ hf.entry hflag cmdKey
          have honce := relist_once_iff (nulFree_listed hs cmdKey) hf.names hcount
          simp only [if_true, true_implies, true_and, hkey, hthere, true_iff]
          exact honce
      · intro k' hne
        split
        · exact count_relist hne
        · rfl
      · intro cmdKey' hne
        rw [hf.object, hasKey_insertEntry]
        exact or_iff_right hne.symm

theorem and_enabled {mask : BitVec 32} (h : flagConstant &&& mask = 0) (flags flag : BitVec 32) :
    (flags ||| (flag &&& flagConstant)) &&& mask = flags &&& mask := by
  rw [BitVec.and_or_distrib_right, BitVec.and_assoc, h]
  simp

theorem enableFlag_cases (s : Storage) (key : Text) (flag : BitVec 32) :
    (enableFlag key flag s).2 = s ∨ ∃ k node, s.entries k = some node ∧
      (enableFlag key flag s).2 =
        s.assign k { node with flags := node.flags ||| (flag &&& flagConstant) } := by
  simp only [enableFlag, Run.bind_apply, findRawStringMutable]
  cases hc : checkMutable 0 (s.findRawString key) with
  | error e => exact .inl rfl
  | ok r => exact .inr ⟨r.1, r.2, (findRawString_some (checkMutable_ok hc).1).2, rfl⟩

theorem enableFlag_indexed (hi : Indexed s) (key : Text) (flag : BitVec 32) :
    Indexed (enableFlag key flag s).2 := by
  rcases enableFlag_cases s key flag with h | ⟨k, node, hk, h⟩
  · rwa [h]
  rw [h]
  intro k' node' hk' hflag
  rw [Storage.assign_entries] at hk'
  split at hk'
  · rename_i he
    cases hk'
    rw [hasFlag, and_enabled (by decide)] at hflag
    exact hi k' node (he ▸ hk) hflag
  · exact hi k' node' hk' hflag

theorem enableFlag_wellFormed (hs : WellFormed s) (key : Text) (flag : BitVec 32) :
    WellFormed (enableFlag key flag s).2 := by
  rcases enableFlag_cases s key flag with h | ⟨k, node, hk, h⟩
  · rwa [h]
  rw [h]
  constructor
  · intro k' node' hk'
    rw [Storage.assign_entries] at hk'
    split at hk'
    · rename_i he
      exact he ▸ hs.stored k node hk
    · exact hs.stored k' node' hk'
  · intro k' node' hk' ht
    rw [Storage.assign_entries] at hk'
    split at hk'
    · cases hk'
      rw [and_enabled (by decide)] at ht
      exact hs.maps k node hk ht
    · exact hs.maps k' node' hk' ht
  · intro cmdKey k' hk'
    rcases hs.known cmdKey k' hk' with ⟨node', hnode', ht⟩
    rw [Storage.assign_entries]
    split
    · rename_i he
      rw [he, hk] at hnode'
      cases hnode'
      exact ⟨_, rfl, by rw [and_enabled (by decide), ht]⟩
    · exact ⟨node', hnode', ht⟩

theorem type_ne_of_multi {flags type : BitVec 32} (h : hasFlag flags flagMultiType)
    (ht : type &&& flagMultiType = 0) : flags &&& maskType ≠ type := by
  intro he
  have hz : flags &&& flagMultiType = 0 := by
    have hm : maskType &&& flagMultiType = flagMultiType := by decide
    rw [← hm, ← BitVec.and_assoc, he, ht]
  rw [hasFlag, hz] at h
  cases h

theorem initialObject_multi {rawObject : Object} {flags : BitVec 32}
    (h : initialObject rawObject flags = .ok object) (hm : hasFlag flags flagMultiType) :
    object = .map [] ∨ object = .none := by
  rw [initialObject, if_neg (type_ne_of_multi hm (by decide)),
    if_neg (type_ne_of_multi hm (by decide)), if_neg (type_ne_of_multi hm (by decide)),
    if_neg (type_ne_of_multi hm (by decide)), if_neg (type_ne_of_multi hm (by decide))] at h
  split at h
  · exact .inl (Except.ok.inj h).symm
  · exact .inr (Except.ok.inj h).symm

theorem not_listed_of_none (hs : WellFormed s) (h : s.entries k = none)
    (cmdKey : Text) : k ∉ s.listed cmdKey := by
  intro hk
  rcases hs.known cmdKey k hk with ⟨node, hnode, -⟩
  rw [h] at hnode
  cases hnode

theorem insert_indexed (hs : WellFormed s) (hi : Indexed s) (key : Text)
    (rawObject : Object) (flags : BitVec 32) :
    Indexed (ObjectStorage.insert key rawObject flags s).2 := by
  rcases insert_cases key rawObject flags s with ⟨e, he⟩ | ⟨object, h, -, hobject, hm, hnone⟩
  · rwa [he]
  rw [h]
  intro k node hk hflag cmdKey
  rw [Storage.assign_entries] at hk
  split at hk
  · rename_i he
    cases hk
    have hout : k ∉ s.listed cmdKey := he ▸ not_listed_of_none hs hnone cmdKey
    constructor
    · apply iff_of_false _ hout
      rcases initialObject_multi hobject (hm hflag) with rfl | rfl <;> exact Bool.false_ne_true
    · rw [Storage.assign_listed, List.count_eq_zero.mpr hout]
      exact Nat.zero_le 1
  · exact hi k node hk hflag cmdKey

theorem insert_wellFormed (hs : WellFormed s) (key : Text) (rawObject : Object)
    (flags : BitVec 32) : WellFormed (ObjectStorage.insert key rawObject flags s).2 := by
  rcases insert_cases key rawObject flags s with ⟨e, he⟩ | ⟨object, h, hnul, hobject, -, hnone⟩
  · rwa [he]
  rw [h]
  constructor
  · intro k node hk
    rw [Storage.assign_entries] at hk
    split at hk
    · rename_i he
      rw [he]
      exact ⟨fun hc => hnul (FixedKey.mem_setData hc), FixedKey.setData_length key (by decide)⟩
    · exact hs.stored k node hk
  · intro k node hk ht
    rw [Storage.assign_entries] at hk
    split at hk
    · cases hk
      have ht : flags &&& maskType = flagMultiType := ht
      simp only [initialObject, ht] at hobject
      exact ⟨[], (Except.ok.inj hobject).symm⟩
    · exact hs.maps k node hk ht
  · intro cmdKey k hk
    rw [Storage.assign_entries, if_neg]
    · exact hs.known cmdKey k hk
    · intro he
      exact not_listed_of_none hs hnone cmdKey (he ▸ hk)

theorem eraseMultiKey_wellFormed (hs : WellFormed s) (key cmdKey : Text) :
    WellFormed (eraseMultiKey key cmdKey s).2 := by
  cases hc : checkMutable flagMultiType (s.findRawString key) with
  | error e => rwa [eraseMultiKey_error hc]
  | ok r =>
    rcases found_of_check hs hc with ⟨entries, hf⟩
    apply rewritten_wellFormed hs hf.entry hf.type (eraseMultiKey_ok hf.object hc)
    intro k' hk'
    split at hk'
    · by_cases hkk : k' = r.1
      · exact .inl hkk
      · right
        rwa [← List.count_pos_iff, count_unlist (nulFree_listed hs cmdKey) hf.names hkk,
          List.count_pos_iff] at hk'
    · exact .inr hk'

theorem setMultiKeyObj_wellFormed (hs : WellFormed s) (key cmdKey : Text)
    (object : Object) : WellFormed (setMultiKeyObj key cmdKey object s).2 := by
  cases hobject : isCommandObject object with
  | false => rwa [setMultiKeyObj_wrong_type hobject]
  | true =>
    cases hc : checkMutable flagMultiType (s.findRawString key) with
    | error e => rwa [setMultiKeyObj_error hc]
    | ok r =>
      rcases found_of_check hs hc with ⟨entries, hf⟩
      apply rewritten_wellFormed hs hf.entry hf.type (setMultiKeyObj_ok hobject hf.object hc)
      intro k' hk'
      split at hk'
      · by_cases hkk : k' = r.1
        · exact .inl hkk
        · right
          rwa [← List.count_pos_iff, count_relist hkk, List.count_pos_iff] at hk'
      · exact .inr hk'

def cleared (cmdKey : Text) (node : Node) : Node :=
  match eraseKey cmdKey node.object with
  | .ok object => { node with object := object }
  | .error _ => node

theorem cleared_flags (cmdKey : Text) (node : Node) : (cleared cmdKey node).flags = node.flags := by
  rw [cleared]
  split <;> rfl

theorem hasKey_cleared (cmdKey cmdKey' : Text) (node : Node) :
    hasKey cmdKey' (cleared cmdKey node).object ↔
      cmdKey ≠ cmdKey' ∧ hasKey cmdKey' node.object := by
  rcases node with ⟨object, flags⟩
  cases object with
  | map entries => exact hasKey_eraseKey cmdKey cmdKey' entries
  | _ => simp [cleared, eraseKey, inputError, hasKey]

theorem cleared_cleared (cmdKey : Text) (node : Node) :
    cleared cmdKey (cleared cmdKey node) = cleared cmdKey node := by
  rcases node with ⟨object, flags⟩
  cases object with
  | map entries => simp [cleared, eraseKey]
  | _ => rfl

/-- The entries of a list without the command key, the rest as it is. -/
structure Cleared (s t : Storage) (cmdKey : Text) (keys : List Key) : Prop where
  rlookup : t.rlookup = s.rlookup
  entries : ∀ k, t.entries k =
    if k ∈ keys then (s.entries k).map (cleared cmdKey) else s.entries k

theorem clearEntry_spec (cmdKey : Text)
    (h : ∀ node, s.entries k = some node → ∃ entries, node.object = .map entries) :
    ∃ t, clearEntry cmdKey k s = (.ok (), t) ∧ Cleared s t cmdKey [k] := by
  cases hk : s.entries k with
  | none =>
    refine ⟨s, by simp only [clearEntry, hk], rfl, ?_⟩
    intro k'
    split
    · rename_i he
      rw [List.mem_singleton.mp he, hk, Option.map_none]
    · rfl
  | some node =>
    rcases h node hk with ⟨entries, ho⟩
    refine ⟨s.assign k (cleared cmdKey node), ?_, rfl, ?_⟩
    · simp only [clearEntry, hk, cleared, ho, eraseKey]
    · intro k'
      simp only [Storage.assign_entries, List.mem_singleton]
      split
      · rename_i he
        rw [he, hk, Option.map_some]
      · rfl

theorem clearEntries_spec (cmdKey : Text)
    (h : ∀ k ∈ keys, ∀ node, s.entries k = some node → ∃ entries, node.object = .map entries) :
    ∃ t, clearEntries cmdKey keys s = (.ok (), t) ∧ Cleared s t cmdKey keys := by
  induction keys generalizing s with
  | nil => exact ⟨s, rfl, rfl, fun k => rfl⟩
  | cons k keys ih =>
    rcases clearEntry_spec cmdKey (h k List.mem_cons_self) with ⟨t, ht, hc⟩
    have hmap : ∀ k' ∈ keys, ∀ node, t.entries k' = some node →
        ∃ entries, node.object = .map entries := by
      intro k' hk' node hnode
      rw [hc.entries] at hnode
      split at hnode
      · rw [Option.map_eq_some_iff] at hnode
        rcases hnode with ⟨old, hold, rfl⟩
        rcases h k' (List.mem_cons_of_mem k hk') old hold with ⟨entries, ho⟩
        simp only [cleared, ho, eraseKey]
        exact ⟨_, rfl⟩
      · exact h k' (List.mem_cons_of_mem k hk') node hnode
    rcases ih hmap with ⟨u, hu, hd⟩
    refine ⟨u, ?_, hd.rlookup.trans hc.rlookup, ?_⟩
    · rw [clearEntries, Run.bind_apply, ht]
      exact hu
    · intro k'
      rw [hd.entries, hc.entries]
      by_cases hk : k' = k
      · have hmem : k' ∈ k :: keys := hk ▸ List.mem_cons_self
        rw [if_pos (List.mem_singleton.mpr hk), if_pos hmem]
        split
        · rw [Option.map_map]
          congr 1
          funext node
          exact cleared_cleared cmdKey node
        · rfl
      · rw [if_neg (fun hm => hk (List.mem_singleton.mp hm))]
        simp only [List.mem_cons, hk, false_or]

theorem listed_maps (hs : WellFormed s) (cmdKey : Text) :
    ∀ k ∈ s.listed cmdKey, ∀ node, s.entries k = some node →
      ∃ entries, node.object = .map entries := by
  intro k hk node hnode
  rcases hs.known cmdKey k hk with ⟨node', hnode', ht⟩
  rw [hnode] at hnode'
  cases hnode'
  exact hs.maps k node hnode ht

theorem rlookupClear_cases (hs : WellFormed s) (cmdKey : Text) :
    (rlookupClear cmdKey s).2 = s ∨ ∃ t, Cleared s t cmdKey (s.listed cmdKey) ∧
      (rlookupClear cmdKey s).2 = t.setListed cmdKey [] := by
  simp only [rlookupClear, Run.bind_apply, Run.get]
  cases hr : s.rlookup cmdKey with
  | none => exact .inl rfl
  | some keys =>
    have hl : s.listed cmdKey = keys := by rw [Storage.listed, hr, Option.getD_some]
    rcases clearEntries_spec cmdKey (hl ▸ listed_maps hs cmdKey) with ⟨t, ht, hc⟩
    refine .inr ⟨t, hl ▸ hc, ?_⟩
    simp only [Run.bind_apply, ht, Run.modify]

theorem cleared_entry (h : Cleared s t cmdKey keys) (hk : t.entries k = some node) :
    ∃ old, s.entries k = some old ∧ node = if k ∈ keys then cleared cmdKey old else old := by
  rw [h.entries] at hk
  split at hk
  · rename_i hmem
    rw [Option.map_eq_some_iff] at hk
    rcases hk with ⟨old, hold, rfl⟩
    exact ⟨old, hold, (if_pos hmem).symm⟩
  · rename_i hmem
    exact ⟨node, hk, (if_neg hmem).symm⟩

theorem rlookupClear_indexed (hs : WellFormed s) (hi : Indexed s) (cmdKey : Text) :
    Indexed (rlookupClear cmdKey s).2 := by
  rcases rlookupClear_cases hs cmdKey with h | ⟨t, hc, h⟩
  · rwa [h]
  rw [h]
  intro k node hk hflag cmdKey'
  rcases cleared_entry hc hk with ⟨old, hold, rfl⟩
  have hlisted : t.listed cmdKey' = s.listed cmdKey' := by
    rw [Storage.listed, hc.rlookup, Storage.listed]
  have hold' : hasFlag old.flags flagRlookup := by
    split at hflag
    · rwa [cleared_flags] at hflag
    · exact hflag
  obtain ⟨hkey, hcount⟩ := hi k old hold hold' cmdKey'
  rw [Storage.setListed_listed, hlisted]
  by_cases he : cmdKey' = cmdKey
  · subst he
    rw [if_pos rfl]
    constructor
    · apply iff_of_false _ (List.not_mem_nil)
      split
      · rw [hasKey_cleared]
        exact fun h => h.1 rfl
      · rename_i hmem
        rwa [hkey]
    · exact Nat.zero_le 1
  · rw [if_neg he]
    refine ⟨?_, hcount⟩
    split
    · rw [hasKey_cleared, and_iff_right (Ne.symm he), hkey]
    · exact hkey

theorem rlookupClear_wellFormed (hs : WellFormed s) (cmdKey : Text) :
    WellFormed (rlookupClear cmdKey s).2 := by
  rcases rlookupClear_cases hs cmdKey with h | ⟨t, hc, h⟩
  · rwa [h]
  rw [h]
  constructor
  · intro k node hk
    rcases cleared_entry hc hk with ⟨old, hold, -⟩
    exact hs.stored k old hold
  · intro k node hk ht
    rcases cleared_entry hc hk with ⟨old, hold, rfl⟩
    split at ht
    · rename_i hmem
      rw [cleared_flags] at ht
      rcases hs.maps k old hold ht with ⟨entries, ho⟩
      rw [if_pos hmem]
      simp only [cleared, ho, eraseKey]
      exact ⟨_, rfl⟩
    · rename_i hmem
      rw [if_neg hmem]
      exact hs.maps k old hold ht
  · intro cmdKey' k hk
    rw [Storage.setListed_listed] at hk
    split at hk
    · cases hk
    rw [Storage.listed, hc.rlookup] at hk
    rcases hs.known cmdKey' k hk with ⟨node, hnode, ht⟩
    rw [Storage.setListed_entries, hc.entries, hnode]
    split
    · exact ⟨cleared cmdKey node, rfl, by rw [cleared_flags, ht]⟩
    · exact ⟨node, rfl, ht⟩

theorem next_wellFormed (hs : WellFormed s) (call : Call) : WellFormed (next s call) := by
  cases call with
  | insert key rawObject flags => exact insert_wellFormed hs key rawObject flags
  | setMultiKeyObj key cmdKey object => exact setMultiKeyObj_wellFormed hs key cmdKey object
  | eraseMultiKey key cmdKey => exact eraseMultiKey_wellFormed hs key cmdKey
  | enableFlag key flag => exact enableFlag_wellFormed hs key flag
  | rlookupClear cmdKey => exact rlookupClear_wellFormed hs cmdKey

theorem next_indexed_iff (hs : WellFormed s) (hi : Indexed s) (call : Call) :
    Indexed (next s call) ↔ Exact s call := by
  cases call with
  | insert key rawObject flags =>
      exact iff_of_true (insert_indexed hs hi key rawObject flags) trivial
  | setMultiKeyObj key cmdKey object => exact setMultiKeyObj_indexed_iff hs hi key cmdKey object
  | eraseMultiKey key cmdKey => exact eraseMultiKey_indexed_iff hs hi key cmdKey
  | enableFlag key flag => exact iff_of_true (enableFlag_indexed hi key flag) trivial
  | rlookupClear cmdKey => exact iff_of_true (rlookupClear_indexed hs hi cmdKey) trivial

theorem empty_wellFormed : WellFormed .empty := by
  constructor
  · intro k node h
    cases h
  · intro k node h
    cases h
  · intro cmdKey k h
    cases h

theorem empty_indexed : Indexed .empty := by
  intro k node h
  cases h

/-- In a run of exact calls the lookup is right in every state, and the first call that is not
makes it wrong. -/
theorem reachable_indexed_iff (s : Storage)
    (h : Reachable (machine.guarded Exact).system .empty s) :
    Indexed s ∧ ∀ call, Indexed (next s call) ↔ Exact s call := by
  have hinv : WellFormed s ∧ Indexed s := by
    apply h.invariant (I := fun s => WellFormed s ∧ Indexed s) ⟨empty_wellFormed, empty_indexed⟩
    rintro s call t ⟨hs, hi⟩ ⟨⟨hexact, -⟩, rfl⟩
    exact ⟨next_wellFormed hs call, (next_indexed_iff hs hi call).mpr hexact⟩
  exact ⟨hinv.2, next_indexed_iff hinv.1 hinv.2⟩

def eventCalls : List Call :=
  [.insert "event".toList .none (flagMultiType ||| flagStatic ||| flagRlookup),
    .setMultiKeyObj "event".toList "handler".toList (.string "print=".toList)]

theorem eventCalls_indexed : Indexed (machine.replay .empty eventCalls) := by
  have hrun : (machine.guarded Exact).Accepts .empty eventCalls :=
    ⟨⟨trivial, trivial⟩, ⟨fun _ h => absurd h.1 (by decide), trivial⟩, trivial⟩
  exact (reachable_indexed_iff _ ⟨_, hrun.execution⟩).1

/-- With a key that goes on behind a nul byte the handler leaves the map and stays listed, or
is listed twice. -/
theorem nul_key_not_indexed :
    let k : Key := .setData "event".toList
    let s := machine.replay .empty
      (eventCalls ++ [.eraseMultiKey "event\x00".toList "handler".toList])
    let t := machine.replay .empty (eventCalls ++
      [.setMultiKeyObj "event\x00".toList "handler".toList (.string "print=".toList)])
    (s.entries k).map (fun node => (hasFlag node.flags flagRlookup,
      hasKey "handler".toList node.object)) = some (true, false) ∧
    s.listed "handler".toList = [k] ∧ t.listed "handler".toList = [k, k] := by
  decide

end ObjectStorageLookup
