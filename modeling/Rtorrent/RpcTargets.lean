import Rtorrent.ObjectRoundTrips

/-! # Targets of a call

`object_to_target` reads the download, file, tracker or peer that a command is called on from a
string. -/
namespace RpcTargets

open RpcTextParser RpcCommandParser RpcCommandMap RpcValueParser
open ObjectRoundTrips (strtoll_of_digits saturate_int64)

abbrev HashString := List UInt8

structure Download (φ τ π : Type) where
  hash : HashString
  files : List φ
  trackers : List τ
  peers : List (HashString × π)

/-- `tracker` is an object that was allocated for the call. -/
inductive Target (φ τ π : Type) where
  | empty
  | download (d : Download φ τ π)
  | file (f : φ)
  | tracker (t : τ)
  | peer (p : π)

variable {φ τ π : Type}

section

-- transform_from_hex on 40 characters, which has a result when it reaches the end.
variable (transformFromHex : Text → Option HashString)

/-- The hash is a C string, of which only the first 40 characters are read. -/
def findHexPtr (downloads : List (Download φ τ π)) (hash : Text) : Option (Download φ τ π) :=
  if (cString hash).length < 40 then none
  else (transformFromHex ((cString hash).take 40)).bind fun key =>
    downloads.find? fun d => d.hash == key

/-- `std::stoi`, which throws a `logic_error` without digits and out of range. -/
def stoi (text : Text) : Option ℤ :=
  (strtoll 10 (cString text)).bind fun r =>
    if -2 ^ 31 ≤ r.1 ∧ r.1 < 2 ^ 31 then some r.1 else none

/-- The conversion of an `int` to `uint32_t`. -/
def toUint32 (v : ℤ) : ℕ := (v % 2 ^ 32).toNat

def invalid {α : Type} (what : String) : Except Error α :=
  .error (.inputError, "invalid parameters: " ++ what)

/-- `slot_find_file` and `slot_find_tracker` differ in the list they index. -/
def findItem {α : Type} (items : List α) (index : ℕ) : Except Error α :=
  match items[index]? with
  | some item => .ok item
  | none => invalid "index not found"

def slotFindFile (d : Download φ τ π) (index : ℕ) : Except Error φ := findItem d.files index

def slotFindTracker (d : Download φ τ π) (index : ℕ) : Except Error τ := findItem d.trackers index

def slotFindPeer (d : Download φ τ π) (hash : HashString) : Except Error π :=
  match d.peers.find? fun p => p.1 == hash with
  | some p => .ok p.2
  | none => invalid "hash not found"

def readIndex (index : Text) : Except Error ℕ :=
  match stoi index with
  | some v => .ok (toUint32 v)
  | none => invalid "invalid index"

/-- The parts around the first colon behind the hash, if there is more behind it than a
type. -/
def splitTarget (text : Text) : Option (Text × Char × Text) :=
  match (text.drop 40).dropWhile (· != ':') with
  | _ :: type :: c :: index =>
    some (text.take 40 ++ (text.drop 40).takeWhile (· != ':'), type, c :: index)
  | _ => none

def targetOf (d : Download φ τ π) (type : Char) (index : Text) : Except Error (Target φ τ π) :=
  if type = 'd' then .ok (.download d)
  else if type = 'f' then do
    let file ← slotFindFile d (← readIndex index)
    .ok (.file file)
  else if type = 't' then do
    let tracker ← slotFindTracker d (← readIndex index)
    .ok (.tracker tracker)
  else if type = 'p' then
    if index.length ≠ 40 then invalid "target is not 40 bytes long"
    else match transformFromHex index with
      | none => invalid "target is not a hex string"
      | some hash => do
        let peer ← slotFindPeer d hash
        .ok (.peer peer)
  else invalid "unexpected target type"

def requiresIndex (callFlags : BitVec 32) : Bool :=
  hasFlag callFlags (flagTrackerTarget ||| flagFileTarget)

def stringToTarget (downloads : List (Download φ τ π)) (text : Text) (callFlags : BitVec 32) :
    Except Error (Target φ τ π) :=
  if text.length = 0 ∧ !requiresIndex callFlags then .ok .empty
  else if text.length < 40 then invalid "invalid target"
  else match splitTarget text with
    | none =>
      if requiresIndex callFlags then invalid "no index"
      else match findHexPtr transformFromHex downloads text with
        | none => invalid "info-hash not found"
        | some d => targetOf transformFromHex d 'd' []
    | some (hash, type, index) =>
      match findHexPtr transformFromHex downloads hash with
      | none => invalid "info-hash not found"
      | some d => targetOf transformFromHex d type index

def objectToTarget (downloads : List (Download φ τ π)) (obj : Object) (callFlags : BitVec 32) :
    Except Error (Target φ τ π) :=
  match obj with
  | .string text => stringToTarget transformFromHex downloads text callFlags
  | _ => invalid "target must be a string"

end

def hexValue (c : Char) : Option ℕ := (digitValue c).filter (· < 16)

def hexBytes : Text → Option HashString
  | [] => some []
  | [_] => none
  | a :: b :: rest => do
    let high ← hexValue a
    let low ← hexValue b
    let bytes ← hexBytes rest
    some (UInt8.ofNat (16 * high + low) :: bytes)

def isDecimal (text : Text) : Bool := !text.isEmpty && text.all Char.isDigit

def hashOf (text : Text) : Option HashString := if text.length = 40 then hexBytes text else none

def namedDownload (downloads : List (Download φ τ π)) (text : Text) : Option (Download φ τ π) :=
  (hashOf text).bind fun key => downloads.find? fun d => d.hash == key

def namedAt {α : Type} (items : List α) (index : Text) : Option α :=
  if isDecimal index then items[digitsValue 10 index]? else none

def namedPeer (d : Download φ τ π) (index : Text) : Option π :=
  (hashOf index).bind fun hash => (d.peers.find? fun p => p.1 == hash).map Prod.snd

def namedItem (d : Download φ τ π) (type : Char) (index : Text) : Option (Target φ τ π) :=
  if type = 'd' then (if isDecimal index then some (.download d) else none)
  else if type = 'f' then (namedAt d.files index).map .file
  else if type = 't' then (namedAt d.trackers index).map .tracker
  else if type = 'p' then (namedPeer d index).map .peer
  else none

def namedBehind (d : Download φ τ π) (requireIndex : Bool) : Text → Option (Target φ τ π)
  | [] => if requireIndex then none else some (.download d)
  | ':' :: type :: index => namedItem d type index
  | _ => none

def named (downloads : List (Download φ τ π)) (text : Text) (requireIndex : Bool) :
    Option (Target φ τ π) :=
  if text = [] then (if requireIndex then none else some .empty)
  else (namedDownload downloads (text.take 40)).bind fun d =>
    namedBehind d requireIndex (text.drop 40)

def Agrees {α : Type} (result : Except Error α) : Option α → Prop
  | some target => result = .ok target
  | none => ∃ what, result = .error (.inputError, what)

/-- `std::stoi` reads no index of an item. -/
def NoItem {α : Type} (items : List α) (index : Text) : Prop :=
  ∀ v, stoi index = some v → items.length ≤ toUint32 v

/-- A decimal index of an item is an `int`, and another text is not read as an index. -/
def ExactIndex {α : Type} (items : List α) (index : Text) : Prop :=
  if isDecimal index then digitsValue 10 index < items.length → digitsValue 10 index < 2 ^ 31
  else NoItem items index

/-- Behind the hash of a loaded download there is nothing, a colon and what the type asks for, or
something that is refused. -/
def Exact (downloads : List (Download φ τ π)) (text : Text) (requireIndex : Bool) : Prop :=
  ∀ d, namedDownload downloads (text.take 40) = some d →
    match splitTarget text with
    | none => text.drop 40 = [] ∨ requireIndex = true
    | some (hash, type, index) =>
      if hash.length = 40 then
        (type = 'd' → isDecimal index) ∧ (type = 'f' → ExactIndex d.files index) ∧
          (type = 't' → ExactIndex d.trackers index)
      else
        type ≠ 'd' ∧ (type = 'f' → NoItem d.files index) ∧
          (type = 't' → NoItem d.trackers index) ∧ (type = 'p' → namedPeer d index = none)

theorem hexValue_nul : hexValue '\x00' = none := by decide

variable {text : Text}

theorem hexBytes_nul (h : '\x00' ∈ text) : hexBytes text = none := by
  induction text using hexBytes.induct with
  | case1 => cases h
  | case2 c => rfl
  | case3 a b rest ih =>
    rw [hexBytes]
    rcases List.mem_cons.mp h with rfl | h
    · rw [hexValue_nul]
      rfl
    rcases List.mem_cons.mp h with rfl | h
    · rw [hexValue_nul]
      cases hexValue a <;> rfl
    · rw [ih h]
      cases hexValue a with
      | none => rfl
      | some high => cases hexValue b <;> rfl

variable {first : Text}

theorem cString_append (h : '\x00' ∉ first) (rest : Text) :
    cString (first ++ rest) = first ++ cString rest := by
  rw [cString, List.takeWhile_append_of_pos, cString]
  intro c hc
  rw [bne_iff_ne]
  rintro rfl
  exact h hc

theorem cString_append_of_nul (h : '\x00' ∈ first) (rest : Text) :
    (cString (first ++ rest)).length < first.length := by
  by_contra hlen
  have htake : cString (first ++ rest) <+: first ++ rest := List.takeWhile_prefix _
  have hfront : first <+: cString (first ++ rest) :=
    List.prefix_of_prefix_length_le (List.prefix_append first rest) htake (Nat.le_of_not_lt hlen)
  exact nul_not_mem_cString _ (hfront.subset h)

theorem namedDownload_short (downloads : List (Download φ τ π))
    (h : text.length < 40) : namedDownload downloads (text.take 40) = none := by
  rw [namedDownload, hashOf, if_neg, Option.bind_none]
  rw [List.length_take]
  omega

section

variable {transformFromHex : Text → Option HashString}
  (hhex : ∀ text : Text, text.length = 40 → transformFromHex text = hexBytes text)

include hhex

theorem findHexPtr_append (downloads : List (Download φ τ π)) {first : Text}
    (hfirst : first.length = 40) (rest : Text) :
    findHexPtr transformFromHex downloads (first ++ rest) = namedDownload downloads first := by
  rw [findHexPtr, namedDownload, hashOf, if_pos hfirst]
  by_cases hnul : '\x00' ∈ first
  · rw [if_pos (hfirst ▸ cString_append_of_nul hnul rest), hexBytes_nul hnul, Option.bind_none]
  · rw [cString_append hnul, List.take_append_of_le_length hfirst.ge, ← hfirst, List.take_length,
      if_neg (by simp), hhex first hfirst]

theorem findHexPtr_take (downloads : List (Download φ τ π)) {text : Text}
    (hfirst : (text.take 40).length = 40) :
    findHexPtr transformFromHex downloads text = namedDownload downloads (text.take 40) := by
  conv_lhs => rw [← List.take_append_drop 40 text]
  exact findHexPtr_append hhex downloads hfirst _

end

variable {c : Char}

theorem isDigitOf_of_isDigit (h : c.isDigit = true) : isDigitOf 10 c = true := by
  have hrange : c.toNat ≤ 57 := by
    simp only [Char.isDigit, Bool.and_eq_true, decide_eq_true_eq] at h
    exact UInt32.le_iff_toNat_le.mp h.2
  simp only [isDigitOf, digitValue, h, if_true, Option.any_some, decide_eq_true_eq]
  omega

variable {index : Text}

theorem stoi_decimal (h : isDecimal index = true) :
    stoi index =
      if digitsValue 10 index < 2 ^ 31 then some (digitsValue 10 index : ℤ) else none := by
  simp only [isDecimal, Bool.and_eq_true, Bool.not_eq_true', List.isEmpty_eq_false_iff,
    List.all_eq_true] at h
  have hall : ∀ c ∈ index, isDigitOf 10 c = true := fun c hc => isDigitOf_of_isDigit (h.2 c hc)
  have hnul : '\x00' ∉ index := fun hm => (digit_plain (hall _ hm)).2.2.2 rfl
  rw [stoi, cString_of_not_mem hnul, (strtoll_of_digits h.1 hall).1, Option.bind_some]
  by_cases hlt : digitsValue 10 index < 2 ^ 31
  · have hsat : saturate (digitsValue 10 index) = digitsValue 10 index :=
      saturate_int64 (by simp only [int64Min, int64Max]; omega)
    rw [hsat, if_pos (by omega), if_pos hlt]
  · have hsat : 2 ^ 31 ≤ saturate (digitsValue 10 index) := by
      simp only [saturate, int64Min, int64Max]
      omega
    rw [if_neg (by omega), if_neg hlt]

theorem toUint32_ofNat {n : ℕ} (h : n < 2 ^ 31) : toUint32 n = n := by
  rw [toUint32]
  omega

def lookUp {α β : Type} (items : List α) (index : Text) (f : α → β) : Except Error β := do
  let item ← findItem items (← readIndex index)
  .ok (f item)

section

variable {α β : Type} (items : List α) (index : Text) (f : α → β)

theorem lookUp_of_none (h : stoi index = none) :
    lookUp items index f = invalid "invalid index" := by
  simp only [lookUp, readIndex, h]
  rfl

theorem lookUp_of_some {v : ℤ} (h : stoi index = some v) :
    lookUp items index f = match items[toUint32 v]? with
      | some item => .ok (f item)
      | none => invalid "index not found" := by
  simp only [lookUp, readIndex, h, findItem, Bind.bind, Except.bind]
  cases items[toUint32 v]? <;> rfl

theorem lookUp_refused_iff : Agrees (lookUp items index f) none ↔ NoItem items index := by
  cases hv : stoi index with
  | none =>
    rw [lookUp_of_none items index f hv]
    refine iff_of_true ⟨_, rfl⟩ ?_
    intro v h
    rw [hv] at h
    cases h
  | some v =>
    rw [lookUp_of_some items index f hv]
    have hnone : NoItem items index ↔ items[toUint32 v]? = none := by
      rw [List.getElem?_eq_none_iff, NoItem, hv]
      exact ⟨fun h => h v rfl, fun h w hw => by cases hw; exact h⟩
    rw [hnone]
    cases items[toUint32 v]? with
    | none => exact iff_of_true ⟨_, rfl⟩ rfl
    | some item => simp [Agrees]

theorem lookUp_agrees_iff :
    Agrees (lookUp items index f) ((namedAt items index).map f) ↔ ExactIndex items index := by
  rw [namedAt, ExactIndex]
  by_cases hdecimal : isDecimal index = true
  · rw [if_pos hdecimal, if_pos hdecimal]
    by_cases hlt : digitsValue 10 index < 2 ^ 31
    · have hv := stoi_decimal hdecimal
      rw [if_pos hlt] at hv
      rw [lookUp_of_some items index f hv, toUint32_ofNat hlt]
      refine iff_of_true ?_ fun _ => hlt
      cases items[digitsValue 10 index]? with
      | none => exact ⟨_, rfl⟩
      | some item => rfl
    · have hv := stoi_decimal hdecimal
      rw [if_neg hlt] at hv
      rw [lookUp_of_none items index f hv]
      by_cases hitem : digitsValue 10 index < items.length
      · refine iff_of_false ?_ fun h => hlt (h hitem)
        rw [List.getElem?_eq_getElem hitem]
        simp [Agrees, invalid]
      · refine iff_of_true ?_ fun h => absurd h hitem
        rw [List.getElem?_eq_none_iff.mpr (Nat.le_of_not_lt hitem)]
        exact ⟨_, rfl⟩
  · rw [if_neg hdecimal, if_neg hdecimal]
    exact lookUp_refused_iff items index f

end

section

variable {transformFromHex : Text → Option HashString} (d : Download φ τ π)

theorem targetOf_download (index : Text) :
    targetOf transformFromHex d 'd' index = .ok (.download d) := rfl

theorem targetOf_file (index : Text) :
    targetOf transformFromHex d 'f' index = lookUp d.files index .file := rfl

theorem targetOf_tracker (index : Text) :
    targetOf transformFromHex d 't' index = lookUp d.trackers index .tracker := rfl

theorem targetOf_other {type : Char} (hd : type ≠ 'd') (hf : type ≠ 'f') (ht : type ≠ 't')
    (hp : type ≠ 'p') (index : Text) :
    targetOf transformFromHex d type index = invalid "unexpected target type" := by
  rw [targetOf, if_neg hd, if_neg hf, if_neg ht, if_neg hp]

variable (hhex : ∀ text : Text, text.length = 40 → transformFromHex text = hexBytes text)
include hhex

theorem targetOf_peer (index : Text) :
    Agrees (targetOf transformFromHex d 'p' index) ((namedPeer d index).map .peer) := by
  rw [namedPeer, hashOf]
  by_cases hlen : index.length = 40
  · have htarget : targetOf transformFromHex d 'p' index = match hexBytes index with
        | none => invalid "target is not a hex string"
        | some hash => (slotFindPeer d hash).map .peer := by
      rw [← hhex index hlen]
      simp only [targetOf, Char.reduceEq, if_false, if_true, hlen, ne_eq, not_true_eq_false]
      rfl
    rw [htarget, if_pos hlen]
    cases hexBytes index with
    | none => exact ⟨_, rfl⟩
    | some hash =>
      dsimp only [Option.bind_some, slotFindPeer]
      cases d.peers.find? fun p => p.1 == hash with
      | none => exact ⟨_, rfl⟩
      | some p => rfl
  · rw [if_neg hlen]
    exact ⟨_, by simp [targetOf, hlen, invalid]; rfl⟩

theorem targetOf_agrees_iff (type : Char) (index : Text) :
    Agrees (targetOf transformFromHex d type index) (namedItem d type index) ↔
      (type = 'd' → isDecimal index) ∧ (type = 'f' → ExactIndex d.files index) ∧
        (type = 't' → ExactIndex d.trackers index) := by
  rw [namedItem]
  by_cases hd : type = 'd'
  · subst hd
    rw [targetOf_download, if_pos rfl]
    cases hdecimal : isDecimal index <;> simp [Agrees]
  by_cases hf : type = 'f'
  · subst hf
    rw [targetOf_file, if_neg hd, if_pos rfl, lookUp_agrees_iff]
    simp
  by_cases ht : type = 't'
  · subst ht
    rw [targetOf_tracker, if_neg hd, if_neg hf, if_pos rfl, lookUp_agrees_iff]
    simp
  rw [if_neg hd, if_neg hf, if_neg ht]
  refine iff_of_true ?_ ⟨fun h => absurd h hd, fun h => absurd h hf, fun h => absurd h ht⟩
  by_cases hp : type = 'p'
  · subst hp
    rw [if_pos rfl]
    exact targetOf_peer d hhex index
  · rw [if_neg hp, targetOf_other d hd hf ht hp]
    exact ⟨_, rfl⟩

theorem targetOf_refused_iff (type : Char) (index : Text) :
    Agrees (targetOf transformFromHex d type index) none ↔
      type ≠ 'd' ∧ (type = 'f' → NoItem d.files index) ∧
        (type = 't' → NoItem d.trackers index) ∧ (type = 'p' → namedPeer d index = none) := by
  by_cases hd : type = 'd'
  · subst hd
    rw [targetOf_download]
    simp [Agrees]
  by_cases hf : type = 'f'
  · subst hf
    rw [targetOf_file, lookUp_refused_iff]
    simp
  by_cases ht : type = 't'
  · subst ht
    rw [targetOf_tracker, lookUp_refused_iff]
    simp
  by_cases hp : type = 'p'
  · subst hp
    have hpeer := targetOf_peer d hhex index
    cases hn : namedPeer d index with
    | none =>
      rw [hn] at hpeer
      exact iff_of_true hpeer (by simp)
    | some p =>
      rw [hn] at hpeer
      refine iff_of_false ?_ (by simp)
      rintro ⟨what, herror⟩
      rw [hpeer] at herror
      cases herror
  · rw [targetOf_other d hd hf ht hp]
    exact iff_of_true ⟨_, rfl⟩ (by simp [hd, hf, ht, hp])

end

theorem splitTarget_some {hash : Text} {type : Char}
    (h : splitTarget text = some (hash, type, index)) :
    ∃ junk, hash = text.take 40 ++ junk ∧ ':' ∉ junk ∧
      text.drop 40 = junk ++ ':' :: type :: index := by
  have hsplit := List.takeWhile_append_dropWhile (p := (· != ':')) (l := text.drop 40)
  have hhead : ∀ c ∈ ((text.drop 40).dropWhile (· != ':')).head?, c = ':' := by
    intro c hc
    have hnot := List.head?_dropWhile_not (· != ':') (text.drop 40)
    rw [Option.mem_def.mp hc] at hnot
    simpa using hnot
  rw [splitTarget] at h
  split at h
  · rename_i colon type' c index' htail
    cases h
    obtain rfl := hhead colon (by rw [htail]; rfl)
    refine ⟨_, rfl, ?_, ?_⟩
    · intro hm
      simpa using List.mem_takeWhile_imp hm
    · rw [← htail, hsplit]
  · cases h

theorem splitTarget_none (h : splitTarget text = none) {rest : Text}
    (hrest : text.drop 40 = ':' :: rest) : rest.length ≤ 1 := by
  rw [splitTarget, hrest, List.dropWhile_cons, if_neg (by simp)] at h
  cases rest with
  | nil => exact Nat.zero_le 1
  | cons c rest =>
    cases rest with
    | nil => exact Nat.le_refl 1
    | cons d rest => simp at h

theorem namedItem_empty (d : Download φ τ π) (type : Char) : namedItem d type [] = none := by
  simp [namedItem, isDecimal, namedAt, namedPeer, hashOf]

variable {d : Download φ τ π} {requireIndex : Bool}

theorem namedBehind_of_ne (hc : c ≠ ':')
    (rest : Text) : namedBehind d requireIndex (c :: rest) = none := by
  unfold namedBehind
  split
  · rename_i h
    cases h
  · rename_i h
    exact absurd (List.cons.inj h).1 hc
  · rfl

theorem namedBehind_none (h : splitTarget text = none) (hne : text.drop 40 ≠ []) :
    namedBehind d requireIndex (text.drop 40) = none := by
  obtain ⟨c, rest, hrest⟩ := List.exists_cons_of_ne_nil hne
  rw [hrest]
  by_cases hc : c = ':'
  · subst hc
    have hlen := splitTarget_none h hrest
    cases rest with
    | nil => rfl
    | cons type index =>
      rw [List.length_cons] at hlen
      obtain rfl := List.length_eq_zero_iff.mp (show index.length = 0 by omega)
      exact namedItem_empty d type
  · exact namedBehind_of_ne hc rest

theorem unsplit_agrees_iff (transformFromHex : Text → Option HashString) (d : Download φ τ π)
    (requireIndex : Bool) (h : splitTarget text = none) :
    Agrees (if requireIndex then invalid "no index" else targetOf transformFromHex d 'd' [])
        (namedBehind d requireIndex (text.drop 40)) ↔
      text.drop 40 = [] ∨ requireIndex = true := by
  by_cases hne : text.drop 40 = []
  · refine iff_of_true ?_ (.inl hne)
    rw [hne]
    cases requireIndex
    · rfl
    · exact ⟨_, rfl⟩
  · rw [namedBehind_none h hne]
    cases requireIndex with
    | false => simp [hne, targetOf_download, Agrees]
    | true => exact iff_of_true ⟨_, rfl⟩ (.inr rfl)

theorem split_agrees_iff {transformFromHex : Text → Option HashString}
    (hhex : ∀ text : Text, text.length = 40 → transformFromHex text = hexBytes text)
    (d : Download φ τ π) (requireIndex : Bool) {junk : Text} (hjunk : ':' ∉ junk) (type : Char)
    (index : Text) :
    Agrees (targetOf transformFromHex d type index)
        (namedBehind d requireIndex (junk ++ ':' :: type :: index)) ↔
      if junk = [] then
        (type = 'd' → isDecimal index) ∧ (type = 'f' → ExactIndex d.files index) ∧
          (type = 't' → ExactIndex d.trackers index)
      else
        type ≠ 'd' ∧ (type = 'f' → NoItem d.files index) ∧
          (type = 't' → NoItem d.trackers index) ∧ (type = 'p' → namedPeer d index = none) := by
  cases junk with
  | nil =>
    rw [if_pos rfl]
    exact targetOf_agrees_iff d hhex type index
  | cons c rest =>
    have hc : c ≠ ':' := fun h => hjunk (h ▸ List.mem_cons_self)
    rw [if_neg (by simp), List.cons_append, namedBehind_of_ne hc]
    exact targetOf_refused_iff d hhex type index

/-- A string is accepted as the target it names and refused if it names none, just when what
stands behind the hash of a loaded download is exact. -/
theorem objectToTarget_named_iff (transformFromHex : Text → Option HashString)
    (hhex : ∀ text : Text, text.length = 40 → transformFromHex text = hexBytes text)
    (downloads : List (Download φ τ π)) (text : Text) (callFlags : BitVec 32) :
    Agrees (objectToTarget transformFromHex downloads (.string text) callFlags)
        (named downloads text (requiresIndex callFlags)) ↔
      Exact downloads text (requiresIndex callFlags) := by
  rw [objectToTarget, stringToTarget, Exact]
  generalize requiresIndex callFlags = requireIndex
  by_cases hempty : text = []
  · subst hempty
    refine iff_of_true ?_ fun d hd => by simp [namedDownload, hashOf] at hd
    cases requireIndex
    · rfl
    · exact ⟨_, rfl⟩
  have hlength : ¬ (text.length = 0 ∧ (!requireIndex) = true) :=
    fun h => hempty (List.length_eq_zero_iff.mp h.1)
  rw [if_neg hlength, named, if_neg hempty]
  by_cases hshort : text.length < 40
  · rw [if_pos hshort, namedDownload_short downloads hshort]
    exact iff_of_true ⟨_, rfl⟩ fun d hd => by cases hd
  rw [if_neg hshort]
  have hfirst : (text.take 40).length = 40 := by
    rw [List.length_take]
    omega
  cases hsplit : splitTarget text with
  | none =>
    dsimp only
    rw [findHexPtr_take hhex downloads hfirst]
    cases hd : namedDownload downloads (text.take 40) with
    | none =>
      refine iff_of_true ?_ fun d h => by cases h
      cases requireIndex <;> exact ⟨_, rfl⟩
    | some d =>
      have hagrees := unsplit_agrees_iff transformFromHex d requireIndex hsplit
      simpa using hagrees
  | some parts =>
    obtain ⟨hash, type, index⟩ := parts
    obtain ⟨junk, rfl, hjunk, hdrop⟩ := splitTarget_some hsplit
    dsimp only
    rw [findHexPtr_append hhex downloads hfirst junk]
    cases hd : namedDownload downloads (text.take 40) with
    | none => exact iff_of_true ⟨_, rfl⟩ fun d h => by cases h
    | some d =>
      have hagrees := split_agrees_iff hhex d requireIndex hjunk type index
      have hnil : (text.take 40 ++ junk).length = 40 ↔ junk = [] := by
        rw [List.length_append, hfirst, ← List.length_eq_zero_iff]
        omega
      simp only [Option.bind_some, hdrop, hagrees, hnil, Option.some.injEq, forall_eq']

def zeroDownload : Download ℕ ℕ ℕ := ⟨List.replicate 20 0, [7], [8], []⟩

def zeroTarget (behind : String) : Text := List.replicate 40 '0' ++ behind.toList

theorem tracker_target_named :
    Exact [zeroDownload] (zeroTarget ":t00") true ∧
      objectToTarget hexBytes [zeroDownload] (.string (zeroTarget ":t00")) flagTrackerTarget =
        .ok (.tracker 8) := by
  have hexact : Exact [zeroDownload] (zeroTarget ":t00") true := by
    intro d hd
    obtain rfl : zeroDownload = d := Option.some.inj hd
    have hsplit : splitTarget (zeroTarget ":t00") =
        some (List.replicate 40 '0', 't', ['0', '0']) := by decide
    rw [hsplit]
    refine ⟨by decide, fun h => absurd h (by decide), fun _ _ => ?_⟩
    decide
  exact ⟨hexact, (objectToTarget_named_iff hexBytes (fun _ _ => rfl) [zeroDownload]
    (zeroTarget ":t00") flagTrackerTarget).mpr hexact⟩

/-- Text behind the hash, an index that is no number and one with a blank and a letter are
accepted. -/
theorem inexact_targets_accepted :
    named [zeroDownload] (zeroTarget "x") false = none ∧
      objectToTarget hexBytes [zeroDownload] (.string (zeroTarget "x")) 0 =
        .ok (.download zeroDownload) ∧
      named [zeroDownload] (zeroTarget ":dx") false = none ∧
      objectToTarget hexBytes [zeroDownload] (.string (zeroTarget ":dx")) 0 =
        .ok (.download zeroDownload) ∧
      named [zeroDownload] (zeroTarget ":f 0x") false = none ∧
      objectToTarget hexBytes [zeroDownload] (.string (zeroTarget ":f 0x")) 0 = .ok (.file 7) :=
  ⟨rfl, rfl, rfl, rfl, rfl, rfl⟩

end RpcTargets
