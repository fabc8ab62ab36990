import Rtorrent.XmlRpcDocument

/-! # Objects written and read again

An object is written as a JSON value or as the content of an XML `value` element, and read as the
parameters of a call are. -/
namespace ObjectRoundTrips

open RpcTextParser RpcCommandParser RpcRequests XmlRpcDocument
open RpcValueParser (strtoll saturate int64Max int64Min digitValue digitsValue isDigitOf readSign
  readBase_ten readSign_plain digit_plain)
open ObjectStorage (insertEntry)
open XmlNode (getText isNamed)

mutual

/-- An object built from 64-bit integers, strings, lists and maps. The keys of a map are in order,
its strings and keys of some kind. -/
def isPlain (clean : Text → Bool) : Object → Bool
  | .value v => decide (int64Min ≤ v ∧ v ≤ int64Max)
  | .string s => clean s
  | .list items => arePlain clean items
  | .map entries => entriesPlain clean entries
  | _ => false

def arePlain (clean : Text → Bool) : List Object → Bool
  | [] => true
  | item :: items => isPlain clean item && arePlain clean items

def entriesPlain (clean : Text → Bool) : List (Text × Object) → Bool
  | [] => true
  | (key, obj) :: entries =>
    clean key && entries.all (fun e => decide (key < e.1)) && isPlain clean obj &&
      entriesPlain clean entries

end

theorem bmod_int64 {v : ℤ} (h : int64Min ≤ v ∧ v ≤ int64Max) : Int.bmod v (2 ^ 64) = v := by
  simp only [int64Min, int64Max] at h
  rw [Int.bmod_def]
  split <;> omega

section

variable {clean : Text → Bool}

mutual

theorem jsonToObject_objectToJson : ∀ {o : Object} {n : ℕ}, isPlain clean o = true →
    o.depth ≤ n → jsonToObject n (objectToJson o) = .ok o
  | .value v, n, hp, _ => by
    simp only [isPlain, decide_eq_true_eq] at hp
    rw [objectToJson, jsonToObject, bmod_int64 hp]
  | .string s, n, _, _ => by rw [objectToJson, jsonToObject]
  | .list items, 0, _, hd => by simp [Object.depth] at hd
  | .list items, n + 1, hp, hd => by
    rw [isPlain] at hp
    rw [Object.depth] at hd
    rw [objectToJson, jsonToObject, jsonToItems_itemsToJson hp (by omega)]
    rfl
  | .map entries, 0, _, hd => by simp [Object.depth] at hd
  | .map entries, n + 1, hp, hd => by
    rw [isPlain] at hp
    rw [Object.depth] at hd
    rw [objectToJson, jsonToObject, jsonToEntries_entriesToJson hp (by omega)]
    rfl
  | .none, _, hp, _ | .rawString _, _, hp, _ | .dictKey _ _ _, _, hp, _ => by
    simp [isPlain] at hp

theorem jsonToItems_itemsToJson : ∀ {items : List Object} {n : ℕ}, arePlain clean items = true →
    Object.depths items ≤ n → jsonToItems n (itemsToJson items) = .ok items
  | [], n, _, _ => by rw [itemsToJson, jsonToItems]
  | item :: items, n, hp, hd => by
    rw [arePlain, Bool.and_eq_true] at hp
    rw [Object.depths] at hd
    rw [itemsToJson, jsonToItems, jsonToObject_objectToJson hp.1 (by omega),
      jsonToItems_itemsToJson hp.2 (by omega)]
    rfl

theorem jsonToEntries_entriesToJson : ∀ {entries : List (Text × Object)} {n : ℕ},
    entriesPlain clean entries = true → Object.entryDepths entries ≤ n →
      jsonToEntries n (entriesToJson entries) = .ok entries
  | [], n, _, _ => by rw [entriesToJson, jsonToEntries]
  | (key, obj) :: entries, n, hp, hd => by
    simp only [entriesPlain, Bool.and_eq_true] at hp
    rw [Object.entryDepths] at hd
    rw [entriesToJson, jsonToEntries, jsonToObject_objectToJson hp.1.2 (by omega),
      jsonToEntries_entriesToJson hp.2 (by omega)]
    rfl

end

end

/-- A plain object that is not too deep for `json_to_object` is read as it was. -/
theorem json_round_trip (o : Object) (hp : isPlain (fun _ => true) o = true)
    (hd : o.depth < maxJsonDepth) : jsonToObject (maxJsonDepth - 1) (objectToJson o) = .ok o :=
  jsonToObject_objectToJson hp (Nat.le_sub_one_of_lt hd)

theorem list_json_round_trip :
    jsonToObject (maxJsonDepth - 1) (objectToJson (.list [.value (-1), .map [([], .string [])]])) =
      .ok (.list [.value (-1), .map [([], .string [])]]) :=
  json_round_trip _ (by decide +kernel) (by decide +kernel)

/-- The text of an element. No text node is left of an empty text when it is parsed again. -/
def pushText (s : Text) : List XmlNode := if cString s = [] then [] else [.text (cString s)]

def stringElement (s : Text) : XmlNode := .element "string".toList (pushText s)

mutual

/-- What `print_object_xml` prints, as the element it is when it is parsed again. -/
def printObject : Object → XmlNode
  | .string s => stringElement s
  | .value v => .element "i8".toList (pushText (toString v).toList)
  | .list items => .element "array".toList [.element "data".toList (printItems items)]
  | .map entries => .element "struct".toList (printEntries entries)
  | .dictKey _ key (.list items) =>
    .element "array".toList [.element "data".toList
      (.element "value".toList [stringElement key] :: printItems items)]
  | .dictKey _ key obj =>
    .element "array".toList [.element "data".toList
      [.element "value".toList [stringElement key], .element "value".toList [printObject obj]]]
  | .none | .rawString _ => .element "i8".toList (pushText "0".toList)

def printItems : List Object → List XmlNode
  | [] => []
  | item :: items => .element "value".toList [printObject item] :: printItems items

def printEntries : List (Text × Object) → List XmlNode
  | [] => []
  | (key, obj) :: entries =>
    .element "member".toList [.element "name".toList (pushText key),
      .element "value".toList [printObject obj]] :: printEntries entries

end

mutual

/-- Some map in the object has the empty key. -/
def hasEmptyKey : Object → Bool
  | .list items => haveEmptyKey items
  | .map entries => entriesHaveEmptyKey entries
  | _ => false

def haveEmptyKey : List Object → Bool
  | [] => false
  | item :: items => hasEmptyKey item || haveEmptyKey items

def entriesHaveEmptyKey : List (Text × Object) → Bool
  | [] => false
  | (key, obj) :: entries => key.isEmpty || hasEmptyKey obj || entriesHaveEmptyKey entries

end

theorem digitValue_digitChar {d : ℕ} (h : d < 10) : digitValue d.digitChar = some d := by
  have hall : ∀ d < 10, digitValue (Nat.digitChar d) = some d := by decide
  exact hall d h

theorem toDigits_spec (n : ℕ) :
    Nat.toDigits 10 n ≠ [] ∧ (∀ c ∈ Nat.toDigits 10 n, ∃ d < 10, c = Nat.digitChar d) ∧
      digitsValue 10 (Nat.toDigits 10 n) = n := by
  induction n using Nat.strong_induction_on with
  | _ n ih =>
    by_cases hn : n < 10
    · rw [Nat.toDigits_of_lt_base hn]
      refine ⟨by simp, ?_, ?_⟩
      · intro c hc
        exact ⟨n, hn, List.mem_singleton.mp hc⟩
      · simp [digitsValue, digitValue_digitChar hn]
    · have hm : n % 10 < 10 := by omega
      have hstep := Nat.toDigits_append_toDigits (b := 10) (by omega) (show 0 < n / 10 by omega) hm
      rw [Nat.div_add_mod, Nat.toDigits_of_lt_base hm] at hstep
      obtain ⟨-, hdigits, hvalue⟩ := ih (n / 10) (by omega)
      rw [← hstep]
      refine ⟨by simp, ?_, ?_⟩
      · intro c hc
        rcases List.mem_append.mp hc with hc | hc
        · exact hdigits c hc
        · exact ⟨n % 10, hm, List.mem_singleton.mp hc⟩
      · rw [digitsValue] at hvalue ⊢
        rw [List.foldl_append, hvalue]
        simp only [List.foldl_cons, List.foldl_nil, digitValue_digitChar hm, Option.getD_some]
        omega

theorem digitChar_spec {d : ℕ} (h : d < 10) :
    isSpace d.digitChar = false ∧ d.digitChar ≠ '-' ∧ d.digitChar ≠ '+' ∧
      d.digitChar ≠ '\x00' ∧ isDigitOf 10 d.digitChar = true := by
  have hall : ∀ d < 10, isSpace (Nat.digitChar d) = false ∧ Nat.digitChar d ≠ '-' ∧
      Nat.digitChar d ≠ '+' ∧ Nat.digitChar d ≠ '\x00' ∧ isDigitOf 10 (Nat.digitChar d) = true := by
    decide
  exact hall d h

theorem strtoll_of_digits {digits : Text} (hne : digits ≠ [])
    (hall : ∀ c ∈ digits, isDigitOf 10 c = true) :
    strtoll 10 digits = some (saturate (digitsValue 10 digits), []) ∧
      strtoll 10 ('-' :: digits) = some (saturate (-digitsValue 10 digits), []) := by
  have htake : digits.takeWhile (isDigitOf 10) = digits := List.takeWhile_eq_self_iff.mpr hall
  obtain ⟨c, cs, rfl⟩ := List.exists_cons_of_ne_nil hne
  obtain ⟨hspace, hminus, hplus, -⟩ := digit_plain (hall c List.mem_cons_self)
  have hskip : (c :: cs).dropWhile isSpace = c :: cs := by
    rw [List.dropWhile_cons, if_neg (by simp [hspace])]
  constructor
  · simp only [strtoll, hskip, readSign_plain hminus hplus, readBase_ten, htake,
      List.isEmpty_cons, Bool.false_eq_true, ↓reduceIte, List.drop_length]
  · have hdash : ('-' :: c :: cs).dropWhile isSpace = '-' :: c :: cs := rfl
    simp only [strtoll, hdash, readSign, readBase_ten, htake, List.isEmpty_cons,
      Bool.false_eq_true, ↓reduceIte, List.drop_length]

theorem strtoll_digits (n : ℕ) :
    strtoll 10 (Nat.toDigits 10 n) = some (saturate n, []) ∧
      strtoll 10 ('-' :: Nat.toDigits 10 n) = some (saturate (-n), []) := by
  obtain ⟨hne, hdigits, hvalue⟩ := toDigits_spec n
  have hall : ∀ c ∈ Nat.toDigits 10 n, isDigitOf 10 c = true := by
    intro c hc
    obtain ⟨d, hd, rfl⟩ := hdigits c hc
    exact (digitChar_spec hd).2.2.2.2
  have hread := strtoll_of_digits hne hall
  rwa [hvalue] at hread

theorem saturate_int64 {v : ℤ} (h : int64Min ≤ v ∧ v ≤ int64Max) : saturate v = v := by
  rw [saturate]
  omega

theorem toString_int (v : ℤ) :
    ∃ n : ℕ, (toString v).toList = Nat.toDigits 10 n ∧ v = n ∨
      (toString v).toList = '-' :: Nat.toDigits 10 n ∧ v = -n := by
  cases v with
  | ofNat n => exact ⟨n, .inl ⟨by simp [toString, Int.repr, Nat.repr], rfl⟩⟩
  | negSucc n => exact ⟨n + 1, .inr ⟨by simp [toString, Int.repr, Nat.repr], rfl⟩⟩

theorem nul_not_mem_toDigits (n : ℕ) : '\x00' ∉ Nat.toDigits 10 n := by
  intro h
  obtain ⟨d, hd, hc⟩ := (toDigits_spec n).2.1 _ h
  exact (digitChar_spec hd).2.2.2.1 hc.symm

theorem toString_read {v : ℤ} (h : int64Min ≤ v ∧ v ≤ int64Max) :
    '\x00' ∉ (toString v).toList ∧ (toString v).toList ≠ [] ∧
      strtoll 10 (toString v).toList = some (v, []) := by
  obtain ⟨n, ⟨ht, hv⟩ | ⟨ht, hv⟩⟩ := toString_int v
  · rw [ht]
    refine ⟨nul_not_mem_toDigits n, (toDigits_spec n).1, ?_⟩
    rw [(strtoll_digits n).1, ← hv, saturate_int64 h]
  · rw [ht]
    refine ⟨?_, by simp, ?_⟩
    · rw [List.mem_cons, not_or]
      exact ⟨by decide, nul_not_mem_toDigits n⟩
    · rw [(strtoll_digits n).2, ← hv, saturate_int64 h]

theorem pushText_of_clean {s : Text} (h : '\x00' ∉ s) (hne : s ≠ []) :
    pushText s = [.text s] := by
  rw [pushText, cString_of_not_mem h, if_neg hne]

theorem elementToInt_printed {v : ℤ} (h : int64Min ≤ v ∧ v ≤ int64Max) :
    elementToInt (pushText (toString v).toList) = .ok v := by
  obtain ⟨hnul, hne, hread⟩ := toString_read h
  rw [pushText_of_clean hnul hne, elementToInt, elementTextValue, XmlNode.toText,
    cString_of_not_mem hnul]
  simp only [bind, Except.bind, hread]

theorem string_printed {s : Text} (h : '\x00' ∉ s) :
    rootToObject (stringElement s) = .ok (.string s) := by
  rw [stringElement, rootToObject, if_neg (by decide), if_neg (by decide)]
  by_cases hne : s = []
  · rw [hne]
    rfl
  · have htext : elementTextValue (.text s) = .ok s := by
      rw [elementTextValue, XmlNode.toText, cString_of_not_mem h]
    rw [pushText_of_clean h hne]
    show (elementTextValue (.text s) >>= fun text => .ok (Object.string text)) = _
    rw [htext]
    rfl

theorem int_printed {v : ℤ} (h : int64Min ≤ v ∧ v ≤ int64Max) :
    rootToObject (.element "i8".toList (pushText (toString v).toList)) = .ok (.value v) := by
  rw [rootToObject, if_neg (by decide), if_neg (by decide)]
  show (elementToInt (pushText (toString v).toList) >>= fun value => .ok (Object.value value)) = _
  rw [elementToInt_printed h]
  rfl

theorem isNamed_element (name : String) (type : Text) (children : List XmlNode) :
    isNamed name (.element type children) = (cString type == name.toList) := rfl

theorem getText_name {key : Text} (h : '\x00' ∉ key) :
    getText (.element "name".toList (pushText key)) = if key.isEmpty then none else some key := by
  by_cases hne : key = []
  · rw [hne]
    rfl
  · rw [pushText_of_clean h hne, if_neg (by simpa using hne)]
    show some (cString key) = _
    rw [cString_of_not_mem h]

theorem insertEntry_last {key : Text} {obj : Object} {entries : List (Text × Object)}
    (h : ∀ e ∈ entries, e.1 < key) :
    insertEntry key obj entries = entries ++ [(key, obj)] := by
  induction entries with
  | nil => rfl
  | cons e entries ih =>
    have hlt := h e List.mem_cons_self
    have hne : key ≠ e.1 := by
      intro he
      rw [he] at hlt
      exact List.lt_irrefl _ hlt
    rw [insertEntry, if_neg hne, if_neg (List.lt_asymm hlt),
      ih fun e' he => h e' (List.mem_cons_of_mem _ he)]
    rfl

def emptyName : ReadFailure :=
  .rpcError xmlrpcParseError "struct member has an empty name element"

def nulFree (s : Text) : Bool := decide ('\x00' ∉ s)

mutual

theorem rootToObject_printed : ∀ {o : Object}, isPlain nulFree o = true →
    rootToObject (printObject o) = if hasEmptyKey o then .error emptyName else .ok o
  | .value v, hp => by
    simp only [isPlain, decide_eq_true_eq] at hp
    rw [printObject, int_printed hp]
    rfl
  | .string s, hp => by
    simp only [isPlain, nulFree, decide_eq_true_eq] at hp
    rw [printObject, string_printed hp]
    rfl
  | .list items, hp => by
    rw [isPlain] at hp
    rw [printObject, rootToObject, if_pos (by decide), dataToItems, if_pos (by decide),
      valuesToItems_printed hp, hasEmptyKey]
    cases haveEmptyKey items <;> rfl
  | .map entries, hp => by
    rw [isPlain] at hp
    rw [printObject, rootToObject, if_neg (by decide), if_pos (by decide),
      membersToEntries_printed hp (by simp), hasEmptyKey]
    cases entriesHaveEmptyKey entries <;> rfl
  | .none, hp | .rawString _, hp | .dictKey _ _ _, hp => by simp [isPlain] at hp

theorem valuesToItems_printed : ∀ {items : List Object}, arePlain nulFree items = true →
    valuesToItems (printItems items) = if haveEmptyKey items then .error emptyName else .ok items
  | [], _ => by
    rw [printItems, valuesToItems]
    rfl
  | item :: items, hp => by
    rw [arePlain, Bool.and_eq_true] at hp
    rw [printItems, valuesToItems, isNamed_element, if_pos (by decide), valueToObject,
      if_neg (by decide), rootToObject_printed hp.1, valuesToItems_printed hp.2, haveEmptyKey]
    cases hasEmptyKey item <;> cases haveEmptyKey items <;> rfl

theorem membersToEntries_printed : ∀ {entries before : List (Text × Object)},
    entriesPlain nulFree entries = true → (∀ e ∈ entries, ∀ e' ∈ before, e'.1 < e.1) →
      membersToEntries before (printEntries entries) =
        if entriesHaveEmptyKey entries then .error emptyName else .ok (before ++ entries)
  | [], before, _, _ => by
    rw [printEntries, membersToEntries, List.append_nil]
    rfl
  | (key, obj) :: entries, before, hp, hb => by
    simp only [entriesPlain, Bool.and_eq_true, List.all_eq_true, decide_eq_true_eq, nulFree] at hp
    obtain ⟨⟨⟨hkey, hsorted⟩, hobj⟩, hentries⟩ := hp
    have hfirst : firstValueToObject [.element "name".toList (pushText key),
        .element "value".toList [printObject obj]] = rootToObject (printObject obj) := by
      rw [firstValueToObject, isNamed_element, if_neg (by decide), firstValueToObject,
        isNamed_element, if_pos (by decide), valueToObject, if_neg (by decide)]
    have hlast : insertEntry key obj before = before ++ [(key, obj)] :=
      insertEntry_last (hb _ List.mem_cons_self)
    have hnext : ∀ e ∈ entries, ∀ e' ∈ before ++ [(key, obj)], e'.1 < e.1 := by
      intro e he e' he'
      rcases List.mem_append.mp he' with he' | he'
      · exact hb e (List.mem_cons_of_mem _ he) e' he'
      · rw [List.mem_singleton.mp he']
        exact hsorted e he
    have ih := membersToEntries_printed hentries hnext
    rw [List.append_assoc, List.singleton_append, ← hlast] at ih
    rw [printEntries, membersToEntries, if_pos (by decide), List.find?_cons_of_pos rfl]
    simp only [getText_name hkey, entriesHaveEmptyKey, hfirst, rootToObject_printed hobj]
    cases key with
    | nil => rfl
    | cons c key =>
      by_cases he : hasEmptyKey obj = true
      · simp only [he, if_true]
        rfl
      · simp only [he]
        exact ih

end

/-- A plain object without nul bytes is read as it was printed exactly when no map in it has
the empty key. -/
theorem xml_round_trip_iff (o : Object) (hp : isPlain nulFree o = true) :
    valueToObject (.element "value".toList [printObject o]) = .ok o ↔ hasEmptyKey o = false := by
  rw [valueToObject, if_neg (by decide), rootToObject_printed hp]
  cases hasEmptyKey o <;> simp

theorem list_xml_round_trip :
    valueToObject (.element "value".toList
        [printObject (.list [.value (-1), .map [("a".toList, .string [])]])]) =
      .ok (.list [.value (-1), .map [("a".toList, .string [])]]) :=
  (xml_round_trip_iff _ (by decide +kernel)).mpr rfl

theorem empty_key_refused :
    isPlain nulFree (.map [([], .value 1)]) = true ∧
      valueToObject (.element "value".toList [printObject (.map [([], .value 1)])]) =
        readError xmlrpcParseError "struct member has an empty name element" := by
  constructor
  · decide
  · rfl

end ObjectRoundTrips
