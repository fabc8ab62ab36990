import Rtorrent.RpcValueParser

/-! # Objects converted to values

The conversions for every type of `torrent::Object`, also for the raw types of which the parser
makes no object. -/
namespace ValueConversion

open RpcTextParser RpcValueParser

/-- An object with the ten types of `torrent::Object`. -/
inductive AnyObject where
  | none
  | rawBencode (s : Text)
  | rawString (s : Text)
  | rawList (s : Text)
  | rawMap (s : Text)
  | value (v : ℤ)
  | string (s : Text)
  | list (items : List AnyObject)
  | map (entries : List (Text × AnyObject))
  | dictKey (flag : FunctionFlag) (key : Text) (obj : AnyObject)

/-- A base that `strtoll` accepts. -/
structure Base where
  base : ℕ
  accepted : base = 0 ∨ 2 ≤ base ∧ base ≤ 36

/-- `unpacked`, the only element of a list with one element. -/
def unpacked : AnyObject → AnyObject
  | .list [item] => item
  | obj => obj

/-- The type is that of the unpacked object, and a raw string is taken from `src`. -/
def convertToValueNothrow (b : Base) (unit : ℤ) (src : AnyObject) : Except Failure (Option ℤ) :=
  match unpacked src with
  | .value v => .ok (some v)
  | .string s => wholeValue b.base unit s
  | .rawString _ =>
    match src with
    | .rawString s => wholeValue b.base unit s
    | _ => inputError "Wrong object type."
  | .none => .ok (some 0)
  | _ => .ok none

def convertToValue (b : Base) (unit : ℤ) (src : AnyObject) : Except Failure ℤ := do
  match ← convertToValueNothrow b unit src with
  | none => inputError "Not convertible to a value."
  | some value => .ok value

mutual

def ofObject : Object → AnyObject
  | .none => .none
  | .value v => .value v
  | .string s => .string s
  | .rawString s => .rawString s
  | .list items => .list (ofItems items)
  | .map entries => .map (ofEntries entries)
  | .dictKey flag key obj => .dictKey flag key (ofObject obj)

def ofItems : List Object → List AnyObject
  | [] => []
  | item :: items => ofObject item :: ofItems items

def ofEntries : List (Text × Object) → List (Text × AnyObject)
  | [] => []
  | (key, obj) :: entries => (key, ofObject obj) :: ofEntries entries

end

def defaultBase : Base := ⟨0, .inl rfl⟩

theorem unpacked_ofObject (src : Object) :
    unpacked (ofObject src) = ofObject (convertToSingleArgument src) := by
  cases src with
  | list items =>
    rw [ofObject]
    cases items with
    | nil => rw [ofItems, unpacked, convertToSingleArgument, ofObject, ofItems] <;> simp
    | cons item items =>
      cases items with
      | nil => rw [ofItems, ofItems, unpacked, convertToSingleArgument]
      | cons item' items =>
        rw [ofItems, ofItems, unpacked, convertToSingleArgument, ofObject, ofItems, ofItems] <;>
          simp
  | _ => rfl

theorem convertToValueNothrow_ofObject (b : Base) (unit : ℤ) (src : Object) :
    convertToValueNothrow b unit (ofObject src) =
      RpcValueParser.convertToValueNothrow b.base unit src := by
  unfold convertToValueNothrow RpcValueParser.convertToValueNothrow
  rw [unpacked_ofObject]
  cases convertToSingleArgument src with
  | rawString s =>
    cases src with
    | rawString s' => rfl
    | _ => rfl
  | _ => rfl

theorem convertToValue_ofObject (src : Object) :
    convertToValue defaultBase 1 (ofObject src) = RpcValueParser.convertToValue src := by
  rw [convertToValue, convertToValueNothrow_ofObject, RpcValueParser.convertToValue]
  rfl

/-- A value stands at the start of the text. -/
def StartsWithValue (b : Base) (unit : ℤ) (s : Text) : Prop :=
  ∃ r, parseValueNothrow b.base unit s = .ok (some r)

/-- A text that is converted starts with a value, and a raw string is not in a list. -/
def Convertible (b : Base) (unit : ℤ) (src : AnyObject) : Prop :=
  (∀ s, unpacked src = .string s → StartsWithValue b unit s) ∧
  ∀ s, unpacked src = .rawString s → src = .rawString s ∧ StartsWithValue b unit s

variable {b : Base} {unit : ℤ} {x : AnyObject}

theorem wholeValue_answers_iff {s : Text} :
    (∃ answer, wholeValue b.base unit s = .ok answer) ↔ StartsWithValue b unit s := by
  rw [wholeValue, parseValue, StartsWithValue]
  cases parseValueNothrow b.base unit s with
  | error e =>
    constructor
    · rintro ⟨answer, ha⟩
      cases ha
    · rintro ⟨r, hr⟩
      cases hr
  | ok r =>
    cases r with
    | none =>
      constructor
      · rintro ⟨answer, ha⟩
        cases ha
      · rintro ⟨r, hr⟩
        cases hr
    | some r => exact ⟨fun _ => ⟨r, rfl⟩, fun _ => ⟨_, rfl⟩⟩

theorem convertToValueNothrow_answers_iff :
    (∃ answer, convertToValueNothrow b unit x = .ok answer) ↔ Convertible b unit x := by
  unfold convertToValueNothrow Convertible
  cases hu : unpacked x with
  | string s =>
    rw [wholeValue_answers_iff]
    constructor
    · intro h
      constructor
      · intro s' hs
        cases hs
        exact h
      · intro s' hs
        cases hs
    · intro h
      exact h.1 s rfl
  | rawString s =>
    constructor
    · rintro ⟨answer, ha⟩
      constructor
      · intro s' hs
        cases hs
      intro s' hs
      cases hs
      cases x with
      | rawString s' =>
        cases hu
        exact ⟨rfl, wholeValue_answers_iff.mp ⟨answer, ha⟩⟩
      | _ => cases ha
    · intro h
      obtain ⟨rfl, ht⟩ := h.2 s rfl
      exact wholeValue_answers_iff.mpr ht
  | _ => simp

theorem convertToValue_of_answer {answer : Option ℤ}
    (h : convertToValueNothrow b unit x = .ok answer) :
    (∃ what, convertToValue b unit x = .error (.error .inputError what)) ↔ answer = none := by
  rw [convertToValue, h]
  cases answer with
  | none => exact ⟨fun _ => rfl, fun _ => ⟨_, rfl⟩⟩
  | some value =>
    constructor
    · rintro ⟨what, hw⟩
      cases hw
    · intro hn
      cases hn

theorem unpacked_of_not_single (h : ∀ y, x ≠ .list [y]) : unpacked x = x := by
  rw [unpacked]
  intro y hy
  exact h y hy

theorem convertToValueNothrow_single (h : ∀ y, x ≠ .list [y]) (hr : ∀ s, x ≠ .rawString s) :
    convertToValueNothrow b unit (.list [x]) = convertToValueNothrow b unit x := by
  unfold convertToValueNothrow
  rw [unpacked_of_not_single h, unpacked]
  cases x with
  | rawString s => exact absurd rfl (hr s)
  | _ => rfl

/-- Unless it is a text without a value at its start or a raw string in a list, an object is
converted without an error, is refused by the throwing conversion if it has no value, and has the
same value in a list of its own. -/
theorem convertToValue_spec {b : Base} {unit : ℤ} {x : AnyObject} (hx : Convertible b unit x) :
    (∃ answer, convertToValueNothrow b unit x = .ok answer) ∧
    ((∃ what, convertToValue b unit x = .error (.error .inputError what)) ↔
      convertToValueNothrow b unit x = .ok none) ∧
    ((∀ y, x ≠ .list [y]) → (∀ s, x ≠ .rawString s) →
      convertToValueNothrow b unit (.list [x]) = convertToValueNothrow b unit x) ∧
    ((∃ y, x = .list [y]) → convertToValueNothrow b unit (.list [x]) = .ok none) := by
  obtain ⟨answer, ha⟩ := convertToValueNothrow_answers_iff.mpr hx
  refine ⟨⟨answer, ha⟩, ?_, convertToValueNothrow_single, ?_⟩
  · rw [convertToValue_of_answer ha, ha]
    exact ⟨fun h => by rw [h], fun h => by cases h; rfl⟩
  · rintro ⟨y, rfl⟩
    rfl

/-- The text `7k` has a value, in a list and outside. -/
theorem convertToValue_spec_kilo :
    (∃ answer, convertToValueNothrow defaultBase 1 (.string ['7', 'k']) = .ok answer) ∧
    convertToValueNothrow defaultBase 1 (.list [.string ['7', 'k']]) =
      convertToValueNothrow defaultBase 1 (.string ['7', 'k']) := by
  have hv : Convertible defaultBase 1 (.string ['7', 'k']) := by
    constructor
    · intro s hs
      cases hs
      exact ⟨(7168, []), by decide⟩
    · intro s hs
      cases hs
  obtain ⟨ha, -, hl, -⟩ := convertToValue_spec hv
  exact ⟨ha, hl (fun y hy => by cases hy) (fun s hs => by cases hs)⟩

/-- The list with the list with 5 has no value, and the list with 5 has one. -/
theorem single_list_unpacked_once :
    convertToValueNothrow defaultBase 1 (.list [.value 5]) = .ok (some 5) ∧
    convertToValueNothrow defaultBase 1 (.list [.list [.value 5]]) = .ok none :=
  ⟨rfl, rfl⟩

end ValueConversion
