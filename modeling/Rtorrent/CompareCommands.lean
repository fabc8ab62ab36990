import Mathlib.Data.Char
import Mathlib.Data.List.Lex
import Mathlib.Data.Prod.Lex
import Rtorrent.CommandScheduler
import Rtorrent.LexicographicOrders
import Rtorrent.RpcIntegers
import Rtorrent.UiConditionals

/-! # The comparison commands

`less`, `greater` and `equal` look at the sign of one difference, `compare` goes through a list of
fields. -/
namespace CompareCommands

open FallibleRuns RpcTextParser RpcCommandParser RpcValueParser RpcIntegers LexicographicOrders
open CommandScheduler (asString)
open UiConditionals (runText)

inductive ObjectType where
  | none
  | value
  | string
  | rawString
  | list
  | map
  | dictKey
  deriving DecidableEq, Repr

def typeOf : Object → ObjectType
  | .none => .none
  | .value _ => .value
  | .string _ => .string
  | .rawString _ => .rawString
  | .list _ => .list
  | .map _ => .map
  | .dictKey _ _ _ => .dictKey

def asValue : Object → Except Failure ℤ
  | .value v => .ok v
  | _ => inputError "Wrong object type."

structure CallTarget where
  first : ℕ
  second : ℕ
  third : ℕ
  deriving DecidableEq, Repr

def targetDownload : ℕ := 2
def targetDownloadPair : ℕ := 7

def makeTarget (d : ℕ) : CallTarget := ⟨targetDownload, d, 0⟩
def makeTargetPair (d e : ℕ) : CallTarget := ⟨targetDownloadPair, d, e⟩

namespace CallTarget

def isPair (target : CallTarget) : Bool := targetDownloadPair ≤ target.first
def left (target : CallTarget) : CallTarget := ⟨target.first - 5, target.second, 0⟩
def right (target : CallTarget) : CallTarget := ⟨target.first - 5, target.third, 0⟩

@[simp] theorem left_pair (d e : ℕ) : (makeTargetPair d e).left = makeTarget d := rfl

@[simp] theorem right_pair (d e : ℕ) : (makeTargetPair d e).right = makeTarget e := rfl

def side1 (target : CallTarget) : CallTarget := if target.isPair then target.left else target
def side2 (target : CallTarget) : CallTarget := if target.isPair then target.right else target

end CallTarget

def bit (b : Bool) : Object := .value (if b then 1 else 0)

/-- The sign of `std::string::compare`. -/
def compareText (a b : Text) : ℤ := if a < b then -1 else if a = b then 0 else 1

/-- What `apply_cmp` makes of two results of one type. -/
def difference : Object → Object → Object
  | .value a, .value b => .value (wrap (a - b))
  | .string a, .string b => .value (compareText a b)
  | _, _ => .none

def answer (test : ℤ → Bool) : Object → Object
  | .value v => bit (test v)
  | _ => bit false

def descends : Text → Bool
  | c :: _ => c == 'd' || c == 'D' || c == '-'
  | [] => false

def ascends : Text → Bool
  | c :: _ => c == 'a' || c == 'A' || c == '+'
  | [] => false

def decided (descending : Bool) : Object → Object → Option Bool
  | .value a, .value b => if a ≠ b then some (descending ^^ decide (a < b)) else none
  | .string a, .string b => if a ≠ b then some (descending ^^ decide (a < b)) else none
  | _, _ => none

section

variable {σ : Type} (call : CallCommand σ CallTarget)

def runCommand (target : CallTarget) : Object → CommandRun σ Object
  | .dictKey _ key obj => call (cString key) obj target
  | obj => do
    let text ← Run.ofExcept (asString obj)
    runText call target text

def applyCmp (target : CallTarget) : List Object → CommandRun σ Object
  | [] => Run.ofExcept (inputError "Wrong argument count.")
  | front :: rest => do
    let result1 ← runCommand call target.side1 front
    let result2 ← runCommand call target.side2 (rest.getLastD front)
    if typeOf result1 ≠ typeOf result2 then Run.ofExcept (inputError "Type mismatch.")
    else pure (difference result1 result2)

def applyTest (test : ℤ → Bool) (target : CallTarget) (args : List Object) :
    CommandRun σ Object := do
  let result ← applyCmp call target args
  pure (answer test result)

def applyLess : CallTarget → List Object → CommandRun σ Object := applyTest call (· < 0)
def applyGreater : CallTarget → List Object → CommandRun σ Object := applyTest call (· > 0)
def applyEqual : CallTarget → List Object → CommandRun σ Object := applyTest call (· == 0)

/-- The loop of `apply_compare`; `current` is the order from the pointer on. -/
def compareFields (target : CallTarget) (order : Text) :
    Text → List Object → CommandRun σ Object
  | _, [] => pure (bit (target.second < target.third))
  | current, item :: items => do
    let field ← Run.ofExcept (asString item)
    let result1 ← runText call target.left field
    let result2 ← runText call target.right field
    if typeOf result1 ≠ typeOf result2 then
      Run.ofExcept (inputError ("Type mismatch in compare of " ++ String.ofList field))
    else if ¬current.isEmpty ∧ ¬descends current ∧ ¬ascends current then
      Run.ofExcept (inputError
        ("Bad order '" ++ String.ofList (current.take 1) ++ "' in " ++ String.ofList order))
    else match decided (descends current) result1 result2 with
      | some b => pure (bit b)
      | none => compareFields target order current.tail items

def applyCompare (target : CallTarget) (args : List Object) : CommandRun σ Object :=
  if ¬target.isPair then Run.ofExcept (inputError "Can only compare a target pair.")
  else match args with
    | first :: field :: fields => do
      let order ← Run.ofExcept (asString first)
      compareFields call target order (cString order) (field :: fields)
    | _ => Run.ofExcept (inputError "Need at least order and one field.")

/-- The comparison that a view sorts with. The log is left out. -/
def viewDownloadsCompare (command : Object) (d1 d2 : ℕ) : CommandRun σ Bool :=
  Run.handle
    (match command with
    | .none => pure false
    | command => do
      let result ← runCommand call (makeTargetPair d1 d2) command
      let value ← Run.ofExcept (asValue result)
      pure (value != 0))
    fun
    | .error .inputError _ | .error .untrustedError _ => pure false
    | e => Run.fail e

/-- A command that gives values of one type for all downloads, whatever else it does. -/
structure Field where
  command : Object
  value : ℕ → Object
  type : ObjectType
  typed : ∀ d, typeOf (value d) = type
  gives : ∀ d s, ∃ t, runCommand call (makeTarget d) command s = (.ok (value d), t)

def Compares (target : CallTarget) (args : List Object) (s : σ) (r1 r2 : Object) (u : σ) : Prop :=
  ∃ front rest t, args = front :: rest ∧
    runCommand call target.side1 front s = (.ok r1, t) ∧
    runCommand call target.side2 (rest.getLastD front) t = (.ok r2, u)

end

/-- Integers by size and strings by their bytes. Objects of other types are not ordered. -/
def precedes : Object → Object → Bool
  | .value a, .value b => a < b
  | .string a, .string b => a < b
  | _, _ => false

def agrees : Object → Object → Bool
  | .value a, .value b => a = b
  | .string a, .string b => a = b
  | _, _ => false

def fits : Object → Object → Bool
  | .value a, .value b => isInt64 (a - b)
  | _, _ => true

def isObject64 : Object → Bool
  | .value v => isInt64 v
  | _ => true

def valueKey : Object → ℤ
  | .value v => v
  | _ => 0

def textKey : Object → Text
  | .string s => s
  | _ => []

theorem typeOf_value {obj : Object} (h : typeOf obj = .value) : obj = .value (valueKey obj) := by
  cases obj with
  | value v => rfl
  | _ => cases h

theorem typeOf_string {obj : Object} (h : typeOf obj = .string) : obj = .string (textKey obj) := by
  cases obj with
  | string s => rfl
  | _ => cases h

/-- What two objects of one type are ordered by. All other objects are alike. -/
def orderKey : Object → ℤ ×ₗ Text
  | .value v => toLex (v, [])
  | .string s => toLex (0, s)
  | _ => toLex (0, [])

theorem precedes_iff {a b : Object} (h : typeOf a = typeOf b) :
    precedes a b = true ↔ orderKey a < orderKey b := by
  cases a with
  | value v =>
    rw [typeOf_value h.symm]
    simp [precedes, orderKey, Prod.Lex.toLex_lt_toLex]
  | string s =>
    rw [typeOf_string h.symm]
    simp [precedes, orderKey, Prod.Lex.toLex_lt_toLex]
  | _ => cases b <;> simp_all [typeOf, precedes, orderKey]

theorem ordered_ne_iff {a b : Object} (h : typeOf a = typeOf b) :
    (typeOf a = .value ∨ typeOf a = .string) ∧ a ≠ b ↔ orderKey a ≠ orderKey b := by
  cases a with
  | value v =>
    rw [typeOf_value h.symm]
    simp [typeOf, orderKey]
  | string s =>
    rw [typeOf_string h.symm]
    simp [typeOf, orderKey]
  | _ => cases b <;> simp_all [typeOf, orderKey]

theorem decided_eq {a b : Object} (h : typeOf a = typeOf b) (descending : Bool) :
    decided descending a b =
      if orderKey a = orderKey b then none else some (descending ^^ precedes a b) := by
  cases a with
  | value v =>
    rw [typeOf_value h.symm]
    simp [decided, precedes, orderKey]
  | string s =>
    rw [typeOf_string h.symm]
    simp [decided, precedes, orderKey]
  | _ => cases b <;> simp_all [typeOf, decided, orderKey]

theorem precedes_weak {α : Type*} {value : α → Object} {type : ObjectType}
    (h : ∀ d, typeOf (value d) = type) :
    IsStrictWeakOrder α fun d e => precedes (value d) (value e) = true := by
  simp only [precedes_iff ((h _).trans (h _).symm)]
  exact key_weak fun d => orderKey (value d)

variable {a b : ℤ}

theorem wrap_difference (ha : isInt64 a = true) (hb : isInt64 b = true) :
    isInt64 (a - b) = true ∧ wrap (a - b) = a - b ∨
    2 ^ 63 ≤ a - b ∧ wrap (a - b) = a - b - 2 ^ 64 ∨
    a - b < -2 ^ 63 ∧ wrap (a - b) = a - b + 2 ^ 64 := by
  by_cases hfit : isInt64 (a - b) = true
  · exact .inl ⟨hfit, (wrap_eq_self_iff _).mpr hfit⟩
  · rw [isInt64_iff] at ha hb hfit
    rw [wrap, Int.bmod_def]
    split <;> omega

theorem wrap_signs_iff (ha : isInt64 a = true) (hb : isInt64 b = true) :
    (wrap (a - b) < 0 ↔ a < b) ∧ (wrap (a - b) > 0 ↔ b < a) ∧ (wrap (a - b) = 0 ↔ a = b) ↔
      isInt64 (a - b) = true := by
  rcases wrap_difference ha hb with ⟨hfit, hw⟩ | ⟨hd, hw⟩ | ⟨hd, hw⟩
  · rw [hw]
    simp only [hfit, iff_true]
    omega
  all_goals
    rw [hw]
    rw [isInt64_iff] at ha hb ⊢
    omega

theorem compareText_signs (a b : Text) :
    (compareText a b < 0 ↔ a < b) ∧ (compareText a b > 0 ↔ b < a) ∧
      (compareText a b = 0 ↔ a = b) := by
  unfold compareText
  rcases lt_trichotomy a b with h | rfl | h
  · simp [h, h.ne, not_lt_of_gt h]
  · simp
  · simp [h, h.ne', not_lt_of_gt h]

theorem bit_injective {b c : Bool} (h : bit b = bit c) : b = c := by
  cases b <;> cases c <;> first | rfl | simp [bit] at h

section

variable {σ : Type} {call : CallCommand σ CallTarget} {target : CallTarget} {args : List Object}
  {s u : σ} {r1 r2 : Object}

theorem applyTest_of_compares (h : Compares call target args s r1 r2 u) (ht : typeOf r1 = typeOf r2)
    (test : ℤ → Bool) :
    applyTest call test target args s = (.ok (answer test (difference r1 r2)), u) := by
  obtain ⟨front, rest, t, rfl, h1, h2⟩ := h
  have hcmp : applyCmp call target (front :: rest) s = (.ok (difference r1 r2), u) := by
    rw [applyCmp, Run.bind_of_ok h1, Run.bind_of_ok h2, if_neg (not_not_intro ht)]
    rfl
  rw [applyTest, Run.bind_of_ok hcmp]
  rfl

/-- The three commands answer as the order of the results has it. -/
structure Exact (call : CallCommand σ CallTarget) (target : CallTarget) (args : List Object)
    (s : σ) (r1 r2 : Object) (u : σ) : Prop where
  less : applyLess call target args s = (.ok (bit (precedes r1 r2)), u)
  greater : applyGreater call target args s = (.ok (bit (precedes r2 r1)), u)
  equal : applyEqual call target args s = (.ok (bit (agrees r1 r2)), u)

theorem exact_iff_answers (h : Compares call target args s r1 r2 u) (ht : typeOf r1 = typeOf r2) :
    Exact call target args s r1 r2 u ↔
      answer (· < 0) (difference r1 r2) = bit (precedes r1 r2) ∧
      answer (· > 0) (difference r1 r2) = bit (precedes r2 r1) ∧
      answer (· == 0) (difference r1 r2) = bit (agrees r1 r2) := by
  have hd := applyTest_of_compares h ht
  constructor
  · rintro ⟨hl, hg, he⟩
    rw [applyLess, hd] at hl
    rw [applyGreater, hd] at hg
    rw [applyEqual, hd] at he
    simp only [Prod.mk.injEq, Except.ok.injEq, and_true] at hl hg he
    exact ⟨hl, hg, he⟩
  · rintro ⟨hl, hg, he⟩
    refine ⟨?_, ?_, ?_⟩
    · rw [applyLess, hd, hl]
    · rw [applyGreater, hd, hg]
    · rw [applyEqual, hd, he]

theorem bit_decide {p q : Prop} [Decidable p] [Decidable q] :
    bit (decide p) = bit (decide q) ↔ (p ↔ q) :=
  ⟨fun h => decide_eq_decide.mp (bit_injective h), fun h => by rw [decide_eq_decide.mpr h]⟩

theorem exact_iff (h : Compares call target args s r1 r2 u) (ht : typeOf r1 = typeOf r2)
    (h1 : isObject64 r1 = true) (h2 : isObject64 r2 = true) :
    Exact call target args s r1 r2 u ↔ fits r1 r2 = true := by
  rw [exact_iff_answers h ht]
  cases r1 with
  | value a =>
    rw [typeOf_value ht.symm] at h2 ⊢
    exact Iff.trans (and_congr bit_decide (and_congr bit_decide bit_decide)) (wrap_signs_iff h1 h2)
  | string a =>
    rw [typeOf_string ht.symm]
    have hs := compareText_signs a (textKey r2)
    exact iff_of_true ⟨bit_decide.mpr hs.1, bit_decide.mpr hs.2.1, bit_decide.mpr hs.2.2⟩ rfl
  | _ =>
    cases r2 with
    | value b => cases ht
    | string b => cases ht
    | _ => simp [difference, answer, precedes, agrees, fits]

theorem Field.same (f : Field call) (d e : ℕ) : typeOf (f.value d) = typeOf (f.value e) :=
  (f.typed d).trans (f.typed e).symm

theorem Field.compares (f : Field call) (d e : ℕ) (s : σ) :
    ∃ u, Compares call (makeTargetPair d e) [f.command] s (f.value d) (f.value e) u := by
  obtain ⟨t, ht⟩ := f.gives d s
  obtain ⟨u, hu⟩ := f.gives e t
  exact ⟨u, f.command, [], t, rfl, ht, hu⟩

def IsLess (call : CallCommand σ CallTarget) (command field : Object) : Prop :=
  typeOf command ≠ .none ∧
    ∀ d e, runCommand call (makeTargetPair d e) command =
      applyLess call (makeTargetPair d e) [field]

def Sorts (call : CallCommand σ CallTarget) (command : Object) (s : σ) (d e : ℕ) : Prop :=
  (viewDownloadsCompare call command d e s).1 = .ok true

theorem viewDownloadsCompare_of_bit {command : Object} (hn : typeOf command ≠ .none) {d e : ℕ}
    {t : σ} {b : Bool}
    (h : runCommand call (makeTargetPair d e) command s = (.ok (bit b), t)) :
    viewDownloadsCompare call command d e s = (.ok b, t) := by
  cases command with
  | none => exact absurd rfl hn
  | _ =>
    simp only [viewDownloadsCompare, Run.handle, Run.bind_of_ok h]
    cases b <;> rfl

theorem sorts_iff {f : Field call} {command : Object} (hc : IsLess call command f.command) {d e : ℕ}
    (hx : ∀ u, Compares call (makeTargetPair d e) [f.command] s (f.value d) (f.value e) u →
      Exact call (makeTargetPair d e) [f.command] s (f.value d) (f.value e) u) :
    Sorts call command s d e ↔ precedes (f.value d) (f.value e) = true := by
  obtain ⟨u, hu⟩ := f.compares d e s
  have hl := (hx u hu).less
  rw [← hc.2 d e] at hl
  rw [Sorts, viewDownloadsCompare_of_bit hc.1 hl]
  simp

theorem comparisons_exact_iff (call : CallCommand σ CallTarget) :
    (∀ target args s u r1 r2, Compares call target args s r1 r2 u → typeOf r1 = typeOf r2 →
      isObject64 r1 = true → isObject64 r2 = true →
      (Exact call target args s r1 r2 u ↔ fits r1 r2 = true)) ∧
    ∀ (f : Field call) (command : Object) (s : σ), IsLess call command f.command →
      (∀ d, isObject64 (f.value d) = true) →
      ((∀ d e u, Compares call (makeTargetPair d e) [f.command] s (f.value d) (f.value e) u →
          Exact call (makeTargetPair d e) [f.command] s (f.value d) (f.value e) u) ∧
        IsStrictWeakOrder ℕ (Sorts call command s) ↔
      ∀ d e, fits (f.value d) (f.value e) = true) := by
  refine ⟨fun _ _ _ _ _ _ h => exact_iff h, fun f command s hc h64 => ?_⟩
  constructor
  · rintro ⟨hx, -⟩ d e
    obtain ⟨u, hu⟩ := f.compares d e s
    exact (exact_iff hu (f.same d e) (h64 d) (h64 e)).mp (hx d e u hu)
  · intro hfits
    have hx : ∀ d e u, Compares call (makeTargetPair d e) [f.command] s (f.value d) (f.value e) u →
        Exact call (makeTargetPair d e) [f.command] s (f.value d) (f.value e) u :=
      fun d e u hu => (exact_iff hu (f.same d e) (h64 d) (h64 e)).mpr (hfits d e)
    have hr : Sorts call command s = fun d e => precedes (f.value d) (f.value e) = true := by
      funext d e
      exact propext (sorts_iff hc (hx d e))
    rw [hr]
    exact ⟨hx, precedes_weak f.typed⟩

end

def parity : CallCommand Unit CallTarget := fun _ _ target => pure (.value (target.second % 2))

def parityLess : CallCommand Unit CallTarget := fun key obj target =>
  if key = ['l', 'e', 's', 's'] then
    applyLess parity target [.dictKey .function ['p'] .none]
  else parity key obj target

def parityField : Field parityLess where
  command := .dictKey .function ['p'] .none
  value d := .value (d % 2)
  type := .value
  typed _ := rfl
  gives _ _ := ⟨(), rfl⟩

theorem comparisons_exact_iff_parity :
    (Exact parityLess (makeTargetPair 4 7) [parityField.command] ()
      (parityField.value 4) (parityField.value 7) () ↔
        fits (parityField.value 4) (parityField.value 7) = true) ∧
    IsStrictWeakOrder ℕ (Sorts parityLess (.dictKey .function ['l', 'e', 's', 's'] .none) ()) := by
  have hbits : ∀ d, isObject64 (parityField.value d) = true := fun d => isInt64_iff.mpr (by omega)
  refine ⟨(comparisons_exact_iff parityLess).1 _ _ _ _ _ _ ⟨_, [], (), rfl, rfl, rfl⟩ rfl
    (hbits 4) (hbits 7), ?_⟩
  refine (((comparisons_exact_iff parityLess).2 parityField
    (.dictKey .function ['l', 'e', 's', 's'] .none) () ⟨by decide, fun d e => rfl⟩ hbits).mpr
      fun d e => ?_).2
  exact isInt64_iff.mpr (by omega)

def extremes : CallCommand Unit CallTarget := fun _ _ target =>
  pure (.value (if target.second = 0 then int64Min else if target.second = 1 then 0 else int64Max))

/-- The least integer is not less than the greatest one, though zero lies between them. -/
theorem less_wraps :
    applyLess extremes (makeTargetPair 0 1) [.dictKey .function ['x'] .none] () =
      (.ok (bit true), ()) ∧
    applyLess extremes (makeTargetPair 1 2) [.dictKey .function ['x'] .none] () =
      (.ok (bit true), ()) ∧
    applyLess extremes (makeTargetPair 0 2) [.dictKey .function ['x'] .none] () =
      (.ok (bit false), ()) ∧
    precedes (.value int64Min) (.value int64Max) = true :=
  ⟨rfl, rfl, rfl, rfl⟩

def isOrderLetter (c : Char) : Bool := descends [c] || ascends [c]

section

variable {σ : Type} {call : CallCommand σ CallTarget}

def Field.Before (f : Field call) (descending : Bool) (d e : ℕ) : Prop :=
  if descending then precedes (f.value e) (f.value d) = true
  else precedes (f.value d) (f.value e) = true

/-- Objects of other types than integers and strings count as equal. -/
def Field.Differs (f : Field call) (d e : ℕ) : Prop :=
  (f.type = .value ∨ f.type = .string) ∧ f.value d ≠ f.value e

/-- The fields with their directions. An order that is too short leaves the rest ascending. -/
def criteria : Text → List (Field call) → List (ℕ → ℕ → Prop)
  | _, [] => []
  | current, f :: fields => f.Before (descends current) :: criteria current.tail fields

/-- What `compare` answers for two downloads in a state of the program. -/
def Ranks (call : CallCommand σ CallTarget) (order : Text) (fields : List (Field call)) (s : σ)
    (d e : ℕ) (b : Bool) : Prop :=
  (applyCompare call (makeTargetPair d e) (.string order :: fields.map Field.command) s).1 =
    .ok (bit b)

theorem Field.before_weak (f : Field call) (descending : Bool) :
    IsStrictWeakOrder ℕ (f.Before descending) := by
  cases descending with
  | false => exact precedes_weak f.typed
  | true => exact flip_weak (precedes_weak f.typed)

theorem criteria_weak (current : Text) (fields : List (Field call)) :
    ∀ r ∈ criteria current fields, IsStrictWeakOrder ℕ r := by
  induction fields generalizing current with
  | nil => simp [criteria]
  | cons f fields ih => exact List.forall_mem_cons.mpr ⟨f.before_weak _, ih _⟩

variable {f : Field call} {d e : ℕ}

theorem Field.differs_iff (f : Field call) (d e : ℕ) :
    f.Differs d e ↔ orderKey (f.value d) ≠ orderKey (f.value e) := by
  rw [Field.Differs, ← f.typed d]
  exact ordered_ne_iff (f.same d e)

theorem Field.before_iff (f : Field call) (descending : Bool) (d e : ℕ) :
    f.Before descending d e ↔ if descending then orderKey (f.value e) < orderKey (f.value d)
      else orderKey (f.value d) < orderKey (f.value e) := by
  rw [Field.Before, precedes_iff (f.same d e), precedes_iff (f.same e d)]

theorem Field.tied_iff (f : Field call) (descending : Bool) (d e : ℕ) :
    Tied (f.Before descending) d e ↔ ¬f.Differs d e := by
  rw [Tied, f.before_iff, f.before_iff, f.differs_iff, not_not,
    le_antisymm_iff (a := orderKey (f.value d))]
  cases descending <;> simp [and_comm]

theorem Field.decided_before (h : f.Differs d e) (descending : Bool) :
    (descending ^^ precedes (f.value d) (f.value e)) = true ↔ f.Before descending d e := by
  cases descending with
  | false => simp [Field.Before]
  | true =>
    have hne := (f.differs_iff d e).mp h
    rw [Bool.true_xor, Bool.not_eq_true', ← Bool.not_eq_true, precedes_iff (f.same d e),
      f.before_iff, if_pos rfl, not_lt]
    exact ⟨fun hle => lt_of_le_of_ne hle hne.symm, le_of_lt⟩

theorem descends_or_ascends {current : Text} (h : ∀ c ∈ current, isOrderLetter c = true) :
    ¬(¬current.isEmpty ∧ ¬descends current ∧ ¬ascends current) := by
  cases current with
  | nil => simp
  | cons c current =>
    have hc := h c List.mem_cons_self
    rw [isOrderLetter, Bool.or_eq_true] at hc
    rintro ⟨-, hd, ha⟩
    exact hc.elim hd ha

theorem Field.runText_gives (h : typeOf f.command = .string) (d : ℕ) (s : σ) :
    ∃ t, runText call (makeTarget d) (textKey f.command) s = (.ok (f.value d), t) := by
  obtain ⟨t, ht⟩ := f.gives d s
  rw [typeOf_string h] at ht
  exact ⟨t, ht⟩

variable {fields : List (Field call)}

theorem compareFields_lex (htext : ∀ f ∈ fields, typeOf f.command = .string) {current : Text}
    (hletters : ∀ c ∈ current, isOrderLetter c = true) (order : Text) (d e : ℕ) (s : σ) :
    ∃ b t, compareFields call (makeTargetPair d e) order current (fields.map Field.command) s =
        (.ok (bit b), t) ∧
      (b = true ↔ lex (· < ·) (criteria current fields) d e) := by
  induction fields generalizing current s with
  | nil => exact ⟨decide (d < e), s, rfl, decide_eq_true_iff⟩
  | cons f fields ih =>
    rw [List.forall_mem_cons] at htext
    obtain ⟨t, ht⟩ := f.runText_gives htext.1 d s
    obtain ⟨u, hu⟩ := f.runText_gives htext.1 e t
    have hsame := f.same d e
    have hstep : compareFields call (makeTargetPair d e) order current
        ((f :: fields).map Field.command) s =
          (match decided (descends current) (f.value d) (f.value e) with
          | some b => (pure (bit b) : CommandRun σ Object)
          | none => compareFields call (makeTargetPair d e) order current.tail
            (fields.map Field.command)) u := by
      rw [List.map_cons, typeOf_string htext.1, compareFields, asString, Run.ofExcept_ok_bind,
        CallTarget.left_pair, CallTarget.right_pair]
      rw [Run.bind_of_ok ht, Run.bind_of_ok hu, if_neg (not_not_intro hsame),
        if_neg (descends_or_ascends hletters)]
    rw [hstep]
    by_cases hdiff : f.Differs d e
    · rw [decided_eq hsame, if_neg ((f.differs_iff d e).mp hdiff)]
      refine ⟨_, u, rfl, (f.decided_before hdiff _).trans ?_⟩
      have hnt : ¬Tied (f.Before (descends current)) d e := fun h =>
        (f.tied_iff _ d e).mp h hdiff
      exact (or_iff_left fun h => hnt h.1).symm
    · rw [decided_eq hsame, if_pos (not_not.mp (mt (f.differs_iff d e).mpr hdiff))]
      have htail : ∀ c ∈ current.tail, isOrderLetter c = true := fun c hc =>
        hletters c (List.mem_of_mem_tail hc)
      obtain ⟨b, t', hb, hiff⟩ := ih htext.2 htail u
      have htied := (f.tied_iff (descends current) d e).mpr hdiff
      refine ⟨b, t', hb, hiff.trans ?_⟩
      exact ⟨fun h => .inr ⟨htied, h⟩, fun h => (h.resolve_left htied.1).2⟩

theorem applyCompare_pair (d e : ℕ) (order : Text) (item : Object) (items : List Object) :
    applyCompare call (makeTargetPair d e) (.string order :: item :: items) =
      compareFields call (makeTargetPair d e) order (cString order) (item :: items) := rfl

theorem cString_order {order : Text} (h : ∀ c ∈ order, isOrderLetter c = true) :
    cString order = order :=
  cString_of_not_mem fun hz => absurd (h _ hz) (by decide)

theorem ranks_iff {order : Text} (horder : ∀ c ∈ order, isOrderLetter c = true) (hne : fields ≠ [])
    (htext : ∀ f ∈ fields, typeOf f.command = .string) (s : σ) (d e : ℕ) (b : Bool) :
    Ranks call order fields s d e b ↔ (b = true ↔ lex (· < ·) (criteria order fields) d e) := by
  obtain ⟨c, t, hc, hiff⟩ := compareFields_lex htext horder order d e s
  have hanswer : applyCompare call (makeTargetPair d e)
      (.string order :: fields.map Field.command) s = (.ok (bit c), t) := by
    cases fields with
    | nil => exact absurd rfl hne
    | cons f fields =>
      rw [List.map_cons, applyCompare_pair, cString_order horder]
      exact hc
  rw [Ranks, hanswer, Except.ok.injEq, ← hiff]
  constructor
  · intro h
    rw [bit_injective h]
  · intro h
    rw [Bool.eq_iff_iff.mpr h]

theorem criteria_append (current : Text) (before : List (Field call)) (f : Field call)
    (after : List (Field call)) :
    criteria current (before ++ f :: after) =
      criteria current before ++ f.Before (descends (current.drop before.length)) ::
        criteria (current.drop before.length).tail after := by
  induction before generalizing current with
  | nil => rfl
  | cons g before ih =>
    rw [List.cons_append, criteria, ih, criteria, List.cons_append, List.length_cons,
      ← List.drop_one, List.drop_drop, Nat.add_comm]

theorem criteria_tied (h : ∀ f ∈ fields, ¬f.Differs d e) (current : Text) :
    ∀ r ∈ criteria current fields, Tied r d e := by
  induction fields generalizing current with
  | nil => simp [criteria]
  | cons f fields ih =>
    rw [List.forall_mem_cons] at h
    exact List.forall_mem_cons.mpr ⟨(f.tied_iff _ d e).mpr h.1, ih h.2 _⟩

theorem address_total : IsStrictTotalOrder ℕ (· < ·) where
  irrefl := Nat.lt_irrefl
  trans _ _ _ := Nat.lt_trans
  trichotomous _ _ h h' := Nat.le_antisymm (Nat.le_of_not_lt h') (Nat.le_of_not_lt h)

theorem compare_strict_total {order : Text} {fields : List (Field call)}
    (horder : ∀ c ∈ order, isOrderLetter c = true) (hne : fields ≠ [])
    (htext : ∀ f ∈ fields, typeOf f.command = .string) (s : σ) :
    (∀ d e, Ranks call order fields s d e true ∨ Ranks call order fields s d e false) ∧
    (∀ d, ¬Ranks call order fields s d d true) ∧
    (∀ d e g, Ranks call order fields s d e true → Ranks call order fields s e g true →
      Ranks call order fields s d g true) ∧
    (∀ d e, d ≠ e → (Ranks call order fields s d e true ↔ ¬Ranks call order fields s e d true)) ∧
    ∀ d e before f after, fields = before ++ f :: after → (∀ g ∈ before, ¬g.Differs d e) →
      f.Differs d e →
      (Ranks call order fields s d e true ↔
        f.Before (descends (order.drop before.length)) d e) := by
  have hweak := criteria_weak order fields
  simp only [ranks_iff horder hne htext, true_iff, Bool.false_eq_true, false_iff]
  refine ⟨fun d e => em _, fun d => lex_irrefl hweak address_total d,
    fun d e g => lex_trans hweak address_total, fun d e hde => ?_, ?_⟩
  · constructor
    · intro h h'
      exact lex_irrefl hweak address_total d (lex_trans hweak address_total h h')
    · exact (lex_total address_total hde).resolve_right
  · rintro d e before f after rfl hb hf
    rw [criteria_append]
    exact lex_of_tied (criteria_tied hb order) fun h => (f.tied_iff _ d e).mp h hf

end

def parityText : Field parity where
  command := .string ['p', '=']
  value d := .value (d % 2)
  type := .value
  typed _ := rfl
  gives _ _ := ⟨(), rfl⟩

theorem compare_strict_total_parity :
    Ranks parity ['-'] [parityText] () 3 2 true ∧ ¬Ranks parity ['-'] [parityText] () 2 3 true := by
  have horder : ∀ c ∈ ['-'], isOrderLetter c = true := by
    intro c hc
    obtain rfl := List.mem_singleton.mp hc
    rfl
  obtain ⟨-, -, -, hone, hlex⟩ := @compare_strict_total Unit parity ['-'] [parityText]
    horder (by simp) (by simp [parityText, typeOf]) ()
  have hrank : Ranks parity ['-'] [parityText] () 3 2 true :=
    (hlex 3 2 [] parityText [] rfl (by simp) ⟨.inl rfl, by simp [parityText]⟩).mpr
      (rfl : precedes (parityText.value 2) (parityText.value 3) = true)
  exact ⟨hrank, (hone 3 2 (by decide)).mp hrank⟩

end CompareCommands
