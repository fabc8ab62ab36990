import Mathlib.Data.Int.Order.Basic
import Rtorrent.NestedFolds
import Rtorrent.ValueCommands

/-! # The arithmetic commands

The arguments are a nested list of integers and texts of integers, where a list stands for the
result of the same command. -/
namespace MathCommands

open RpcTextParser RpcValueParser NestedFolds
open RpcIntegers (isInt64 isInt64_iff wrap wrap_eq_self_iff)
open ValueCommands (integerAt multiplier behindSuffix exactValue parseValueNothrow_exact)

mutual

def operand (read : Object → Except Failure ℤ) (empty : Failure)
    (step : ℤ → ℤ → Except Failure ℤ) : Object → Except Failure ℤ
  | .list items => applyArgs read empty step items
  | obj => read obj

/-- The first argument is taken as it is. -/
def applyArgs (read : Object → Except Failure ℤ) (empty : Failure)
    (step : ℤ → ℤ → Except Failure ℤ) : List Object → Except Failure ℤ
  | [] => .error empty
  | item :: items => do
    let val ← operand read empty step item
    applyLoop read empty step val items

def applyLoop (read : Object → Except Failure ℤ) (empty : Failure)
    (step : ℤ → ℤ → Except Failure ℤ) : ℤ → List Object → Except Failure ℤ
  | val, [] => .ok val
  | val, item :: items => do
    let rhs ← operand read empty step item
    let val ← step val rhs
    applyLoop read empty step val items

end

def numberLeaf (wrongType : String) : Object → Except Failure ℤ
  | .value v => .ok v
  | .string s => convertToValue (.string s)
  | _ => inputError wrongType

def countLeaf (wrongType : String) : Object → Except Failure ℤ
  | .value _ | .string _ => .ok 1
  | _ => inputError wrongType

def divides (name : String) : Bool := name == "math.div" || name == "math.mod"

/-- One turn of `apply_math_basic` behind the first argument. -/
def mathStep (name : String) (op : ℤ → ℤ → ℤ) (val rhs : ℤ) : Except Failure ℤ :=
  if divides name ∧ rhs = 0 then inputError (name ++ ": Division by zero!")
  else if divides name ∧ val = int64Min ∧ rhs = -1 then
    inputError (name ++ ": Division overflow!")
  else .ok (op val rhs)

def noArguments (name : String) : Failure :=
  .error .inputError (name ++ ": No arguments provided!")

def applyMathBasic (name : String) (op : ℤ → ℤ → ℤ) (args : List Object) : Except Failure ℤ :=
  applyArgs (numberLeaf (name ++ ": Wrong argument type")) (noArguments name) (mathStep name op)
    args

def applyArithBasic (op : ℤ → ℤ → Bool) (args : List Object) : Except Failure ℤ :=
  applyArgs (numberLeaf "Wrong type supplied to apply_arith_basic.")
    (.error .inputError "Wrong argument count in apply_arith_basic.")
    (total fun val x => if op val x then val else x) args

/-- The count starts from nothing, so after the first argument it is what that one counts. -/
def applyArithCount (args : List Object) : Except Failure ℤ :=
  applyArgs (countLeaf "Wrong type supplied to apply_arith_count.")
    (.error .inputError "Wrong argument count in apply_arith_count.")
    (total fun val n => wrap (val + n)) args

/-- The division of the machine, which traps where there is no result. -/
def int64Div (a b : ℤ) : Option ℤ :=
  if b = 0 ∨ (a = int64Min ∧ b = -1) then none else some (Int.tdiv a b)

/-- `apply_arith_other` with "average". -/
def applyArithAverage (args : List Object) : Except Failure (Option ℤ) :=
  if args.isEmpty then inputError "Wrong argument count in apply_arith_other."
  else do
    let sum ← applyMathBasic "average" (fun a b => wrap (a + b)) args
    let count ← applyArithCount args
    .ok (int64Div sum count)

inductive MathCommand where
  | add
  | sub
  | mul
  | div
  | mod
  | avg
  deriving DecidableEq, Repr

/-- There is no value where the process is stopped by a trap. -/
def runMath (args : List Object) : MathCommand → Except Failure (Option ℤ)
  | .add => (applyMathBasic "math.add" (fun a b => wrap (a + b)) args).map some
  | .sub => (applyMathBasic "math.sub" (fun a b => wrap (a - b)) args).map some
  | .mul => (applyMathBasic "math.mul" (fun a b => wrap (a * b)) args).map some
  | .div => (applyMathBasic "math.div" (fun a b => wrap (Int.tdiv a b)) args).map some
  | .mod => (applyMathBasic "math.mod" (fun a b => wrap (Int.tmod a b)) args).map some
  | .avg => applyArithAverage args

def mathMin (args : List Object) : Except Failure ℤ := applyArithBasic (fun a b => a < b) args
def mathMax (args : List Object) : Except Failure ℤ := applyArithBasic (fun a b => a > b) args
def mathCnt (args : List Object) : Except Failure ℤ := applyArithCount args

/-- An integer, or the number that `convert_to_value` reads from a text. -/
def number : Object → Option ℤ
  | .value v => some v
  | .string s => (convertToValue (.string s)).toOption
  | _ => none

mutual

def readTree (read : Object → Option ℤ) : Object → Option (Nested ℤ)
  | .list items => (readTrees read items).map .node
  | obj => (read obj).map .leaf

def readTrees (read : Object → Option ℤ) : List Object → Option (List (Nested ℤ))
  | [] => some []
  | item :: items => do
    let tree ← readTree read item
    let trees ← readTrees read items
    some (tree :: trees)

end

mutual

def flatItem : Object → List Object
  | .list items => flatArgs items
  | obj => [obj]

def flatArgs : List Object → List Object
  | [] => []
  | item :: items => flatItem item ++ flatArgs items

end

theorem object_induction {P : Object → Prop} {Q : List Object → Prop}
    (other : ∀ obj, (∀ items, obj ≠ .list items) → P obj)
    (list : ∀ items, Q items → P (.list items)) (nil : Q [])
    (cons : ∀ item items, P item → Q items → Q (item :: items)) :
    (∀ obj, P obj) ∧ ∀ items, Q items := by
  have hobj : ∀ obj, P obj := fun obj =>
    @Object.rec P Q (fun _ => True) (fun _ => True)
      (other _ fun _ h => by cases h) (fun _ => other _ fun _ h => by cases h)
      (fun _ => other _ fun _ h => by cases h) (fun _ => other _ fun _ h => by cases h)
      list (fun _ _ => other _ fun _ h => by cases h)
      (fun _ _ _ _ => other _ fun _ h => by cases h) nil cons trivial (fun _ _ _ _ => trivial)
      (fun _ _ _ => trivial) obj
  refine ⟨hobj, fun items => ?_⟩
  induction items with
  | nil => exact nil
  | cons item items ih => exact cons item items (hobj item) ih

variable {obj : Object}

theorem operand_leaf {read : Object → Except Failure ℤ} {empty : Failure}
    {step : ℤ → ℤ → Except Failure ℤ} (h : ∀ items, obj ≠ .list items) :
    operand read empty step obj = read obj := by
  rw [operand]
  exact h

theorem readTree_leaf {read : Object → Option ℤ} (h : ∀ items, obj ≠ .list items) :
    readTree read obj = (read obj).map .leaf := by
  rw [readTree]
  exact h

theorem flatItem_leaf (h : ∀ items, obj ≠ .list items) : flatItem obj = [obj] := by
  rw [flatItem]
  exact h

section

variable {num : Object → Option ℤ} {trees : List (Nested ℤ)} {items : List Object}

theorem readTrees_cons {item : Object} :
    readTrees num (item :: items) = some trees ↔
      ∃ t ts, readTree num item = some t ∧ readTrees num items = some ts ∧ trees = t :: ts := by
  simp only [readTrees, Option.bind_eq_bind, Option.bind_eq_some_iff, Option.some.injEq]
  constructor
  · rintro ⟨t, ht, ts, hts, rfl⟩
    exact ⟨t, ts, ht, hts, rfl⟩
  · rintro ⟨t, ts, ht, hts, rfl⟩
    exact ⟨t, ht, ts, hts, rfl⟩

theorem readTrees_nil : readTrees num [] = some trees ↔ trees = [] := by
  rw [readTrees, Option.some.injEq, eq_comm]

theorem readTree_list {t : Nested ℤ} :
    readTree num (.list items) = some t ↔ ∃ ts, readTrees num items = some ts ∧ t = .node ts := by
  rw [readTree, Option.map_eq_some_iff]
  simp only [eq_comm]

variable {read : Object → Except Failure ℤ} {empty : Failure}

theorem apply_eq_fold
    {step : ℤ → ℤ → Except Failure ℤ} (h : ∀ obj x, num obj = some x → read obj = .ok x) :
    (∀ obj, ∀ t, readTree num obj = some t → operand read empty step obj = t.value empty step) ∧
    ∀ items, ∀ trees, readTrees num items = some trees →
      applyArgs read empty step items = foldItems empty step trees ∧
      ∀ val, applyLoop read empty step val items = foldFrom empty step val trees := by
  apply object_induction
  · intro obj hobj t ht
    rw [readTree_leaf hobj, Option.map_eq_some_iff] at ht
    obtain ⟨x, hx, rfl⟩ := ht
    rw [operand_leaf hobj, h obj x hx, Nested.value]
  · intro items ih t ht
    obtain ⟨ts, hts, rfl⟩ := readTree_list.mp ht
    rw [operand, Nested.value, (ih ts hts).1]
  · intro trees ht
    rw [readTrees_nil.mp ht]
    exact ⟨by rw [applyArgs, foldItems], fun val => by rw [applyLoop, foldFrom]⟩
  · intro item items ihi ih trees ht
    obtain ⟨t, ts, hi, hts, rfl⟩ := readTrees_cons.mp ht
    have hr := (ih ts hts).2
    refine ⟨?_, fun val => ?_⟩
    · rw [applyArgs, foldItems, ihi t hi]
      simp only [hr]
    · rw [applyLoop, foldFrom, ihi t hi]
      simp only [hr]

theorem readTrees_map (f : ℤ → ℤ) :
    (∀ obj, ∀ t, readTree num obj = some t →
      readTree (fun obj => (num obj).map f) obj = some (t.map f)) ∧
    ∀ items, ∀ trees, readTrees num items = some trees →
      readTrees (fun obj => (num obj).map f) items = some (mapItems f trees) := by
  apply object_induction
  · intro obj hobj t ht
    rw [readTree_leaf hobj, Option.map_eq_some_iff] at ht
    obtain ⟨x, hx, rfl⟩ := ht
    rw [readTree_leaf hobj, hx, Nested.map]
    rfl
  · intro items ih t ht
    obtain ⟨ts, hts, rfl⟩ := readTree_list.mp ht
    exact readTree_list.mpr ⟨mapItems f ts, ih ts hts, by rw [Nested.map]⟩
  · intro trees ht
    rw [readTrees_nil.mp ht, mapItems, readTrees]
  · intro item items ihi ih trees ht
    obtain ⟨t, ts, hi, hts, rfl⟩ := readTrees_cons.mp ht
    exact readTrees_cons.mpr ⟨_, _, ihi t hi, ih ts hts, by rw [mapItems]⟩

theorem readTrees_append {a b : List Object} {ta tb : List (Nested ℤ)}
    (ha : readTrees num a = some ta) (hb : readTrees num b = some tb) :
    readTrees num (a ++ b) = some (ta ++ tb) := by
  induction a generalizing ta with
  | nil =>
    rw [readTrees_nil.mp ha]
    exact hb
  | cons item a ih =>
    obtain ⟨t, ts, hi, hts, rfl⟩ := readTrees_cons.mp ha
    exact readTrees_cons.mpr ⟨t, ts ++ tb, hi, ih hts, rfl⟩

theorem readTrees_flat :
    (∀ obj, ∀ t, readTree num obj = some t →
      readTrees num (flatItem obj) = some (t.leaves.map .leaf)) ∧
    ∀ items, ∀ trees, readTrees num items = some trees →
      readTrees num (flatArgs items) = some ((leavesOf trees).map .leaf) := by
  apply object_induction
  · intro obj hobj t ht
    rw [flatItem_leaf hobj]
    have hleaf := ht
    rw [readTree_leaf hobj, Option.map_eq_some_iff] at hleaf
    obtain ⟨x, -, rfl⟩ := hleaf
    rw [Nested.leaves, List.map_singleton]
    exact readTrees_cons.mpr ⟨_, [], ht, by rw [readTrees], rfl⟩
  · intro items ih t ht
    obtain ⟨ts, hts, rfl⟩ := readTree_list.mp ht
    rw [flatItem, Nested.leaves, ih ts hts]
  · intro trees ht
    rw [readTrees_nil.mp ht, flatArgs, leavesOf, List.map_nil, readTrees]
  · intro item items ihi ih trees ht
    obtain ⟨t, ts, hi, hts, rfl⟩ := readTrees_cons.mp ht
    rw [flatArgs, leavesOf, List.map_append]
    exact readTrees_append (ihi t hi) (ih ts hts)

theorem applyArgs_flat {op : ℤ → ℤ → ℤ}
    [Std.Associative op] (h : ∀ obj x, num obj = some x → read obj = .ok x) {args : List Object}
    (hr : readTrees num args = some trees) (hne : trees ≠ [])
    (hf : allFull trees = true) :
    applyArgs read empty (total op) args = applyArgs read empty (total op) (flatArgs args) := by
  rw [((apply_eq_fold h).2 args trees hr).1, foldItems_flat hne hf,
    ← ((apply_eq_fold h).2 _ _ (readTrees_flat.2 args trees hr)).1]

end

theorem numberLeaf_of_number (wrongType : String) (obj : Object) (x : ℤ)
    (h : number obj = some x) : numberLeaf wrongType obj = .ok x := by
  cases obj with
  | value v =>
    cases h
    rfl
  | string s =>
    rw [number] at h
    rw [numberLeaf]
    cases hc : convertToValue (.string s) with
    | error e =>
      rw [hc] at h
      cases h
    | ok v =>
      rw [hc] at h
      cases h
      rfl
  | _ => cases h

theorem countLeaf_of_number (wrongType : String) (obj : Object) (x : ℤ)
    (h : (number obj).map (fun _ => 1) = some x) : countLeaf wrongType obj = .ok x := by
  obtain ⟨v, hv, rfl⟩ := Option.map_eq_some_iff.mp h
  cases obj with
  | value v => rfl
  | string s => rfl
  | _ => cases hv

theorem mathStep_total {name : String} (h : divides name = false) (op : ℤ → ℤ → ℤ) :
    mathStep name op = total op := by
  funext a b
  simp [mathStep, total, h]

theorem wrap_add (a b : ℤ) : wrap (wrap a + wrap b) = wrap (a + b) := by simp [wrap]

theorem wrap_sub (a b : ℤ) : wrap (wrap a - wrap b) = wrap (a - b) := by simp [wrap]

theorem wrap_mul (a b : ℤ) : wrap (wrap a * wrap b) = wrap (a * b) := by simp [wrap]

instance add_associative : Std.Associative fun a b : ℤ => wrap (a + b) :=
  ⟨fun a b c => by simp [wrap, Int.add_assoc]⟩

instance mul_associative : Std.Associative fun a b : ℤ => wrap (a * b) :=
  ⟨fun a b c => by simp [wrap, Int.mul_assoc]⟩

instance min_associative : Std.Associative fun a b : ℤ => if decide (a < b) then a else b :=
  ⟨fun a b c => by simp only [decide_eq_true_eq]; split_ifs <;> omega⟩

instance max_associative : Std.Associative fun a b : ℤ => if decide (a > b) then a else b :=
  ⟨fun a b c => by simp only [decide_eq_true_eq]; split_ifs <;> omega⟩

theorem trees_ne_nil {num : Object → Option ℤ} {args : List Object} {trees : List (Nested ℤ)}
    (hr : readTrees num args = some trees) (hne : args ≠ []) : trees ≠ [] := by
  cases args with
  | nil => exact absurd rfl hne
  | cons item items =>
    obtain ⟨t, ts, -, -, rfl⟩ := readTrees_cons.mp hr
    exact List.cons_ne_nil t ts

theorem nested_eq_flat {args : List Object} {trees : List (Nested ℤ)}
    (hr : readTrees number args = some trees) (hne : args ≠ []) (hf : allFull trees = true) :
    mathMin args = mathMin (flatArgs args) ∧ mathMax args = mathMax (flatArgs args) ∧
    mathCnt args = mathCnt (flatArgs args) ∧
    runMath args .add = runMath (flatArgs args) .add ∧
    runMath args .mul = runMath (flatArgs args) .mul := by
  have ht := trees_ne_nil hr hne
  have hones := (readTrees_map fun _ => 1).2 args trees hr
  have hones_full := ((full_map fun _ : ℤ => (1 : ℤ)).2 trees).1.trans hf
  refine ⟨?_, ?_, ?_, ?_, ?_⟩
  · exact applyArgs_flat (numberLeaf_of_number _) hr ht hf
  · exact applyArgs_flat (numberLeaf_of_number _) hr ht hf
  · exact applyArgs_flat (countLeaf_of_number _) hones (trees_ne_nil hones hne) hones_full
  · rw [runMath, runMath, applyMathBasic, applyMathBasic, mathStep_total (by decide),
      applyArgs_flat (numberLeaf_of_number _) hr ht hf]
  · rw [runMath, runMath, applyMathBasic, applyMathBasic, mathStep_total (by decide),
      applyArgs_flat (numberLeaf_of_number _) hr ht hf]

theorem nested_eq_flat_three :
    mathMin [.value 3, .list [.value 1, .string ['2']]] =
      mathMin [.value 3, .value 1, .string ['2']] :=
  (@nested_eq_flat [.value 3, .list [.value 1, .string ['2']]]
    [.leaf 3, .node [.leaf 1, .leaf 2]] rfl (by simp) rfl).1

/-- One step of the fold in the integers, which have no quotient by zero. -/
def MathCommand.exactStep : MathCommand → ℤ → ℤ → Except Unit ℤ
  | .add | .avg => total (· + ·)
  | .sub => total (· - ·)
  | .mul => total (· * ·)
  | .div => fun a b => if b = 0 then .error () else .ok (Int.tdiv a b)
  | .mod => fun a b => if b = 0 then .error () else .ok (Int.tmod a b)

/-- The fold from the left in the integers; an average is the sum over the number of leaves. -/
def exactResult (trees : List (Nested ℤ)) (c : MathCommand) : Option ℤ :=
  (foldItems () c.exactStep trees).toOption.map fun v =>
    if c = .avg then Int.tdiv v (leavesOf trees).length else v

/-- The command throws `input_error` or returns the exact result. -/
def ReturnsExact (args : List Object) (trees : List (Nested ℤ)) (c : MathCommand) : Prop :=
  (∃ what, runMath args c = inputError what) ∨
    ∃ v, runMath args c = .ok (some v) ∧ exactResult trees c = some v

/-- The exact result has 64 bits, where nothing else guards it, or the sum of an average. -/
def InRange (trees : List (Nested ℤ)) : MathCommand → Prop
  | .add => ∀ v, exactResult trees .add = some v → isInt64 v = true
  | .sub => ∀ v, exactResult trees .sub = some v → isInt64 v = true
  | .mul => ∀ v, exactResult trees .mul = some v → isInt64 v = true
  | .div | .mod => True
  | .avg => ∀ sum, exactResult trees .add = some sum → isInt64 sum = true

variable {a : ℤ}

theorem tdiv_int64 {b : ℤ} (ha : isInt64 a = true) (hb : b ≠ 0)
    (hx : ¬(a = int64Min ∧ b = -1)) : isInt64 (Int.tdiv a b) = true := by
  rw [isInt64_iff] at ha ⊢
  have habs : (Int.tdiv a b).natAbs = a.natAbs / b.natAbs := Int.natAbs_tdiv a b
  rcases Nat.lt_or_ge b.natAbs 2 with h2 | h2
  · -- a divisor of one or minus one
    have h1 : b = 1 ∨ b = -1 := by omega
    rcases h1 with rfl | rfl
    · rw [Int.tdiv_one]
      exact ha
    · have hne : a ≠ int64Min := fun h => hx ⟨h, rfl⟩
      rw [Int.tdiv_neg, Int.tdiv_one]
      simp only [int64Min] at hne
      omega
  · have hle : a.natAbs / b.natAbs ≤ a.natAbs / 2 := Nat.div_le_div_left h2 (by decide)
    omega

theorem tmod_int64 (ha : isInt64 a = true) (b : ℤ) : isInt64 (Int.tmod a b) = true := by
  rw [isInt64_iff] at ha ⊢
  have habs : (Int.tmod a b).natAbs = a.natAbs % b.natAbs := Int.natAbs_tmod a b
  have hle : a.natAbs % b.natAbs ≤ a.natAbs := Nat.mod_le _ _
  rcases Int.le_total 0 a with h0 | h0
  · have := Int.tmod_nonneg b h0
    omega
  · have hneg : Int.tmod a b ≤ 0 := by
      have := Int.tmod_nonneg b (Int.neg_nonneg_of_nonpos h0)
      rw [Int.neg_tmod] at this
      omega
    omega

section

variable {args : List Object} {trees : List (Nested ℤ)} {name : String} {op : ℤ → ℤ → ℤ}

theorem mathStep_fails (a b : ℤ) (e : Failure)
    (h : mathStep name op a b = .error e) : ∃ what, e = .error .inputError what := by
  unfold mathStep at h
  split at h
  · cases h
    exact ⟨_, rfl⟩
  split at h
  · cases h
    exact ⟨_, rfl⟩
  · cases h

variable {e : Failure}

theorem foldItems_total_fails (h : foldItems (noArguments name) (total op) trees = .error e) :
    ∃ what, e = .error .inputError what := by
  have hstep : ∀ a b e', (total op a b : Except Failure ℤ) = .error e' →
      ∃ what, e' = Failure.error .inputError what := fun a b e' he => by cases he
  exact ((fold_fails ⟨_, rfl⟩ hstep).2 trees).1 e h

theorem foldItems_total_none (h : foldItems (noArguments name) (total op) trees = .error e) :
    (foldItems () (total op) trees).toOption = none := by
  cases hu : foldItems () (total op) trees with
  | error _ => rfl
  | ok v =>
    rw [foldItems_total hu] at h
    cases h

variable {c : MathCommand}

theorem mathStep_ok {a b v : ℤ} (hd : divides name = true)
    (h : mathStep name op a b = .ok v) : b ≠ 0 ∧ ¬(a = int64Min ∧ b = -1) ∧ op a b = v := by
  simp only [mathStep, hd, true_and] at h
  split at h
  · cases h
  rename_i hb
  split at h
  · cases h
  rename_i hx
  cases h
  exact ⟨hb, hx, rfl⟩

theorem mathStep_div (a b v : ℤ) (ha : isInt64 a = true) (_ : isInt64 b = true)
    (h : mathStep "math.div" (fun a b => wrap (Int.tdiv a b)) a b = .ok v) :
    MathCommand.exactStep .div a b = .ok v ∧ isInt64 v = true := by
  obtain ⟨hb, hx, rfl⟩ := mathStep_ok (by decide) h
  have hfit := tdiv_int64 ha hb hx
  rw [(wrap_eq_self_iff _).mpr hfit]
  exact ⟨if_neg hb, hfit⟩

theorem mathStep_mod (a b v : ℤ) (ha : isInt64 a = true) (_ : isInt64 b = true)
    (h : mathStep "math.mod" (fun a b => wrap (Int.tmod a b)) a b = .ok v) :
    MathCommand.exactStep .mod a b = .ok v ∧ isInt64 v = true := by
  obtain ⟨hb, -, rfl⟩ := mathStep_ok (by decide) h
  have hfit := tmod_int64 ha b
  rw [(wrap_eq_self_iff _).mpr hfit]
  exact ⟨if_neg hb, hfit⟩

theorem foldl_add_ones (l : List ℤ) (a : ℤ) :
    (l.map fun _ => 1).foldl (· + ·) a = a + l.length := by
  induction l generalizing a with
  | nil => simp
  | cons x l ih =>
    rw [List.map_cons, List.foldl_cons, ih, List.length_cons]
    omega

variable {sum : ℤ} {count : ℕ}

/-- A quotient by less than `2 ^ 63` shows whether the sum has wrapped around. -/
theorem tdiv_wrap_iff (h0 : 0 < count) (h : count < 2 ^ 63) :
    Int.tdiv (wrap sum) count = Int.tdiv sum count ↔ isInt64 sum = true := by
  constructor
  · intro heq
    rw [← wrap_eq_self_iff]
    by_contra hne
    have h1 := Int.tmod_add_mul_tdiv sum count
    have h2 := Int.tmod_add_mul_tdiv (wrap sum) count
    have hb1 := Int.natAbs_tmod sum count
    have hb2 := Int.natAbs_tmod (wrap sum) count
    have hm1 : sum.natAbs % count < count := Nat.mod_lt _ h0
    have hm2 : (wrap sum).natAbs % count < count := Nat.mod_lt _ h0
    have hmod : wrap sum % (2 ^ 64 : ℕ) = sum % (2 ^ 64 : ℕ) := Int.bmod_emod
    rw [heq] at h2
    simp only [Int.natAbs_natCast] at hb1 hb2
    omega
  · intro hfit
    rw [(wrap_eq_self_iff sum).mpr hfit]

theorem average_exact_iff (h0 : 0 < count) (h : count < 2 ^ 63) :
    int64Div (wrap sum) (wrap count) = some (Int.tdiv sum count) ↔ isInt64 sum = true := by
  have hcount : wrap (count : ℤ) = count := (wrap_eq_self_iff _).mpr (isInt64_iff.mpr (by omega))
  have hdiv : int64Div (wrap sum) count = some (Int.tdiv (wrap sum) count) := if_neg (by omega)
  rw [hcount, hdiv, Option.some.injEq, tdiv_wrap_iff h0 h]

theorem leaves_pos {empty : Failure}
    (hs : foldItems empty (total op) trees = .ok sum) : 0 < (leavesOf trees).length := by
  obtain ⟨hne, hfull⟩ := (full_of_fold.2 trees).1 sum hs
  obtain ⟨a, l, hl, -⟩ : ∃ a l, leavesOf trees = a :: l ∧
    foldItems empty (total (· + ·)) trees = .ok (l.foldl (· + ·) a) := foldItems_leaves hne hfull
  rw [hl]
  exact Nat.succ_pos _

variable (hr : readTrees number args = some trees)
include hr

theorem applyMathBasic_eq (name : String) (op : ℤ → ℤ → ℤ) :
    applyMathBasic name op args = foldItems (noArguments name) (mathStep name op) trees :=
  ((apply_eq_fold (numberLeaf_of_number _)).2 args trees hr).1

theorem applyMathBasic_fails (h : applyMathBasic name op args = .error e) :
    ∃ what, e = .error .inputError what := by
  rw [applyMathBasic_eq hr] at h
  exact ((fold_fails ⟨_, rfl⟩ mathStep_fails).2 trees).1 e h

theorem applyArithCount_eq (hne : trees ≠ []) (hf : allFull trees = true) :
    applyArithCount args = .ok (wrap (leavesOf trees).length) := by
  have hones := (readTrees_map fun _ => 1).2 args trees hr
  have hfull := ((full_map fun _ : ℤ => (1 : ℤ)).2 trees).1.trans hf
  have hone : ∀ a ∈ leavesOf (mapItems (fun _ : ℤ => (1 : ℤ)) trees), wrap a = a := by
    rw [(leaves_map _).2]
    intro a ha
    obtain ⟨x, -, rfl⟩ := List.mem_map.mp ha
    decide
  have hmapped : mapItems (fun _ : ℤ => (1 : ℤ)) trees ≠ [] := by
    have := ((full_map fun _ : ℤ => (1 : ℤ)).2 trees).2
    rw [List.isEmpty_eq_false_iff.mpr hne, List.isEmpty_eq_false_iff] at this
    exact this
  rw [applyArithCount, ((apply_eq_fold (countLeaf_of_number _)).2 args _ hones).1,
    ((fold_reduce wrap_add).2 _ hone).1]
  obtain ⟨a, l, hl, hv⟩ : ∃ a l, leavesOf (mapItems (fun _ : ℤ => (1 : ℤ)) trees) = a :: l ∧
    foldItems (Failure.error .inputError "Wrong argument count in apply_arith_count.")
      (total (· + ·)) (mapItems (fun _ : ℤ => (1 : ℤ)) trees) = .ok (l.foldl (· + ·) a) :=
        foldItems_leaves hmapped hfull
  rw [hv]
  rw [(leaves_map _).2] at hl
  cases hlv : leavesOf trees with
  | nil =>
    rw [hlv] at hl
    cases hl
  | cons b m =>
    rw [hlv, List.map_cons] at hl
    cases hl
    rw [foldl_add_ones, List.length_cons]
    simp only [Except.map]
    congr 2
    omega

variable (h64 : ∀ v ∈ leavesOf trees, isInt64 v = true)
include h64

/-- The commands without a guard give the exact result modulo `2 ^ 64`. -/
theorem applyMathBasic_wraps (hd : divides name = false)
    (hw : ∀ a b, wrap (op (wrap a) (wrap b)) = wrap (op a b)) :
    applyMathBasic name (fun a b => wrap (op a b)) args =
      (foldItems (noArguments name) (total op) trees).map wrap := by
  rw [applyMathBasic_eq hr, mathStep_total hd]
  exact ((fold_reduce hw).2 trees fun v hv => (wrap_eq_self_iff v).mpr (h64 v hv)).1

theorem returnsExact_iff_of_wraps (hc : c ≠ .avg) (hd : divides name = false)
    (hw : ∀ a b, wrap (op (wrap a) (wrap b)) = wrap (op a b))
    (hrun : runMath args c = (applyMathBasic name (fun a b => wrap (op a b)) args).map some)
    (hstep : c.exactStep = total op) :
    ReturnsExact args trees c ↔ ∀ v, exactResult trees c = some v → isInt64 v = true := by
  rw [ReturnsExact, hrun, applyMathBasic_wraps hr h64 hd hw, exactResult, hstep]
  cases hf : foldItems (noArguments name) (total op) trees with
  | error e =>
    obtain ⟨what, rfl⟩ := foldItems_total_fails hf
    rw [foldItems_total_none hf]
    exact iff_of_true (.inl ⟨what, rfl⟩) fun v hv => by cases hv
  | ok v =>
    rw [foldItems_total hf]
    simp only [Except.map, Except.toOption, Option.map_some, hc, if_false]
    constructor
    · rintro (⟨what, h⟩ | ⟨u, h, hv⟩) w hw
      · cases h
      · cases hv
        cases hw
        exact (wrap_eq_self_iff v).mp (Option.some.inj (Except.ok.inj h))
    · intro h
      exact .inr ⟨v, by rw [(wrap_eq_self_iff v).mpr (h v rfl)], rfl⟩

/-- What the guards let through is exact and has 64 bits. -/
theorem returnsExact_of_guard (hc : c ≠ .avg)
    (hrun : runMath args c = (applyMathBasic name op args).map some)
    (hstep : ∀ a b v, isInt64 a = true → isInt64 b = true → mathStep name op a b = .ok v →
      c.exactStep a b = .ok v ∧ isInt64 v = true) : ReturnsExact args trees c := by
  rw [ReturnsExact, hrun]
  cases hf : applyMathBasic name op args with
  | error e =>
    obtain ⟨what, rfl⟩ := applyMathBasic_fails hr hf
    exact .inl ⟨what, rfl⟩
  | ok v =>
    rw [applyMathBasic_eq hr] at hf
    have hx : foldItems () c.exactStep trees = .ok v :=
      (((fold_follows hstep).2 trees h64).1 v hf).1
    refine .inr ⟨v, rfl, ?_⟩
    rw [exactResult, hx]
    exact congrArg some (if_neg hc)

theorem applyArithAverage_eq
    (hs : foldItems (noArguments "average") (total (· + ·)) trees = .ok sum) :
    applyArithAverage args = .ok (int64Div (wrap sum) (wrap (leavesOf trees).length)) := by
  obtain ⟨hne, hfull⟩ := (full_of_fold.2 trees).1 sum hs
  have hargs : args.isEmpty = false := by
    cases args with
    | nil => exact absurd (readTrees_nil.mp hr) hne
    | cons item items => rfl
  rw [applyArithAverage, hargs, applyMathBasic_wraps hr h64 (by decide) wrap_add, hs,
    applyArithCount_eq hr hne hfull]
  rfl

theorem returnsExact_average (hcount : (leavesOf trees).length < 2 ^ 63) :
    ReturnsExact args trees .avg ↔ InRange trees .avg := by
  simp only [ReturnsExact, InRange, exactResult, runMath, MathCommand.exactStep]
  cases hs : foldItems (noArguments "average") (total (· + ·)) trees with
  | error e =>
    rw [foldItems_total_none hs]
    refine iff_of_true (.inl ?_) fun sum h => by cases h
    obtain ⟨what, rfl⟩ := foldItems_total_fails hs
    rw [applyArithAverage, applyMathBasic_wraps hr h64 (by decide) wrap_add, hs]
    split
    · exact ⟨_, rfl⟩
    · exact ⟨what, rfl⟩
  | ok sum =>
    rw [applyArithAverage_eq hr h64 hs, foldItems_total hs]
    simp only [Except.toOption, Option.map_some, if_true, reduceCtorEq, if_false,
      Option.some.injEq, Except.ok.injEq, forall_eq', ← average_exact_iff (leaves_pos hs) hcount]
    constructor
    · rintro (⟨what, h⟩ | ⟨v, h, hv⟩)
      · cases h
      · rw [h, hv]
    · intro h
      exact .inr ⟨_, h, rfl⟩

end

/-- The leaves of an average are counted in an `int64_t`, as no list in memory exceeds. -/
theorem math_exact_iff {args : List Object} {trees : List (Nested ℤ)}
    (hr : readTrees number args = some trees)
    (h64 : ∀ v ∈ leavesOf trees, isInt64 v = true) (c : MathCommand)
    (hcount : c = .avg → (leavesOf trees).length < 2 ^ 63) :
    ReturnsExact args trees c ↔ InRange trees c := by
  cases c with
  | add => exact returnsExact_iff_of_wraps hr h64 (by decide) (by decide) wrap_add rfl rfl
  | sub => exact returnsExact_iff_of_wraps hr h64 (by decide) (by decide) wrap_sub rfl rfl
  | mul => exact returnsExact_iff_of_wraps hr h64 (by decide) (by decide) wrap_mul rfl rfl
  | div => exact iff_of_true (returnsExact_of_guard hr h64 (by decide) rfl mathStep_div) trivial
  | mod => exact iff_of_true (returnsExact_of_guard hr h64 (by decide) rfl mathStep_mod) trivial
  | avg => exact returnsExact_average hr h64 (hcount rfl)

theorem math_exact_iff_nested :
    ReturnsExact [.value 7, .list [.value 2, .string ['3']]] [.leaf 7, .node [.leaf 2, .leaf 3]]
      .mul ∧
    ReturnsExact [.value 7, .list [.value 2, .string ['3']]] [.leaf 7, .node [.leaf 2, .leaf 3]]
      .avg := by
  have h64 : ∀ v ∈ leavesOf [.leaf 7, .node [.leaf 2, .leaf 3]], isInt64 v = true := by
    simp [leavesOf, Nested.leaves, isInt64_iff]
  exact ⟨(math_exact_iff rfl h64 .mul (by simp)).mpr fun v hv => by cases hv; rfl,
    (math_exact_iff rfl h64 .avg (by decide)).mpr fun v hv => by cases hv; rfl⟩

/-- The sum of two integers wraps around, and so does the sum of an average. -/
theorem math_wraps :
    runMath [.value int64Max, .value 1] .add = .ok (some int64Min) ∧
    exactResult [.leaf int64Max, .leaf 1] .add = some (2 ^ 63) ∧
    runMath [.value int64Max, .value 1] .avg = .ok (some (-2 ^ 62)) ∧
    exactResult [.leaf int64Max, .leaf 1] .avg = some (2 ^ 62) :=
  ⟨rfl, rfl, rfl, rfl⟩

end MathCommands
