import Rtorrent.ObjectPrinting

/-! # Value commands

The value that a command is called with, for an integer and for the text of an integer. -/
namespace ValueCommands

open RpcTextParser RpcCommandParser RpcValueParser RpcIntegers
open ObjectPrinting (valueText)

/-- There is no result when the source is returned as it is, or with text behind the value. -/
def parseWholeValueNothrow (base : ℕ) (unit : ℤ) (src : Text) : Except Failure (Option ℤ) := do
  match ← parseValueNothrow base unit src with
  | none => .ok none
  | some (value, last) => .ok (if (parseSkipWspace last).isEmpty then some value else none)

/-- The value that `command_base_call_value_base` calls the function of the command with. -/
def callValueBase (base : ℕ) (unit : ℤ) (compatible : Bool) (argsRaw : Object) :
    Except Failure ℤ :=
  if ¬ compatible then inputError "Target of wrong type to value command."
  else match convertToSingleArgument argsRaw with
    | .string str => do
      match ← parseWholeValueNothrow base unit (cString str) with
      | none => inputError "Not a value."
      | some value => .ok value
    | .value value =>
      if int64Max / unit < value ∨ value < Int.tdiv int64Min unit then
        inputError "Value out of range."
      else .ok (unit * value)
    | _ => inputError "Wrong object type."

def callValue (compatible : Bool) (argsRaw : Object) : Except Failure ℤ :=
  callValueBase 0 1 compatible argsRaw

def callValueKb (compatible : Bool) (argsRaw : Object) : Except Failure ℤ :=
  callValueBase 0 1024 compatible argsRaw

/-- The integer at the start of a text, which `strtoll` reads, and the text behind it. -/
def integerAt (base : ℕ) (src : Text) : Option (ℤ × Text) :=
  let (negative, text) := readSign (src.dropWhile isSpace)
  let (base, text) := readBase base text
  let digits := text.takeWhile (isDigitOf base)
  if digits.isEmpty then none
  else
    let value : ℤ := digitsValue base digits
    some (if negative then -value else value, text.drop digits.length)

/-- The power of two that a suffix stands for. -/
def suffixBits : Text → Option ℕ
  | 'b' :: _ | 'B' :: _ => some 0
  | 'k' :: _ | 'K' :: _ => some 10
  | 'm' :: _ | 'M' :: _ => some 20
  | 'g' :: _ | 'G' :: _ => some 30
  | _ => none

def multiplier (unit : ℤ) (rest : Text) : ℤ :=
  match suffixBits rest with
  | some bits => 2 ^ bits
  | none => unit

def behindSuffix (rest : Text) : Text :=
  match suffixBits rest with
  | some _ => rest.drop 1
  | none => rest

/-- The product, unless it has more than 64 bits. -/
def exactValue (unit value : ℤ) (rest : Text) : Option (ℤ × Text) :=
  if isInt64 (value * multiplier unit rest) then
    some (value * multiplier unit rest, behindSuffix rest)
  else none

section

variable {base : ℕ} {unit value : ℤ} {src rest : Text}

theorem strtoll_eq : strtoll base src = (integerAt base src).map fun r => (saturate r.1, r.2) := by
  rw [strtoll, integerAt]
  cases readSign (src.dropWhile isSpace) with
  | mk negative text =>
    dsimp only
    cases readBase base text with
    | mk base text =>
      dsimp only
      split
      · rfl
      · rfl

theorem shiftValue_exact {limit : ℤ} {bits : ℕ} (hlimit : (limit + 1) * 2 ^ bits = 2 ^ 63)
    (hmin : int64Min ≤ value * 2 ^ bits) :
    shiftValue limit value bits rest =
      if isInt64 (value * 2 ^ bits) then some (value * 2 ^ bits, rest) else none := by
  have hpos : (0 : ℤ) < 2 ^ bits := Int.pow_pos (by omega)
  have hmax : limit < value ↔ 2 ^ 63 ≤ value * 2 ^ bits := by
    rw [← hlimit]
    constructor
    · intro h
      exact Int.mul_le_mul_of_nonneg_right h (Int.le_of_lt hpos)
    · intro h
      exact Int.le_of_mul_le_mul_right h hpos
  rw [shiftValue]
  by_cases h : limit < value
  · have hout : ¬ isInt64 (value * 2 ^ bits) = true := by
      rw [isInt64_iff]
      have hge := hmax.mp h
      omega
    rw [if_pos h, if_neg hout]
  · have hin : int64Min ≤ value * 2 ^ bits ∧ value * 2 ^ bits ≤ int64Max := by
      have hlt := mt hmax.mpr h
      refine ⟨hmin, ?_⟩
      rw [int64Max]
      omega
    have hin64 : isInt64 (value * 2 ^ bits) = true := decide_eq_true hin
    rw [if_neg h, if_pos hin64, ObjectRoundTrips.bmod_int64 hin]

/-- A value is shifted by the bits of the suffix; it is in the range already when these are none. -/
theorem suffixValue_cases (unit : ℤ) (rest : Text) (hv : isInt64 value = true) :
    suffixBits rest = none ∧ suffixValue unit value rest = scaleValue unit value rest ∨
      ∃ bits limit, suffixBits rest = some bits ∧ 0 ≤ limit ∧ (limit + 1) * 2 ^ bits = 2 ^ 63 ∧
        suffixValue unit value rest = shiftValue limit value bits (rest.drop 1) := by
  have hbyte : ∀ text, some (value, text) = shiftValue int64Max value 0 text := by
    intro text
    rw [shiftValue_exact (by decide) (by simpa using (of_decide_eq_true hv).1), Int.pow_zero,
      Int.mul_one, if_pos hv]
  unfold suffixValue
  split
  · exact .inr ⟨0, int64Max, rfl, by decide, by decide, hbyte _⟩
  · exact .inr ⟨0, int64Max, rfl, by decide, by decide, hbyte _⟩
  · exact .inr ⟨_, _, rfl, by decide, by decide, rfl⟩
  · exact .inr ⟨_, _, rfl, by decide, by decide, rfl⟩
  · exact .inr ⟨_, _, rfl, by decide, by decide, rfl⟩
  · exact .inr ⟨_, _, rfl, by decide, by decide, rfl⟩
  · exact .inr ⟨_, _, rfl, by decide, by decide, rfl⟩
  · exact .inr ⟨_, _, rfl, by decide, by decide, rfl⟩
  · exact .inl ⟨by rw [suffixBits] <;> assumption, rfl⟩

theorem scaleValue_guard (hunit : 0 < unit) :
    (int64Max / unit < value ∨ value < Int.tdiv int64Min unit) ↔
      ¬ isInt64 (value * unit) = true := by
  have hmax : int64Max / unit < value ↔ 2 ^ 63 - 1 < value * unit := by
    rw [Int.ediv_lt_iff_lt_mul hunit, int64Max]
  have hmin : value < Int.tdiv int64Min unit ↔ value * unit < -2 ^ 63 := by
    have hneg : (2 ^ 63 : ℤ) / unit < -value ↔ 2 ^ 63 < -(value * unit) := by
      rw [Int.ediv_lt_iff_lt_mul hunit, Int.neg_mul]
    rw [int64Min, Int.neg_tdiv, Int.tdiv_eq_ediv_of_nonneg (by decide)]
    omega
  rw [hmax, hmin, isInt64_iff]
  omega

theorem scaleValue_exact (hunit : 0 < unit) :
    scaleValue unit value rest =
      if isInt64 (value * unit) then some (value * unit, rest) else none := by
  rw [scaleValue]
  by_cases h : isInt64 (value * unit) = true
  · rw [if_neg (fun hg => (scaleValue_guard hunit).mp hg h), if_pos h]
  · rw [if_pos ((scaleValue_guard hunit).mpr h), if_neg h]

theorem suffixValue_exact (hunit : 0 < unit) (hv : isInt64 value = true)
    (hmin : suffixBits rest ≠ none → int64Min ≤ value * multiplier unit rest) :
    suffixValue unit value rest = exactValue unit value rest := by
  rw [exactValue]
  unfold multiplier behindSuffix at *
  rcases suffixValue_cases unit rest hv with ⟨hs, he⟩ | ⟨bits, limit, hs, -, hlimit, he⟩
  · simp only [he, hs]
    exact scaleValue_exact hunit
  · simp only [he, hs] at hmin ⊢
    exact shiftValue_exact hlimit (hmin nofun)

theorem strtoll_default (h : ∀ text, (readSign (src.dropWhile isSpace)).2 ≠ '0' :: text) :
    strtoll 0 src = strtoll 10 src := by
  cases hs : readSign (src.dropWhile isSpace) with
  | mk negative text =>
    rw [hs] at h
    have hbase : readBase 0 text = (10, text) := by
      unfold readBase
      split
      · exact absurd rfl (h _)
      · exact absurd rfl (h _)
      · rfl
    simp only [strtoll, hs, hbase, readBase_ten]

theorem head_toDigits {n : ℕ} (h : 0 < n) :
    ∃ d cs, 0 < d ∧ d < 10 ∧ Nat.toDigits 10 n = Nat.digitChar d :: cs := by
  induction n using Nat.strong_induction_on with
  | _ n ih =>
    rcases Nat.lt_or_ge n 10 with hn | hn
    · exact ⟨n, [], h, hn, Nat.toDigits_of_lt_base hn⟩
    · obtain ⟨d, cs, hd, hlt, hcs⟩ := ih (n / 10) (by omega) (by omega)
      refine ⟨d, cs ++ [Nat.digitChar (n % 10)], hd, hlt, ?_⟩
      rw [Nat.toDigits_of_base_le (by omega) hn, hcs, List.cons_append]

theorem digitChar_plain {d : ℕ} (h : 0 < d ∧ d < 10) :
    Nat.digitChar d ≠ '0' ∧ isSpace (Nat.digitChar d) = false ∧ Nat.digitChar d ≠ '-' ∧
      Nat.digitChar d ≠ '+' := by
  have hall : ∀ d < 10, 0 < d → Nat.digitChar d ≠ '0' ∧ isSpace (Nat.digitChar d) = false ∧
      Nat.digitChar d ≠ '-' ∧ Nat.digitChar d ≠ '+' := by decide
  exact hall d h.2 h.1

theorem strtoll_valueText {v : ℤ} (hv : isInt64 v = true) :
    strtoll 0 (valueText v) = some (v, []) := by
  have hten : strtoll 10 (valueText v) = some (v, []) :=
    (ObjectRoundTrips.toString_read (of_decide_eq_true hv)).2.2
  by_cases hz : v = 0
  · subst hz
    decide
  · rw [← hten]
    apply strtoll_default
    intro text
    rw [valueText]
    obtain ⟨n, ⟨ht, hn⟩ | ⟨ht, hn⟩⟩ := ObjectRoundTrips.toString_int v
    · obtain ⟨d, cs, hd, hlt, hcs⟩ := head_toDigits (show 0 < n by omega)
      obtain ⟨hzero, hspace, hminus, hplus⟩ := digitChar_plain ⟨hd, hlt⟩
      rw [ht, hcs, List.dropWhile_cons, if_neg (by simp [hspace]),
        readSign_plain hminus hplus]
      exact fun h => hzero (List.cons.inj h).1
    · obtain ⟨d, cs, hd, hlt, hcs⟩ := head_toDigits (show 0 < n by omega)
      have hzero := (digitChar_plain ⟨hd, hlt⟩).1
      rw [ht, hcs]
      exact fun h => hzero (List.cons.inj h).1

theorem parseValueNothrow_word (hunit : 0 < unit) (h : integerAt base src = none) :
    parseValueNothrow base unit src = .ok (wordValue src) := by
  rw [parseValueNothrow, if_neg (by omega), strtoll_eq, h]
  rfl

theorem parseValueNothrow_exact (hunit : 0 < unit) (h : integerAt base src = some (value, rest))
    (hv : isInt64 value = true)
    (hmin : suffixBits rest ≠ none → int64Min ≤ value * multiplier unit rest) :
    parseValueNothrow base unit src = .ok (exactValue unit value rest) := by
  rw [parseValueNothrow, if_neg (by omega), strtoll_eq, h]
  show Except.ok (suffixValue unit (saturate value) rest) = _
  rw [(saturate_eq_self_iff value).mpr hv, suffixValue_exact hunit hv hmin]

/-- The same value is passed on, or both calls are refused. -/
def SameCall (x y : Except Failure ℤ) : Prop :=
  (∃ v, x = .ok v ∧ y = .ok v) ∨ ∃ e e', x = .error e ∧ y = .error e'

theorem callValueBase_same {v : ℤ} {compatible : Bool} {integer text : Object} (hunit : 0 < unit)
    (hv : isInt64 v = true) (hinteger : convertToSingleArgument integer = .value v)
    (htext : convertToSingleArgument text = .string (valueText v)) :
    SameCall (callValueBase 0 unit compatible integer) (callValueBase 0 unit compatible text) := by
  have hnul : cString (valueText v) = valueText v :=
    cString_of_not_mem (ObjectRoundTrips.toString_read (of_decide_eq_true hv)).1
  have hparse : parseValueNothrow 0 unit (valueText v) = .ok (scaleValue unit v []) := by
    rw [parseValueNothrow, if_neg (by omega), strtoll_valueText hv]
    rfl
  have hwhole : parseWholeValueNothrow 0 unit (valueText v) =
      .ok ((scaleValue unit v []).map Prod.fst) := by
    rw [parseWholeValueNothrow, hparse]
    cases hs : scaleValue unit v [] with
    | none => rfl
    | some r =>
      rw [scaleValue] at hs
      split at hs
      · cases hs
      · cases hs
        rfl
  rw [callValueBase, callValueBase, hinteger, htext]
  by_cases hc : compatible = true
  · rw [if_neg (not_not.mpr hc), if_neg (not_not.mpr hc)]
    dsimp only
    rw [hnul, hwhole, scaleValue]
    split
    · exact .inr ⟨_, _, rfl, rfl⟩
    · refine .inl ⟨unit * v, rfl, ?_⟩
      rw [Int.mul_comm]
      rfl
  · rw [if_pos hc, if_pos hc]
    exact .inr ⟨_, _, rfl, rfl⟩

end

/-- A text without an integer at its start is refused, or it is a word for 0 or 1. An integer of
64 bits whose product with a power of two is not below that range is multiplied exactly, or
refused when the product is out of range. A command gets the same from an integer. -/
theorem parsed_values_exact (base : ℕ) (unit : ℤ) (hunit : 0 < unit) :
    (∀ src, integerAt base src = none →
      parseValueNothrow base unit src = .ok (wordValue src)) ∧
    (∀ src value rest, integerAt base src = some (value, rest) → isInt64 value = true →
      (suffixBits rest ≠ none → int64Min ≤ value * multiplier unit rest) →
      parseValueNothrow base unit src = .ok (exactValue unit value rest)) ∧
    ∀ (compatible : Bool) (v : ℤ) (integer text : Object), isInt64 v = true →
      convertToSingleArgument integer = .value v →
      convertToSingleArgument text = .string (valueText v) →
      SameCall (callValue compatible integer) (callValue compatible text) ∧
        SameCall (callValueKb compatible integer) (callValueKb compatible text) := by
  refine ⟨?_, ?_, ?_⟩
  · exact fun _ h => parseValueNothrow_word hunit h
  · exact fun _ _ _ h hv hmin => parseValueNothrow_exact hunit h hv hmin
  · intro compatible v integer text hv hinteger htext
    exact ⟨callValueBase_same (by omega) hv hinteger htext,
      callValueBase_same (by omega) hv hinteger htext⟩

theorem kilobytes_parsed :
    parseValueNothrow 0 1024 " -0x10k,".toList = .ok (some (-16384, ",".toList)) ∧
      SameCall (callValueKb true (.value 9007199254740992))
        (callValueKb true (.list [.string "9007199254740992".toList])) := by
  obtain ⟨-, hexact, hsame⟩ := parsed_values_exact 0 1024 (by decide)
  refine ⟨?_, ?_⟩
  · exact hexact " -0x10k,".toList (-16) "k,".toList (by decide) (by decide) (by decide)
  · have htext : "9007199254740992".toList = valueText 9007199254740992 := by decide
    exact (hsame true 9007199254740992 (.value 9007199254740992)
      (.list [.string "9007199254740992".toList]) (by decide) rfl (congrArg Object.string htext)).2

/-- A word is accepted though no integer is written there. -/
theorem yes_parsed :
    parseValueNothrow 0 1024 "yes".toList = .ok (some (1, [])) ∧
      integerAt 0 "yes".toList = none := by
  decide

end ValueCommands
