import Rtorrent.CommandScheduler
import Rtorrent.ValueCommands

/-! # Throttle commands

The maximum rates of the throttles that have a name and of the two global ones. A throttle keeps
the 64 bits that it is given, and 0 is no limit. -/
namespace ThrottleCommands

open FallibleRuns RpcTextParser RpcCommandParser RpcValueParser ValueCommands
open RpcIntegers (isInt64 isInt64_iff saturate_eq_self_iff wrap wrap_eq_self_iff)
open CommandScheduler (asString int32 uint32)

/-- Two pointers, each null or to a throttle with its maximum rate. -/
structure ThrottlePair where
  first : Option ℤ
  second : Option ℤ
  deriving DecidableEq, Repr

/-- A global throttle and what limits the unchoked peers in its direction. -/
structure GlobalThrottle where
  maxRate : ℤ
  maxUnchoked : ℕ
  div : ℤ
  global : ℤ
  deriving DecidableEq, Repr

structure Throttles where
  named : Text → Option ThrottlePair
  up : GlobalThrottle
  down : GlobalThrottle

abbrev ThrottleRun (α : Type) := Run Failure Throttles α

def ThrottlePair.get (pair : ThrottlePair) (up : Bool) : Option ℤ :=
  if up then pair.first else pair.second

def ThrottlePair.set (pair : ThrottlePair) (up : Bool) (throttle : Option ℤ) : ThrottlePair :=
  if up then { pair with first := throttle } else { pair with second := throttle }

/-- What `parse_value_nothrow` leaves in `*value`, also when it returns the source as it is. -/
def valueLeft (base : ℕ) (unit : ℤ) (src : Text) : ℤ :=
  match strtoll base src with
  | none => ((wordValue src).map Prod.fst).getD 0
  | some (value, rest) => ((suffixValue unit value rest).map Prod.fst).getD value

/-- A slave is created for a rate other than 0, and a throttle that is there gets the rate. -/
def setThrottleRate (throttle : Option ℤ) (rate : ℤ) : Option ℤ :=
  if rate ≠ 0 ∨ throttle ≠ none then some (wrap (rate * 1024)) else none

def Throttles.setRate (s : Throttles) (name : Text) (up : Bool) (rate : ℤ) : Throttles :=
  let pair := (s.named name).getD ⟨none, none⟩
  let throttle := setThrottleRate (pair.get up) rate
  { s with named := Function.update s.named name (some (pair.set up throttle)) }

/-- The result of `parse_whole_value_nothrow` is not looked at. -/
def applyThrottle (args : List Object) (up : Bool) : ThrottleRun Object :=
  match args with
  | [] => Run.ofExcept (inputError "Missing throttle name.")
  | first :: rest => do
    let name ← Run.ofExcept (asString first)
    if name.isEmpty ∨ name = "NULL".toList then
      Run.ofExcept (inputError ("Invalid throttle name '" ++ String.ofList name ++ "'."))
    else
      let missing := "Missing throttle rate for '" ++ String.ofList name ++ "'."
      match rest with
      | [] => Run.ofExcept (inputError missing)
      | arg :: _ =>
        let text ← Run.ofExcept (asString arg)
        if text.isEmpty then Run.ofExcept (inputError missing)
        else
          let rate := valueLeft 0 1 (cString text)
          if rate < 0 then Run.ofExcept (inputError "Throttle rate must be non-negative.")
          else
            Run.modify fun s => s.setRate name up rate
            pure .none

def maxUnchoked (throttle div global : ℕ) : ℕ :=
  if throttle = 0 ∨ div = 0 then global
  else
    let throttle := throttle / div
    let unchoked := if throttle ≤ 10 then 1 + throttle else 10 + throttle / 5
    if global ≠ 0 then min unchoked global else unchoked

/-- `std::max<int>(value, 0)` as an `unsigned int`. -/
def nonNegative (value : ℤ) : ℕ := (max (int32 value) 0).toNat

/-- The product is one of two `unsigned int`. -/
def GlobalThrottle.setThrottle (g : GlobalThrottle) (throttle : ℕ) : GlobalThrottle :=
  { g with
    maxRate := (throttle * 1024 % 2 ^ 32 : ℕ)
    maxUnchoked := ThrottleCommands.maxUnchoked throttle (nonNegative g.div)
      (nonNegative g.global) }

def setUpThrottle (throttle : ℕ) (s : Throttles) : Throttles :=
  { s with up := s.up.setThrottle throttle }

def setDownThrottle (throttle : ℕ) (s : Throttles) : Throttles :=
  { s with down := s.down.setThrottle throttle }

def setUpThrottleI64 (throttle : ℤ) (s : Throttles) : Throttles :=
  setUpThrottle (uint32 (throttle >>> (10 : ℕ))) s

def setDownThrottleI64 (throttle : ℤ) (s : Throttles) : Throttles :=
  setDownThrottle (uint32 (throttle >>> (10 : ℕ))) s

def adjustUpThrottle (throttle : ℤ) (s : Throttles) : Throttles :=
  setUpThrottle (nonNegative (s.up.maxRate / 1024 + throttle)) s

def adjustDownThrottle (throttle : ℤ) (s : Throttles) : Throttles :=
  setDownThrottle (nonNegative (s.down.maxRate / 1024 + throttle)) s

/-- The settings behind `throttle.max_uploads` and `throttle.max_downloads`. -/
inductive Setting where
  | uploadsDiv
  | uploadsGlobal
  | downloadsDiv
  | downloadsGlobal
  deriving DecidableEq, Repr

def Setting.store (value : ℤ) (s : Throttles) : Setting → Throttles
  | .uploadsDiv => { s with up := { s.up with div := value } }
  | .uploadsGlobal => { s with up := { s.up with global := value } }
  | .downloadsDiv => { s with down := { s.down with div := value } }
  | .downloadsGlobal => { s with down := { s.down with global := value } }

def throttleUpdate (setting : Setting) (value : ℤ) (s : Throttles) : Throttles :=
  adjustDownThrottle 0 (adjustUpThrottle 0 (setting.store value s))

/-- The value of a command for the maximum rate, or of its variant in kilobytes. -/
def maxRateValue (kb : Bool) (args : Object) : Except Failure ℤ :=
  if kb then callValueKb true args else callValue true args

def setMaxRate (up kb : Bool) (args : Object) : ThrottleRun Object := do
  let value ← Run.ofExcept (maxRateValue kb args)
  Run.modify (if up then setUpThrottleI64 value else setDownThrottleI64 value)
  pure .none

inductive ThrottleCommand where
  | apply (up : Bool) (args : List Object)
  | setMaxRate (up kb : Bool) (args : Object)
  | adjust (up : Bool) (step : ℤ)
  | update (setting : Setting) (args : Object)

def perform : ThrottleCommand → ThrottleRun Object
  | .apply up args => applyThrottle args up
  | .setMaxRate up kb args => setMaxRate up kb args
  | .adjust up step => do
    Run.modify (if up then adjustUpThrottle step else adjustDownThrottle step)
    pure .none
  | .update setting args => do
    let value ← Run.ofExcept (callValue true args)
    Run.modify (throttleUpdate setting value)
    pure .none

def performAll : List ThrottleCommand → Throttles → Throttles
  | [], s => s
  | command :: commands, s => performAll commands (perform command s).2

/-- The limit of a throttle, none where there is no throttle or its rate is 0. -/
def Throttles.limit (s : Throttles) (name : Text) (up : Bool) : Option ℤ :=
  ((s.named name).bind fun pair => pair.get up).filter fun rate => rate ≠ 0

/-- A negative integer is at the start, and what is left of it in 64 bits is negative too. -/
def StartsNegative (text : Text) : Prop :=
  ∃ value rest, integerAt 0 text = some (value, rest) ∧ value < 0 ∧
    wrap (saturate value * multiplier 1 rest) < 0

/-- What the command throws for. -/
def Refused (name text : Text) : Prop :=
  name = [] ∨ name = "NULL".toList ∨ text = [] ∨ StartsNegative (cString text)

section

variable {value : ℤ} {rest text name : Text} {up : Bool}

theorem saturate_int64 (value : ℤ) : isInt64 (saturate value) = true := by
  rw [isInt64_iff, saturate, int64Min, int64Max]
  omega

end

section

variable {name text : Text} {more : List Object} {up : Bool} {s : Throttles}

end

def noThrottles : Throttles := ⟨fun _ => none, ⟨0, 0, 1, 0⟩, ⟨0, 0, 1, 0⟩⟩

def Throttles.globalThrottle (s : Throttles) (up : Bool) : GlobalThrottle :=
  if up then s.up else s.down

/-- The rate is the value rounded down to 1024, and no limit only for a value below that. -/
def RoundsDown (value rate : ℤ) : Prop := rate = value / 1024 * 1024 ∧ (rate = 0 → value < 1024)

def maxRateAfter (up kb : Bool) (args : Object) (s : Throttles) : ℤ :=
  ((setMaxRate up kb args s).2.globalThrottle up).maxRate

section

variable {up kb : Bool} {args : Object} {value : ℤ}

theorem maxRateAfter_eq (h : maxRateValue kb args = .ok value) (s : Throttles) :
    maxRateAfter up kb args s = value / 1024 * 1024 % 2 ^ 32 := by
  have hrate : ∀ g : GlobalThrottle, (g.setThrottle (uint32 (value >>> (10 : ℕ)))).maxRate =
      value / 1024 * 1024 % 2 ^ 32 := by
    intro g
    simp only [GlobalThrottle.setThrottle, uint32, Int.shiftRight_eq_div_pow]
    omega
  rw [maxRateAfter, setMaxRate, h]
  cases up with
  | false => exact hrate s.down
  | true => exact hrate s.up

theorem roundsDown_iff (h : maxRateValue kb args = .ok value) (s : Throttles) :
    RoundsDown value (maxRateAfter up kb args s) ↔ 0 ≤ value ∧ value < 2 ^ 32 := by
  rw [RoundsDown, maxRateAfter_eq h s]
  omega

end

/-- Two accepted values give rates that are rounded down and in the same order exactly when both
have 32 bits. -/
theorem maxRates_exact_iff {up kb kb' : Bool} {args args' : Object} {v w : ℤ}
    (hv : maxRateValue kb args = .ok v) (hw : maxRateValue kb' args' = .ok w) (hle : v ≤ w)
    (s s' : Throttles) :
    RoundsDown v (maxRateAfter up kb args s) ∧ RoundsDown w (maxRateAfter up kb' args' s') ∧
        maxRateAfter up kb args s ≤ maxRateAfter up kb' args' s' ↔
      0 ≤ v ∧ w < 2 ^ 32 := by
  rw [roundsDown_iff hv s, roundsDown_iff hw s', maxRateAfter_eq hv s, maxRateAfter_eq hw s']
  omega

theorem maxRates_exact_iff_small :
    maxRateAfter true false (.value 2000) noThrottles ≤
      maxRateAfter true true (.string ['5']) noThrottles := by
  have hv : maxRateValue false (.value 2000) = .ok 2000 := rfl
  have hw : maxRateValue true (.string ['5']) = .ok 5120 := rfl
  exact ((maxRates_exact_iff hv hw (by decide) noThrottles noThrottles).mpr (by decide)).2.2

/-- A limit of 4 GiB is no limit, and less than one of 1 KiB. -/
theorem maxRate_wraps :
    maxRateValue false (.value 4294967296) = .ok 4294967296 ∧
    maxRateAfter true false (.value 4294967296) noThrottles = 0 ∧
    maxRateAfter true false (.value 1024) noThrottles = 1024 ∧
    ¬RoundsDown 4294967296 (maxRateAfter true false (.value 4294967296) noThrottles) := by
  refine ⟨rfl, rfl, rfl, ?_⟩
  rintro ⟨hrate, -⟩
  cases hrate

/-- A multiple of 1024 with 32 bits. -/
def GlobalThrottle.Rounded (g : GlobalThrottle) : Prop := ∃ n : ℕ, n < 2 ^ 22 ∧ g.maxRate = n * 1024

def Throttles.Rounded (s : Throttles) : Prop := s.up.Rounded ∧ s.down.Rounded

theorem setThrottle_rounded (g : GlobalThrottle) (throttle : ℕ) :
    (g.setThrottle throttle).Rounded := by
  refine ⟨throttle % 2 ^ 22, Nat.mod_lt _ (by decide), ?_⟩
  simp only [GlobalThrottle.setThrottle]
  omega

variable (setting : Setting) (commands : List ThrottleCommand)

theorem store_maxRate (value : ℤ) (s : Throttles) :
    (setting.store value s).up.maxRate = s.up.maxRate ∧
      (setting.store value s).down.maxRate = s.down.maxRate := by
  cases setting <;> exact ⟨rfl, rfl⟩

theorem throttleUpdate_rounded (value : ℤ) (s : Throttles) :
    (throttleUpdate setting value s).Rounded :=
  ⟨setThrottle_rounded _ _, setThrottle_rounded _ _⟩

/-- The global throttles are not changed, or only to rounded rates. -/
def RoundedKept (s t : Throttles) : Prop := s.Rounded → t.Rounded

theorem roundedKept_compositional :
    Compositional (fun _ : Failure => True) (@Keeps Failure Throttles RoundedKept) :=
  keeps_compositional (fun _ h => h) (fun _ _ _ h h' hs => h' (h hs)) _

theorem modify_rounded {f : Throttles → Throttles} (h : ∀ s, RoundedKept s (f s)) :
    Keeps RoundedKept (do Run.modify f; pure Object.none : ThrottleRun Object) :=
  roundedKept_compositional.bind (fun s => h s) fun _ => roundedKept_compositional.pure _

theorem ofExcept_rounded {α : Type} (x : Except Failure α) :
    Keeps RoundedKept (Run.ofExcept x : ThrottleRun α) :=
  roundedKept_compositional.ofExcept fun _ _ => trivial

theorem applyThrottle_rounded (args : List Object) (up : Bool) :
    Keeps RoundedKept (applyThrottle args up) := by
  cases args with
  | nil => exact ofExcept_rounded _
  | cons first rest =>
    refine roundedKept_compositional.bind (ofExcept_rounded _) fun name => ?_
    split
    · exact ofExcept_rounded _
    cases rest with
    | nil => exact ofExcept_rounded _
    | cons arg more =>
      refine roundedKept_compositional.bind (ofExcept_rounded _) fun text => ?_
      split
      · exact ofExcept_rounded _
      dsimp only
      split
      · exact ofExcept_rounded _
      · exact modify_rounded fun _ => id

theorem perform_rounded (command : ThrottleCommand) : Keeps RoundedKept (perform command) := by
  cases command with
  | apply up args => exact applyThrottle_rounded args up
  | setMaxRate up kb args =>
    refine roundedKept_compositional.bind (ofExcept_rounded _) fun value => modify_rounded ?_
    intro s h
    cases up
    · exact ⟨h.1, setThrottle_rounded _ _⟩
    · exact ⟨setThrottle_rounded _ _, h.2⟩
  | adjust up step =>
    refine modify_rounded ?_
    intro s h
    cases up
    · exact ⟨h.1, setThrottle_rounded _ _⟩
    · exact ⟨setThrottle_rounded _ _, h.2⟩
  | update setting args =>
    refine roundedKept_compositional.bind (ofExcept_rounded _) fun value => ?_
    exact modify_rounded fun s _ => throttleUpdate_rounded setting value s

theorem performAll_rounded {s : Throttles} (h : s.Rounded) : (performAll commands s).Rounded := by
  induction commands generalizing s with
  | nil => exact h
  | cons command commands ih => exact ih (perform_rounded command s h)

theorem setThrottle_adjust {g g' : GlobalThrottle} (hg : g.Rounded) (h : g'.maxRate = g.maxRate) :
    (g'.setThrottle (nonNegative (g'.maxRate / 1024 + 0))).maxRate = g.maxRate := by
  obtain ⟨n, hn, hrate⟩ := hg
  have hsmall : nonNegative (g'.maxRate / 1024 + 0) = n := by
    have hdiv : g'.maxRate / 1024 + 0 = n := by omega
    rw [hdiv, nonNegative, int32, Int.bmod_eq_of_le (by omega) (by omega)]
    omega
  rw [hsmall]
  simp only [GlobalThrottle.setThrottle]
  omega

/-- Setting a number of slots computes both maximum rates anew and leaves them as they are. -/
theorem settings_keep_rates {s : Throttles} (h : s.Rounded) (setting : Setting) (value : ℤ) :
    (throttleUpdate setting value (performAll commands s)).up.maxRate =
        (performAll commands s).up.maxRate ∧
      (throttleUpdate setting value (performAll commands s)).down.maxRate =
        (performAll commands s).down.maxRate := by
  obtain ⟨hup, hdown⟩ := performAll_rounded commands h
  have hstore := store_maxRate setting value (performAll commands s)
  exact ⟨setThrottle_adjust hup hstore.1, setThrottle_adjust hdown hstore.2⟩

theorem settings_keep_rates_small :
    (throttleUpdate .uploadsDiv 3 (performAll [.setMaxRate true true (.string ['5'])]
      noThrottles)).up.maxRate = 5120 := by
  have hr : noThrottles.Rounded := ⟨⟨0, by decide, rfl⟩, 0, by decide, rfl⟩
  exact (settings_keep_rates _ hr .uploadsDiv 3).1

end ThrottleCommands
