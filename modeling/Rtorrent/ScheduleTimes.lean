import Rtorrent.CommandScheduler

/-! # Times written in fields

`parse_time` keeps what it has read of up to four numbers in an `int` and multiplies it by 60, 60
and 24 in front of the next number. -/
namespace ScheduleTimes

open RpcTextParser RpcCommandParser RpcValueParser CommandScheduler

inductive Sign where
  | none
  | plus
  | minus
  deriving DecidableEq, Repr

def Sign.text : Sign → Text
  | .none => []
  | .plus => ['+']
  | .minus => ['-']

/-- A decimal number as `strtol` takes it, and the blanks that may follow it. -/
structure Field where
  before : Text
  sign : Sign
  digits : Text
  after : Text
  before_blank : ∀ c ∈ before, isSpace c = true
  some_digit : digits ≠ []
  decimal : ∀ c ∈ digits, isDigitOf 10 c = true
  after_blank : ∀ c ∈ after, isSpace c = true

namespace Field

def text (f : Field) : Text := f.before ++ (f.sign.text ++ (f.digits ++ f.after))

def value (f : Field) : ℤ :=
  if f.sign = .minus then -digitsValue 10 f.digits else digitsValue 10 f.digits

/-- A number that does not fit into a `long` is read as the nearest one that does. -/
def cut (f : Field) : ℤ := saturate f.value

end Field

/-- One to four fields. -/
structure TimeText where
  fields : List Field
  some_field : fields ≠ []
  four : fields.length ≤ 4

def joined : List Field → Text
  | [] => []
  | [f] => f.text
  | f :: g :: fs => f.text ++ ':' :: joined (g :: fs)

/-- The seconds that the numbers stand for: `s`, `m:s`, `h:m:s` or `d:h:m:s`. -/
def seconds : List ℤ → ℤ
  | [s] => s
  | [m, s] => 60 * m + s
  | [h, m, s] => 3600 * h + 60 * m + s
  | [d, h, m, s] => 86400 * d + 3600 * h + 60 * m + s
  | _ => 0

namespace TimeText

def text (t : TimeText) : Text := joined t.fields

def values (t : TimeText) : List ℤ := t.fields.map Field.value

def cuts (t : TimeText) : List ℤ := t.fields.map Field.cut

def requested (t : TimeText) : ℤ := seconds t.values

end TimeText

/-- What has been read behind each number, without bounds. `left` numbers may follow the next one.
-/
def reached (left : ℕ) (second : ℤ) : List ℤ → List ℤ
  | [] => []
  | v :: vs =>
    (second + v) :: reached (left - 1) ((second + v) * if left ≤ 1 then 24 else 60) vs

/-- An `int` that has reached the value is negative. -/
def Negative (v : ℤ) : Prop := 2 ^ 31 ≤ v % 2 ^ 32

instance (v : ℤ) : Decidable (Negative v) := inferInstanceAs (Decidable (_ ≤ _))

/-- The `int` is negative behind one of the numbers. -/
def Refused (left : ℕ) (second : ℤ) (vs : List ℤ) : Prop := ∃ v ∈ reached left second vs, Negative v

variable (fs : List Field) (f : Field) (rest : Text)

theorem sign_blank :
    (f.sign.text ++ (f.digits ++ rest)).dropWhile isSpace = f.sign.text ++ (f.digits ++ rest) := by
  obtain ⟨c, cs, hd⟩ := List.exists_cons_of_ne_nil f.some_digit
  have hc := (digit_plain (f.decimal c (hd ▸ List.mem_cons_self))).1
  rw [hd]
  cases f.sign with
  | none => rw [Sign.text, List.nil_append, List.cons_append, List.dropWhile_cons,
      if_neg (by simp [hc])]
  | plus => rfl
  | minus => rfl

theorem readSign_field :
    readSign (f.sign.text ++ (f.digits ++ rest)) =
      (decide (f.sign = .minus), f.digits ++ rest) := by
  obtain ⟨c, cs, hd⟩ := List.exists_cons_of_ne_nil f.some_digit
  obtain ⟨-, hm, hp, -⟩ := digit_plain (f.decimal c (hd ▸ List.mem_cons_self))
  cases f.sign with
  | none =>
    rw [hd, Sign.text, List.nil_append, List.cons_append, readSign_plain hm hp]
    rfl
  | plus => rfl
  | minus => rfl

/-- The text does not go on with a digit. -/
def Stops (text : Text) : Prop := ∀ c ∈ text.head?, isDigitOf 10 c = false

theorem takeWhile_digits {digits rest : Text} (hd : ∀ c ∈ digits, isDigitOf 10 c = true)
    (hr : Stops rest) : (digits ++ rest).takeWhile (isDigitOf 10) = digits := by
  rw [List.takeWhile_append_of_pos hd]
  cases rest with
  | nil => simp
  | cons c cs => simp [hr c rfl]

theorem isDigitOf_blank {c : Char} (h : isSpace c = true) : isDigitOf 10 c = false := by
  rw [Bool.eq_false_iff]
  intro hd
  rw [(digit_plain hd).1] at h
  cases h

theorem stops_after {rest : Text} (hr : Stops rest) : Stops (f.after ++ rest) := by
  cases ha : f.after with
  | nil => exact hr
  | cons c cs =>
    intro d hd
    cases hd
    exact isDigitOf_blank (f.after_blank c (ha ▸ List.mem_cons_self))

theorem strtoll_field {rest : Text} (hr : Stops rest) :
    strtoll 10 (f.text ++ rest) = some (f.cut, f.after ++ rest) := by
  have hs : (f.text ++ rest).dropWhile isSpace =
      f.sign.text ++ (f.digits ++ (f.after ++ rest)) := by
    rw [Field.text, List.append_assoc, List.dropWhile_append_of_pos f.before_blank,
      List.append_assoc, List.append_assoc, sign_blank]
  have ht := takeWhile_digits f.decimal (stops_after f hr)
  have hn : f.digits.isEmpty = false := by simpa using f.some_digit
  simp only [strtoll, hs, readSign_field, readBase_ten, ht, hn, Bool.false_eq_true, ↓reduceIte,
    List.drop_left, decide_eq_true_eq]
  rfl

theorem blank_dropped {rest : Text} (hr : ∀ c ∈ rest.head?, isSpace c = false) :
    (f.after ++ rest).dropWhile isSpace = rest := by
  rw [List.dropWhile_append_of_pos f.after_blank]
  cases rest with
  | nil => rfl
  | cons c cs => rw [List.dropWhile_cons, if_neg (by simp [hr c rfl])]

theorem stops_nil : Stops [] := by
  intro c hc
  cases hc

theorem stops_colon (text : Text) : Stops (':' :: text) := by
  intro c hc
  cases hc
  decide

theorem int32_add (a v : ℤ) : int32 (int32 a + v) = int32 (a + v) := Int.bmod_add_bmod

theorem int32_mul (a v : ℤ) : int32 (int32 a * v) = int32 (a * v) := Int.bmod_mul_bmod

theorem int32_neg_iff (v : ℤ) : int32 v < 0 ↔ Negative v := by
  rw [int32, Int.bmod_def, Negative]
  split <;> omega

theorem int32_of_not_negative {v : ℤ} (h : ¬Negative v) : int32 v = v % 2 ^ 32 := by
  rw [Negative] at h
  rw [int32, Int.bmod_def]
  split <;> omega

theorem uint32_toInt {v : ℤ} (h : 0 ≤ v) (h' : v < 2 ^ 32) : (uint32 v : ℤ) = v := by
  rw [uint32]
  omega

theorem parseTimeLoop_negative {left : ℕ} {second : ℤ} {rest : Text} (hr : Stops rest)
    (h : Negative (second + f.cut)) :
    parseTimeLoop left (int32 second) (f.text ++ rest) = (0, 0) := by
  unfold parseTimeLoop
  rw [strtoll_field f hr]
  dsimp only
  rw [int32_add, if_pos ((int32_neg_iff _).mpr h)]

theorem parseTimeLoop_last {left : ℕ} {second : ℤ} (h : ¬Negative (second + f.cut)) :
    parseTimeLoop left (int32 second) f.text = (4 - left, int32 (second + f.cut)) := by
  have hs := strtoll_field f stops_nil
  have hb : (f.after ++ []).dropWhile isSpace = [] := blank_dropped f (by intro c hc; cases hc)
  rw [List.append_nil] at hs
  unfold parseTimeLoop
  rw [hs]
  dsimp only
  rw [int32_add, if_neg (mt (int32_neg_iff _).mp h), hb]

theorem parseTimeLoop_next {left : ℕ} {second : ℤ} (h : ¬Negative (second + f.cut)) :
    parseTimeLoop (left + 1) (int32 second) (f.text ++ ':' :: rest) =
      parseTimeLoop left (int32 ((second + f.cut) * if left + 1 ≤ 1 then 24 else 60)) rest := by
  have hb : (f.after ++ ':' :: rest).dropWhile isSpace = ':' :: rest :=
    blank_dropped f (by intro c hc; cases hc; rfl)
  rw [parseTimeLoop.eq_def, strtoll_field f (stops_colon rest)]
  dsimp only
  rw [int32_add, if_neg (mt (int32_neg_iff _).mp h), hb]
  dsimp only
  rw [if_neg (by simp), int32_mul]

theorem parseTimeLoop_joined : ∀ (f : Field) (left : ℕ) (second : ℤ),
    fs.length ≤ left → left ≤ 3 →
    (Refused left second ((f :: fs).map Field.cut) →
      parseTimeLoop left (int32 second) (joined (f :: fs)) = (0, 0)) ∧
    (¬Refused left second ((f :: fs).map Field.cut) →
      ∃ v, (reached left second ((f :: fs).map Field.cut)).getLast? = some v ∧
        parseTimeLoop left (int32 second) (joined (f :: fs)) =
          (4 - left + fs.length, v % 2 ^ 32)) := by
  induction fs with
  | nil =>
    intro f left second _ _
    have hr : Refused left second ([f].map Field.cut) ↔ Negative (second + f.cut) := by
      simp [Refused, reached]
    rw [hr, joined]
    constructor
    · intro h
      rw [← List.append_nil f.text]
      exact parseTimeLoop_negative f stops_nil h
    · intro h
      refine ⟨second + f.cut, rfl, ?_⟩
      rw [parseTimeLoop_last f h, int32_of_not_negative h]
      rfl
  | cons g fs ih =>
    intro f left second hl h3
    rw [List.length_cons] at hl
    obtain ⟨left, rfl⟩ : ∃ n, left = n + 1 := ⟨left - 1, by omega⟩
    have hn := ih g left ((second + f.cut) * if left + 1 ≤ 1 then 24 else 60) (by omega) (by omega)
    have hr : Refused (left + 1) second ((f :: g :: fs).map Field.cut) ↔
        Negative (second + f.cut) ∨
          Refused left ((second + f.cut) * if left + 1 ≤ 1 then 24 else 60)
            ((g :: fs).map Field.cut) := by
      simp [Refused, reached]
    rw [hr, joined]
    by_cases h : Negative (second + f.cut)
    · rw [parseTimeLoop_negative f (stops_colon _) h]
      exact ⟨fun _ => rfl, fun hn => absurd (.inl h) hn⟩
    · rw [parseTimeLoop_next f _ h]
      constructor
      · intro hc
        exact hn.1 (hc.resolve_left h)
      · intro hc
        obtain ⟨v, hv, hp⟩ := hn.2 fun hf => hc (.inr hf)
        refine ⟨v, ?_, ?_⟩
        · simp only [List.map_cons, reached] at hv ⊢
          rw [List.getLast?_cons_cons]
          exact hv
        · rw [hp, List.length_cons]
          congr 1
          omega

theorem text_no_nul : '\x00' ∉ f.text := by
  have hb : isSpace '\x00' = false := by decide
  simp only [Field.text, List.mem_append, not_or]
  refine ⟨?_, ?_, ?_, ?_⟩
  · intro h
    rw [f.before_blank _ h] at hb
    cases hb
  · cases f.sign <;> decide
  · intro h
    exact (digit_plain (f.decimal _ h)).2.2.2 rfl
  · intro h
    rw [f.after_blank _ h] at hb
    cases hb

theorem joined_no_nul : '\x00' ∉ joined fs := by
  induction fs using joined.induct with
  | case1 => exact List.not_mem_nil
  | case2 f => exact text_no_nul f
  | case3 f g fs ih =>
    rw [joined, List.mem_append, List.mem_cons]
    rintro (h | h | h)
    · exact text_no_nul f h
    · revert h
      decide
    · exact ih h

namespace TimeText

/-- The time read up to some number does not fit into an `int`, which shows it as negative. -/
def Overflows (t : TimeText) : Prop := Refused 3 0 t.cuts

theorem parseTime_text (t : TimeText) :
    (t.Overflows → parseTime t.text = (0, 0)) ∧
    (¬t.Overflows → ∃ v, (reached 3 0 t.cuts).getLast? = some v ∧
      parseTime t.text = (t.fields.length, v % 2 ^ 32)) := by
  rcases t with ⟨fields, hs, h4⟩
  obtain ⟨f, fs, rfl⟩ := List.exists_cons_of_ne_nil hs
  have hl : fs.length ≤ 3 := Nat.le_of_succ_le_succ h4
  have hp : parseTime (joined (f :: fs)) = parseTimeLoop 3 (int32 0) (joined (f :: fs)) := by
    rw [parseTime, cString_of_not_mem (joined_no_nul _)]
    rfl
  have hj := parseTimeLoop_joined fs f 3 0 hl (Nat.le_refl 3)
  rw [text, hp]
  refine ⟨hj.1, fun h => ?_⟩
  obtain ⟨v, hv, he⟩ := hj.2 h
  refine ⟨v, hv, ?_⟩
  rw [he, List.length_cons, Nat.add_comm]

/-- What the numbers add up to. With four of them the factors stand in the wrong order. -/
def counted : List ℤ → ℤ
  | [d, h, m, s] => 86400 * d + 1440 * h + 24 * m + s
  | vs => seconds vs

theorem shape {α : Type} {l : List α} (h : l ≠ []) (h4 : l.length ≤ 4) :
    (∃ s, l = [s]) ∨ (∃ m s, l = [m, s]) ∨ (∃ h m s, l = [h, m, s]) ∨
      ∃ d h m s, l = [d, h, m, s] := by
  rcases l with _ | ⟨a, _ | ⟨b, _ | ⟨c, _ | ⟨d, _ | ⟨e, l⟩⟩⟩⟩⟩
  · exact absurd rfl h
  · exact .inl ⟨a, rfl⟩
  · exact .inr (.inl ⟨a, b, rfl⟩)
  · exact .inr (.inr (.inl ⟨a, b, c, rfl⟩))
  · exact .inr (.inr (.inr ⟨a, b, c, d, rfl⟩))
  · simp only [List.length_cons] at h4
    omega

theorem reached_last {vs : List ℤ} (h : vs ≠ []) (h4 : vs.length ≤ 4) :
    (reached 3 0 vs).getLast? = some (counted vs) := by
  obtain ⟨s, rfl⟩ | ⟨m, s, rfl⟩ | ⟨h, m, s, rfl⟩ | ⟨d, h, m, s, rfl⟩ := shape h h4 <;>
    simp [reached, counted, seconds] <;> omega

theorem parseTime_of_not_overflows {t : TimeText} (h : ¬t.Overflows) :
    parseTime t.text = (t.fields.length, counted t.cuts % 2 ^ 32) := by
  obtain ⟨v, hv, hp⟩ := t.parseTime_text.2 h
  rw [reached_last (by simpa [cuts] using t.some_field) (by simpa [cuts] using t.four)] at hv
  cases hv
  exact hp

theorem counted_lt {t : TimeText} (h : ¬t.Overflows) : counted t.cuts % 2 ^ 32 < 2 ^ 31 := by
  obtain ⟨v, hv, -⟩ := t.parseTime_text.2 h
  have hm := List.mem_of_getLast? hv
  rw [reached_last (by simpa [cuts] using t.some_field) (by simpa [cuts] using t.four)] at hv
  cases hv
  rw [← Int.not_le]
  exact fun hn => h ⟨_, hm, hn⟩

theorem parseInterval_overflows {t : TimeText} (h : t.Overflows) :
    parseInterval t.text = inputError "Could not parse interval." := by
  rw [parseInterval, t.parseTime_text.1 h]
  rfl

theorem parseInterval_ok {t : TimeText} (h : ¬t.Overflows) :
    ∃ n : ℕ, parseInterval t.text = .ok n ∧ (n : ℤ) = counted t.cuts % 2 ^ 32 := by
  have hl : t.fields.length ≠ 0 := by simpa using t.some_field
  have hc := counted_lt h
  refine ⟨uint32 (counted t.cuts % 2 ^ 32), ?_, uint32_toInt (by omega) (by omega)⟩
  rw [parseInterval, parseTime_of_not_overflows h]
  split
  · rename_i heq
    exact absurd (Prod.mk.inj heq).1 hl
  · rename_i heq
    rw [← (Prod.mk.inj heq).2]

theorem saturate_small {v : ℤ} (h : 0 ≤ v) (h' : v < 2 ^ 31) : saturate v = v := by
  rw [saturate, int64Min, int64Max]
  omega

section

variable {vs : List ℤ} (hv : ∀ v ∈ vs, 0 ≤ v) (hn : vs ≠ []) (h4 : vs.length ≤ 4)

include hv hn h4

theorem le_seconds : ∀ v ∈ vs, v ≤ seconds vs := by
  obtain ⟨s, rfl⟩ | ⟨m, s, rfl⟩ | ⟨h, m, s, rfl⟩ | ⟨d, h, m, s, rfl⟩ := shape hn h4 <;>
    simp [seconds] at hv ⊢ <;> omega

theorem counted_le_seconds : 0 ≤ counted vs ∧ counted vs ≤ seconds vs := by
  obtain ⟨s, rfl⟩ | ⟨m, s, rfl⟩ | ⟨h, m, s, rfl⟩ | ⟨d, h, m, s, rfl⟩ := shape hn h4 <;>
    simp [counted, seconds] at hv ⊢ <;> omega

theorem counted_eq_seconds_iff :
    counted vs = seconds vs ↔ ∀ d h m s, vs = [d, h, m, s] → h = 0 ∧ m = 0 := by
  obtain ⟨s, rfl⟩ | ⟨m, s, rfl⟩ | ⟨h, m, s, rfl⟩ | ⟨d, h, m, s, rfl⟩ := shape hn h4
  · simp [counted]
  · simp [counted]
  · simp [counted]
  · have hh := hv h (by simp)
    have hm := hv m (by simp)
    simp only [counted, seconds]
    constructor
    · intro he d' h' m' s' hl
      cases hl
      omega
    · intro hz
      obtain ⟨rfl, rfl⟩ := hz d h m s rfl
      rfl

end

theorem counted_eq_requested_iff {t : TimeText} (hv : ∀ v ∈ t.values, 0 ≤ v)
    (hlt : counted t.cuts % 2 ^ 32 < 2 ^ 31) :
    counted t.cuts % 2 ^ 32 = t.requested ↔
      t.requested < 2 ^ 31 ∧ ∀ d h m s, t.values = [d, h, m, s] → h = 0 ∧ m = 0 := by
  have hn : t.values ≠ [] := by simpa [values] using t.some_field
  have h4 : t.values.length ≤ 4 := by simpa [values] using t.four
  have hc : t.requested < 2 ^ 31 → t.cuts = t.values := by
    intro hr
    apply List.map_congr_left
    intro f hf
    have hm : f.value ∈ t.values := List.mem_map_of_mem hf
    have hle := le_seconds hv hn h4 _ hm
    exact saturate_small (hv _ hm) (Int.lt_of_le_of_lt hle hr)
  obtain ⟨h0, hle⟩ := counted_le_seconds hv hn h4
  rw [← counted_eq_seconds_iff hv hn h4]
  rw [requested] at *
  constructor
  · intro he
    have hr : seconds t.values < 2 ^ 31 := he ▸ hlt
    rw [hc hr] at he
    omega
  · rintro ⟨hr, he⟩
    rw [hc hr]
    omega

/-- An interval is refused or returned as written exactly if the time read up to one of its
numbers shows as negative, or it fits into an `int` and has, if days are given, no hours and no
minutes. -/
theorem parseInterval_exact_iff (t : TimeText) (hv : ∀ v ∈ t.values, 0 ≤ v) :
    ((∃ what, parseInterval t.text = .error (.error .inputError what)) ∨
      ∃ n : ℕ, parseInterval t.text = .ok n ∧ (n : ℤ) = t.requested) ↔
    t.Overflows ∨
      t.requested < 2 ^ 31 ∧ ∀ d h m s, t.values = [d, h, m, s] → h = 0 ∧ m = 0 := by
  by_cases ho : t.Overflows
  · exact iff_of_true (.inl ⟨_, parseInterval_overflows ho⟩) (.inl ho)
  · obtain ⟨n, hp, hn⟩ := parseInterval_ok ho
    rw [← counted_eq_requested_iff hv (counted_lt ho), ← hn, hp]
    constructor
    · rintro (⟨what, hw⟩ | ⟨n', hn', he⟩)
      · cases hw
      · cases hn'
        exact .inr he
    · intro h
      exact .inr ⟨n, rfl, h.resolve_left ho⟩

end TimeText

def plain (digits : Text) (hn : digits ≠ []) (hd : digits.all (isDigitOf 10) = true) : Field :=
  ⟨[], .none, digits, [], by simp, hn, List.all_eq_true.mp hd, by simp⟩

def oneHour : TimeText where
  fields := [plain ['0'] (by simp) (by decide), plain ['1'] (by simp) (by decide),
    plain ['0'] (by simp) (by decide), plain ['0'] (by simp) (by decide)]
  some_field := by simp
  four := by simp

def oneDay : TimeText where
  fields := [plain ['1'] (by simp) (by decide), plain ['0'] (by simp) (by decide),
    plain ['0'] (by simp) (by decide), plain ['5'] (by simp) (by decide)]
  some_field := by simp
  four := by simp

theorem parseInterval_exact_oneDay :
    (∃ what, parseInterval oneDay.text = .error (.error .inputError what)) ∨
      ∃ n : ℕ, parseInterval oneDay.text = .ok n ∧ (n : ℤ) = oneDay.requested := by
  apply (TimeText.parseInterval_exact_iff oneDay (by decide)).mpr
  refine .inr ⟨by decide, ?_⟩
  intro d h m s hv
  cases hv
  decide

/-- One hour with its days written out is 1440 seconds. -/
theorem hours_read_as_minutes :
    oneHour.text = ['0', ':', '1', ':', '0', ':', '0'] ∧ oneHour.requested = 3600 ∧
    parseInterval oneHour.text = .ok 1440 := by
  decide +kernel

/-- The ranges of the fields of a `tm`; a minute can have a leap second. -/
structure Standard (l : LocalTime) : Prop where
  hour : l.hour ≤ 23
  min : l.min ≤ 59
  sec : l.sec ≤ 60

def timeOfDay (l : LocalTime) : ℤ := 3600 * l.hour + 60 * l.min + l.sec

namespace TimeText

def period (t : TimeText) : ℤ := if t.fields.length = 2 then 3600 else 86400

/-- The seconds of the period that have passed. -/
def elapsed (t : TimeText) (l : LocalTime) : ℤ :=
  if t.fields.length = 2 then 60 * l.min + l.sec else timeOfDay l

/-- The start time as the low half of a 64-bit number. -/
def wrapped (t : TimeText) : ℤ := seconds t.cuts % 2 ^ 32

/-- The start time is the requested one modulo the period, and adding the period stays in an
`int`, or both go wrong in the same way. -/
def KeepsPlace (t : TimeText) (l : LocalTime) : Prop :=
  t.wrapped + t.period - t.elapsed l < 2 ^ 31 ∧ t.period ∣ t.wrapped - t.requested ∨
  2 ^ 31 ≤ t.wrapped + t.period - t.elapsed l ∧ t.period ∣ t.wrapped - t.elapsed l - 2 ^ 32 ∧
    t.period ∣ t.elapsed l - t.requested

end TimeText

theorem remainder_small {x p : ℤ} (h0 : 0 ≤ x) (h : x < 2 ^ 31) (hp : 0 < p) (hp' : p < 2 ^ 32) :
    (uint32 (Int.tmod (int32 x) p) : ℤ) = x % p := by
  have hi : int32 x = x := by
    rw [int32, Int.bmod_def]
    split <;> omega
  have hn := Int.emod_nonneg x (Int.ne_of_gt hp)
  have hlt := Int.emod_lt_of_pos x hp
  rw [hi, Int.tmod_eq_emod_of_nonneg h0]
  exact uint32_toInt hn (Int.lt_trans hlt hp')

theorem remainder_large {x p : ℤ} (h : 2 ^ 31 ≤ x) (h' : x < 2 ^ 32) :
    (uint32 (Int.tmod (int32 x) p) : ℤ) = -((2 ^ 32 - x) % p) % 2 ^ 32 := by
  have hi : int32 x = -(2 ^ 32 - x) := by
    rw [int32, Int.bmod_def]
    split <;> omega
  rw [hi, Int.neg_tmod, Int.tmod_eq_emod_of_nonneg (by omega), uint32]
  omega

theorem remainder_iff {w e r p : ℤ} (hw : 0 ≤ w) (hw' : w < 2 ^ 31) (he : 0 ≤ e) (hp : e ≤ p)
    (h : p = 3600 ∨ p = 86400) :
    ((uint32 (Int.tmod (int32 (w + p - e)) p) : ℤ) < p ∧
      p ∣ e + uint32 (Int.tmod (int32 (w + p - e)) p) - r) ↔
    w + p - e < 2 ^ 31 ∧ p ∣ w - r ∨
      2 ^ 31 ≤ w + p - e ∧ p ∣ w - e - 2 ^ 32 ∧ p ∣ e - r := by
  by_cases hx : w + p - e < 2 ^ 31
  · rw [remainder_small (by omega) hx (by omega) (by omega)]
    rcases h with rfl | rfl <;> omega
  · rw [remainder_large (by omega) (by omega)]
    rcases h with rfl | rfl <;> omega

theorem counted_few {vs : List ℤ} (h : vs.length = 2 ∨ vs.length = 3) :
    TimeText.counted vs = seconds vs := by
  rw [TimeText.counted]
  rintro d m h s rfl
  simp at h

namespace TimeText

variable {t : TimeText} {l : LocalTime}

theorem elapsed_range (h : Standard l) : 0 ≤ t.elapsed l ∧ t.elapsed l ≤ t.period := by
  obtain ⟨hh, hm, hs⟩ := h
  rw [elapsed, period, timeOfDay]
  split <;> omega

theorem period_cases (t : TimeText) : t.period = 3600 ∨ t.period = 86400 := by
  rw [period]
  split <;> simp

theorem dvd_timeOfDay (v r : ℤ) :
    t.period ∣ timeOfDay l + v - r ↔ t.period ∣ t.elapsed l + v - r := by
  rw [elapsed, period]
  split
  · rw [timeOfDay]
    omega
  · rfl

theorem parseAbsolute_eq {clock : Clock} (h : t.fields.length = 2 ∨ t.fields.length = 3)
    (hc : clock.localTime = some l) (ho : ¬t.Overflows) :
    parseAbsolute clock t.text =
      .ok (uint32 (Int.tmod (int32 (t.wrapped + t.period - t.elapsed l)) t.period)) := by
  have hl : readLocalTime clock = .ok l := by rw [readLocalTime, hc]
  have hp := parseTime_of_not_overflows ho
  rw [counted_few (by simpa [cuts] using h)] at hp
  rw [parseAbsolute, hp, wrapped, period, elapsed]
  rcases h with h | h
  · rw [h, hl]
    rw [if_pos rfl, if_pos rfl, ← Int.sub_sub]
    rfl
  · rw [h, hl]
    rw [if_neg (by decide), if_neg (by decide), timeOfDay, ← Int.sub_sub, ← Int.sub_sub]
    rfl

/-- A start time that is accepted is reached after the delay, and within one period, exactly if it
keeps its place in the period when it is cut to 32 bits and the sum with the period stays below `2
^ 31`, or the two errors cancel out. -/
theorem parseAbsolute_reaches_iff {clock : Clock} {delay : ℕ}
    (h : t.fields.length = 2 ∨ t.fields.length = 3) (hs : Standard l)
    (hc : clock.localTime = some l) (ha : parseAbsolute clock t.text = .ok delay) :
    ((delay : ℤ) < t.period ∧ t.period ∣ timeOfDay l + delay - t.requested) ↔ t.KeepsPlace l := by
  have ho : ¬t.Overflows := by
    intro ho
    rw [parseAbsolute, t.parseTime_text.1 ho] at ha
    cases ha
  have hw : 0 ≤ t.wrapped ∧ t.wrapped < 2 ^ 31 := by
    have hlt := counted_lt ho
    rw [counted_few (by simpa [cuts] using h)] at hlt
    rw [wrapped]
    omega
  obtain ⟨he, hp⟩ := elapsed_range hs (t := t)
  rw [parseAbsolute_eq h hc ho] at ha
  cases ha
  rw [dvd_timeOfDay]
  exact remainder_iff hw.1 hw.2 he hp t.period_cases

end TimeText

def farMinute : TimeText where
  fields := [plain ['0'] (by simp) (by decide),
    plain ['4', '2', '9', '4', '9', '6', '7', '2', '9', '6'] (by simp) (by decide)]
  some_field := by simp
  four := by simp

def halfPast : TimeText where
  fields := [plain ['3', '0'] (by simp) (by decide), plain ['0', '0'] (by simp) (by decide)]
  some_field := by simp
  four := by simp

def tenPastTwo : LocalTime := ⟨14, 10, 0⟩

theorem parseAbsolute_reaches_halfPast :
    ((1200 : ℕ) : ℤ) < halfPast.period ∧
      halfPast.period ∣ timeOfDay tenPastTwo + (1200 : ℕ) - halfPast.requested := by
  have ha : parseAbsolute ⟨5000000, some tenPastTwo⟩ halfPast.text = .ok 1200 := by decide +kernel
  have hs : Standard tenPastTwo := ⟨by decide, by decide, by decide⟩
  exact (TimeText.parseAbsolute_reaches_iff (.inl rfl) hs rfl ha).mpr
    (.inl ⟨by decide, by decide⟩)

/-- A start time is accepted and the delay leads to the full hour in place of it. -/
theorem far_minute_missed :
    parseAbsolute ⟨5000000, some ⟨0, 0, 0⟩⟩ farMinute.text = .ok 0 ∧
    ¬farMinute.period ∣ timeOfDay ⟨0, 0, 0⟩ + (0 : ℕ) - farMinute.requested := by
  decide +kernel

end ScheduleTimes
