import Mathlib.Data.List.DropRight
import Rtorrent.RpcIntegers
import Rtorrent.StringCommands

/-! # Slices of a text

`string.substr` and the strip commands return some of the characters that follow each other in a
text. -/
namespace StringSlices

open FallibleRuns RpcTextParser RpcIntegers Segments StringCommands

def Outside (text : Text) (position : ℤ) : Prop :=
  position < -((characters text).length : ℤ) ∨ ((characters text).length : ℤ) < position

instance (text : Text) (position : ℤ) : Decidable (Outside text position) := instDecidableOr

def startOf (text : Text) (position : ℤ) : ℕ :=
  (if position < 0 then position + (characters text).length else position).toNat

variable (strips : ℕ → Bool) (name : String) (stripStart stripEnd : Bool) (text : Text)
  (position : ℤ) (strippable : List Text) (p : Text → Bool) (c : Text) (cs : List Text)

theorem utf8Substr_last {first : ℕ} (hfirst : first ≤ (characters text).length) (count : ℕ) :
    utf8Substr text (utf8Offsets text) first (min (characters text).length (first + count)) =
      (((characters text).drop first).take count).flatten := by
  rw [utf8Substr_eq text (by omega) (Nat.min_le_left _ _)]
  congr 1
  rcases Nat.le_total (characters text).length (first + count) with h | h
  · rw [Nat.min_eq_left h, List.take_of_length_le (by simp),
      List.take_of_length_le (by simp; omega)]
  · rw [Nat.min_eq_right h, Nat.add_sub_cancel_left]

theorem outside_iff : Outside text position ↔
    substrPosition (characters text).length position < 0 ∨
      ((characters text).length : ℤ) < substrPosition (characters text).length position := by
  unfold Outside substrPosition
  split <;> omega

theorem startOf_le {text : Text} {position : ℤ} (h : ¬Outside text position) :
    startOf text position ≤ (characters text).length := by
  unfold Outside at h
  unfold startOf
  split <;> omega

theorem substrLast_toNat (length count : ℕ) (position : ℤ) (hposition : 0 ≤ position) :
    (substrLast length position count).toNat = min length (position.toNat + count) := by
  unfold substrLast
  omega

theorem applyStringSubstr_count (count : ℕ) (fallback : Option Text) :
    applyStringSubstr
        (.string text :: .value position :: .value count :: (fallback.map .string).toList) =
      .ok (.string (if Outside text position then fallback.getD []
        else (((characters text).drop (startOf text position)).take count).flatten)) := by
  have hargs : applyStringSubstr
      (.string text :: .value position :: .value count :: (fallback.map .string).toList) =
      let textLength : ℤ := ((utf8Offsets text).length - 1 : ℕ)
      let position := substrPosition textLength position
      if position < 0 ∨ textLength < position then .ok (.string (fallback.getD []))
      else if (count : ℤ) < 0 then
        inputError "string.substr: the character count cannot be negative."
      else .ok (.string (utf8Substr text (utf8Offsets text) position.toNat
        (substrLast textLength position count).toNat)) := by
    cases fallback <;> rfl
  have hcount : ¬(count : ℤ) < 0 := by omega
  rw [hargs, length_utf8Offsets, Nat.add_sub_cancel]
  by_cases hout : Outside text position
  · simp only [(outside_iff text position).mp hout, if_true, hout]
  · have hpos := mt (outside_iff text position).mpr hout
    have hstart : 0 ≤ substrPosition (characters text).length position := by omega
    simp only [hpos, hout, hcount, if_false, substrLast_toNat _ _ _ hstart]
    exact congrArg (fun t => Except.ok (Object.string t))
      (utf8Substr_last text (startOf_le hout) count)

theorem applyStringSubstr_rest :
    applyStringSubstr [.string text, .value position] =
      .ok (.string (if Outside text position then []
        else ((characters text).drop (startOf text position)).flatten)) := by
  have hargs : applyStringSubstr [.string text, .value position] =
      let textLength : ℤ := ((utf8Offsets text).length - 1 : ℕ)
      let position := substrPosition textLength position
      if position < 0 ∨ textLength < position then .ok (.string [])
      else .ok (.string (utf8Substr text (utf8Offsets text) position.toNat textLength.toNat)) := rfl
  rw [hargs, length_utf8Offsets, Nat.add_sub_cancel]
  by_cases hout : Outside text position
  · simp only [(outside_iff text position).mp hout, if_true, hout]
  · have hpos := mt (outside_iff text position).mpr hout
    simp only [hpos, hout, if_false, Int.toNat_natCast]
    have hslice := utf8Substr_eq text (startOf_le hout) (Nat.le_refl _)
    rw [List.take_of_length_le (by simp)] at hslice
    exact congrArg (fun t => Except.ok (Object.string t)) hslice

/-- The longest text has less than `2 ^ 62` bytes, which the sums in 64 bits need. -/
theorem substr_sums (length : ℕ) (hlength : length < 2 ^ 62) (position count : ℤ)
    (hposition : isInt64 position) (hcount : 0 ≤ count) :
    isInt64 (substrPosition length position) ∧
    (substrPosition length position ≤ length →
      isInt64 (substrPosition length position + min count length)) := by
  simp only [isInt64_iff, substrPosition] at *
  constructor
  · split <;> omega
  · intro _
    split <;> omega

/-- A substring is a slice of the characters, and the three that two positions cut a text into are
the text. -/
theorem substr_eq_slice (text : Text) :
    (∀ (position : ℤ) (count : ℕ) (fallback : Option Text), ∃ result : Text,
      applyStringSubstr
          (.string text :: .value position :: .value count :: (fallback.map .string).toList) =
        .ok (.string result) ∧
      (Outside text position → result = fallback.getD []) ∧
      (¬Outside text position →
        characters result = ((characters text).drop (startOf text position)).take count)) ∧
    (∀ (position : ℤ) (count : ℕ), text.length < 2 ^ 62 → isInt64 position →
      isInt64 (substrPosition (characters text).length position) ∧
      (¬Outside text position → isInt64 (substrPosition (characters text).length position +
        min (count : ℤ) (characters text).length))) ∧
    ∀ p q : ℕ, p ≤ q → q ≤ (characters text).length → ∃ first second third : Text,
      applyStringSubstr [.string text, .value 0, .value p] = .ok (.string first) ∧
      applyStringSubstr [.string text, .value p, .value ((q : ℤ) - p)] = .ok (.string second) ∧
      applyStringSubstr [.string text, .value q] = .ok (.string third) ∧
      first ++ second ++ third = text := by
  refine ⟨?_, ?_, ?_⟩
  · intro position count fallback
    refine ⟨_, applyStringSubstr_count text position count fallback, fun h => if_pos h, fun h => ?_⟩
    rw [if_neg h]
    have hin : ((characters text).drop (startOf text position)).take count <:+: characters text :=
      (List.take_prefix _ _).isInfix.trans (List.drop_suffix _ _).isInfix
    exact characters_flatten_of_slice hin
  · intro position count hlength hposition
    have hle := Nat.lt_of_le_of_lt (@length_segments_le Char isContinuation text) hlength
    obtain ⟨hstart, hsum⟩ := substr_sums _ hle position count hposition (Int.natCast_nonneg count)
    refine ⟨hstart, fun h => hsum ?_⟩
    have hin := mt (outside_iff text position).mpr h
    exact Int.not_lt.mp (not_or.mp hin).2
  · intro p q hpq hq
    have hcount : ((q : ℤ) - p) = ((q - p : ℕ) : ℤ) := by omega
    have hinside : ∀ i : ℕ, i ≤ (characters text).length → ¬Outside text i := by
      intro i hi
      unfold Outside
      omega
    have hstart : ∀ i : ℕ, startOf text i = i := by
      intro i
      unfold startOf
      split <;> omega
    have hfirst := applyStringSubstr_count text (0 : ℕ) p none
    have hsecond := applyStringSubstr_count text p (q - p) none
    have hthird := applyStringSubstr_rest text q
    rw [if_neg (hinside _ (by omega)), hstart] at hfirst hsecond hthird
    refine ⟨_, _, _, hfirst, hcount ▸ hsecond, hthird, ?_⟩
    have hmiddle : (characters text).take p ++ ((characters text).drop p).take (q - p) =
        (characters text).take q := by
      rw [← List.take_add, Nat.add_sub_cancel' hpq]
    rw [List.drop_zero, ← List.flatten_append, hmiddle, ← List.flatten_append,
      List.take_append_drop, flatten_characters]

def strip (stripStart stripEnd : Bool) (p : Text → Bool) (cs : List Text) : List Text :=
  let cs := if stripStart then cs.dropWhile p else cs
  if stripEnd then cs.rdropWhile p else cs

theorem stripStartLoop_eq (first : ℕ)
    (h : ∀ i (hi : i < cs.length), strips (first + i) = p (cs.get ⟨i, hi⟩)) :
    stripStartLoop strips cs.length first = first + (cs.takeWhile p).length := by
  induction cs generalizing first with
  | nil => rfl
  | cons c cs ih =>
    have hhead : strips first = p c := h 0 (Nat.succ_pos _)
    have htail := ih (first + 1) fun i hi => by
      simpa [Nat.add_assoc, Nat.add_comm 1] using h (i + 1) (Nat.succ_lt_succ hi)
    cases hc : p c
    · simp [stripStartLoop, hhead, hc]
    · simp [stripStartLoop, hhead, hc, htail]
      omega

theorem stripEndLoop_eq (first : ℕ)
    (h : ∀ i (hi : i < cs.length), strips (first + i) = p (cs.get ⟨i, hi⟩)) :
    stripEndLoop strips cs.length (first + cs.length) = first + (cs.rdropWhile p).length := by
  induction cs using List.reverseRecOn with
  | nil => rfl
  | append_singleton cs c ih =>
    have hlast : strips (first + cs.length) = p c := by
      simpa using h cs.length (by simp)
    have hrest := ih fun i hi => by
      have hi' : i < (cs ++ [c]).length := by
        simp only [List.length_append]
        omega
      simpa [List.getElem_append_left hi] using h i hi'
    have hstep : stripEndLoop strips (cs ++ [c]).length (first + (cs ++ [c]).length) =
        if p c then stripEndLoop strips cs.length (first + cs.length)
        else first + (cs ++ [c]).length := by
      rw [List.length_append, ← hlast]
      rfl
    rw [hstep, List.rdropWhile_concat]
    split
    · exact hrest
    · rfl

theorem stripStart_eq {strips : ℕ → Bool} {p : Text → Bool} {cs : List Text}
    (h : ∀ i (hi : i < cs.length), strips i = p (cs.get ⟨i, hi⟩)) (stripStart : Bool) :
    (if stripStart then stripStartLoop strips cs.length 0 else 0) ≤ cs.length ∧
    cs.drop (if stripStart then stripStartLoop strips cs.length 0 else 0) =
      if stripStart then cs.dropWhile p else cs := by
  cases stripStart with
  | false => simp
  | true =>
    have hloop := stripStartLoop_eq strips p cs 0 (by simpa using h)
    have hsplit := @List.takeWhile_append_dropWhile _ p cs
    have hlen := congrArg List.length hsplit
    rw [List.length_append] at hlen
    simp only [if_true, hloop, Nat.zero_add]
    refine ⟨by omega, ?_⟩
    conv_lhs => arg 2; rw [← hsplit]
    exact List.drop_left

theorem stripEnd_eq {strips : ℕ → Bool} {p : Text → Bool} {cs : List Text}
    (h : ∀ i (hi : i < cs.length), strips i = p (cs.get ⟨i, hi⟩)) (stripEnd : Bool) {first : ℕ}
    (hfirst : first ≤ cs.length) :
    (if stripEnd then stripEndLoop strips (cs.length - first) cs.length else cs.length) =
      first + (if stripEnd then (cs.drop first).rdropWhile p else cs.drop first).length := by
  have hlen : first + (cs.drop first).length = cs.length := by
    rw [List.length_drop]
    omega
  cases stripEnd with
  | false => exact hlen.symm
  | true =>
    have hloop := stripEndLoop_eq strips p (cs.drop first) first fun i hi => by
      have hi' : first + i < cs.length := by omega
      simpa using h (first + i) hi'
    rw [hlen, List.length_drop] at hloop
    exact hloop

theorem strip_isPrefix :
    strip stripStart stripEnd p cs <+: if stripStart then cs.dropWhile p else cs := by
  cases stripEnd with
  | false => exact List.prefix_refl _
  | true => exact List.rdropWhile_prefix p _

theorem strip_isInfix : strip stripStart stripEnd p cs <:+: cs := by
  apply (strip_isPrefix stripStart stripEnd p cs).isInfix.trans
  cases stripStart with
  | false => exact List.infix_refl _
  | true => exact (List.dropWhile_suffix p).isInfix

theorem stripText_eq (strippable text : Text) :
    stripText stripStart stripEnd strippable text =
      (strip stripStart stripEnd (characters strippable).contains (characters text)).flatten := by
  have hstrips : ∀ i (hi : i < (characters text).length),
      (utf8CharacterSet strippable).contains (utf8Substr text (utf8Offsets text) i (i + 1)) =
        (characters strippable).contains ((characters text).get ⟨i, hi⟩) := by
    intro i hi
    rw [utf8CharacterSet_eq, utf8Substr_succ text hi]
  obtain ⟨hfirst, hdrop⟩ := stripStart_eq hstrips stripStart
  have hlast := stripEnd_eq hstrips stripEnd hfirst
  have hpre := strip_isPrefix stripStart stripEnd (characters strippable).contains (characters text)
  simp only [stripText, length_utf8Offsets, Nat.add_sub_cancel]
  rw [hlast, utf8Substr_eq text (Nat.le_add_right _ _), Nat.add_sub_cancel_left, hdrop]
  · exact congrArg List.flatten (List.prefix_iff_eq_take.mp hpre).symm
  · have hle := hpre.length_le
    rw [← hdrop, List.length_drop] at hle
    rw [hdrop]
    exact Nat.add_le_of_le_sub' hfirst hle

/-- The bytes of the further arguments, or the blanks when there is none. -/
def strippableText (strippable : List Text) : Text :=
  if strippable = [] then whitespaceCharacters else strippable.flatten

theorem applyStringStrip_eq {cs : List Text} {text : Text} (hcs : cs <:+: characters text) :
    applyStringStrip name stripStart stripEnd (.string cs.flatten :: strippable.map .string) =
      .ok (.string (strip stripStart stripEnd (characters (strippableText strippable)).contains
        cs).flatten) := by
  have hcount : verifyArgumentCount name (.string cs.flatten :: strippable.map .string) 1 0 =
      .ok () :=
    verifyArgumentCount_unlimited _ (by simp)
  have htext : (if (Object.string cs.flatten :: strippable.map Object.string).length = 1
      then whitespaceCharacters else strippable.flatten) = strippableText strippable := by
    cases strippable with
    | nil => rfl
    | cons s ss => simp [strippableText]
  unfold applyStringStrip
  rw [hcount, List.tail_cons, convertAll_map_string]
  simp only [argumentAt, List.getD_cons_zero, convertToString_string, except_ok_bind, htext]
  rw [stripText_eq, characters_flatten_of_slice hcs]

theorem rdropWhile_cons : (c :: cs).rdropWhile p =
    if cs.rdropWhile p = [] ∧ p c then [] else c :: cs.rdropWhile p := by
  induction cs using List.reverseRecOn with
  | nil => cases hc : p c <;> simp [List.rdropWhile_singleton, hc]
  | append_singleton cs d ih =>
    rw [← List.cons_append, List.rdropWhile_concat, List.rdropWhile_concat]
    cases hd : p d
    · simp
    · simpa using ih

theorem dropWhile_rdropWhile : (cs.rdropWhile p).dropWhile p = (cs.dropWhile p).rdropWhile p := by
  induction cs with
  | nil => rfl
  | cons c cs ih =>
    rw [rdropWhile_cons]
    cases hc : p c
    · simp [hc, rdropWhile_cons p c cs]
    · by_cases hnil : cs.rdropWhile p = []
      · simpa [hc, hnil] using ih
      · simpa [hc, hnil] using ih

theorem strip_strip (a b c d : Bool) :
    strip a b p (strip c d p cs) = strip (a || c) (b || d) p cs := by
  have hdrop := @List.dropWhile_idempotent _ p
  have hrdrop := @List.rdropWhile_idempotent _ p
  cases a <;> cases b <;> cases c <;> cases d <;>
    simp only [strip, dropWhile_rdropWhile, hdrop, hrdrop, Bool.or_true, Bool.or_false, if_true,
      Bool.false_eq_true, if_false]

theorem strip_removed :
    ∃ front back, cs = front ++ strip stripStart stripEnd p cs ++ back ∧
      (∀ c ∈ front ++ back, p c = true) ∧
      (stripStart = false → front = []) ∧ (stripEnd = false → back = []) := by
  obtain ⟨front, hfront, hall, hkeep⟩ : ∃ front,
      cs = front ++ (if stripStart then cs.dropWhile p else cs) ∧ (∀ c ∈ front, p c = true) ∧
        (stripStart = false → front = []) := by
    cases stripStart with
    | false => exact ⟨[], by simp⟩
    | true => exact ⟨cs.takeWhile p, by simp, fun c hc => List.mem_takeWhile_imp hc, by simp⟩
  cases stripEnd with
  | false => exact ⟨front, [], by simpa [strip] using hfront, by simpa using hall, hkeep, by simp⟩
  | true =>
    refine ⟨front, (if stripStart then cs.dropWhile p else cs).rtakeWhile p, ?_, ?_, hkeep, by simp⟩
    · rw [strip, List.append_assoc, if_pos rfl, List.rdropWhile_append_rtakeWhile]
      exact hfront
    · intro c hc
      rcases List.mem_append.mp hc with hc | hc
      · exact hall c hc
      · exact List.mem_rtakeWhile_imp hc

theorem strip_head {c : Text} (hc : c ∈ (strip true stripEnd p cs).head?) : p c = false := by
  have hsame : strip true stripEnd p cs = (strip false stripEnd p cs).dropWhile p :=
    (strip_strip p cs true false false stripEnd).symm
  have hnot := List.head?_dropWhile_not p (strip false stripEnd p cs)
  rw [← hsame, Option.mem_def.mp hc] at hnot
  exact hnot

theorem strip_getLast {c : Text}
    (hc : c ∈ (strip stripStart true p cs).getLast?) : p c = false := by
  have hne : strip stripStart true p cs ≠ [] := by
    intro hnil
    simp [hnil] at hc
  have hlast := List.rdropWhile_last_not p (if stripStart then cs.dropWhile p else cs) hne
  have hmem : (strip stripStart true p cs).getLast hne = c := by
    rw [List.getLast?_eq_some_getLast hne] at hc
    exact Option.some.inj hc
  exact Bool.eq_false_iff.mpr (hmem ▸ hlast)

def stripArguments (text : Text) (strippable : List Text) : List Object :=
  .string text :: strippable.map .string

/-- A strip command returns what is left between characters that it may take away, and nothing
more goes the second time. -/
def Strips (command : List Object → Except Failure Object) (stripStart stripEnd : Bool)
    (text : Text) (strippable : List Text) : Prop :=
  ∃ result : Text,
    command (stripArguments text strippable) = .ok (.string result) ∧
    command (stripArguments result strippable) = .ok (.string result) ∧
    (∃ front back, characters text = front ++ characters result ++ back ∧
      (∀ c ∈ front ++ back, c ∈ utf8CharacterSet (strippableText strippable)) ∧
      (stripStart = false → front = []) ∧ (stripEnd = false → back = [])) ∧
    (stripStart = true → ∀ c ∈ (characters result).head?,
      c ∉ utf8CharacterSet (strippableText strippable)) ∧
    (stripEnd = true → ∀ c ∈ (characters result).getLast?,
      c ∉ utf8CharacterSet (strippableText strippable))

theorem applyStringStrip_text :
    applyStringStrip name stripStart stripEnd (stripArguments text strippable) =
      .ok (.string (strip stripStart stripEnd (characters (strippableText strippable)).contains
        (characters text)).flatten) := by
  have h := applyStringStrip_eq name stripStart stripEnd strippable
    (List.infix_refl (characters text))
  rwa [flatten_characters] at h

theorem applyStringStrip_again (a b c d : Bool) :
    applyStringStrip name a b (stripArguments
        (strip c d (characters (strippableText strippable)).contains (characters text)).flatten
        strippable) =
      .ok (.string (strip (a || c) (b || d) (characters (strippableText strippable)).contains
        (characters text)).flatten) := by
  have h := applyStringStrip_eq name a b strippable
    (strip_isInfix c d (characters (strippableText strippable)).contains (characters text))
  rwa [strip_strip] at h

theorem strips_applyStringStrip :
    Strips (applyStringStrip name stripStart stripEnd) stripStart stripEnd text strippable := by
  have hmem : ∀ c, c ∈ utf8CharacterSet (strippableText strippable) ↔
      (characters (strippableText strippable)).contains c = true := by
    intro c
    rw [utf8CharacterSet_eq, List.contains_iff_mem]
  have hnot : ∀ c, (characters (strippableText strippable)).contains c = false →
      c ∉ utf8CharacterSet (strippableText strippable) := by
    intro c hc hin
    exact Bool.false_ne_true (hc.symm.trans ((hmem c).mp hin))
  have hchars := characters_flatten_of_slice (strip_isInfix stripStart stripEnd
    (characters (strippableText strippable)).contains (characters text))
  refine ⟨_, applyStringStrip_text name stripStart stripEnd text strippable, ?_, ?_, ?_, ?_⟩
  · have hagain := applyStringStrip_again name text strippable stripStart stripEnd stripStart
      stripEnd
    rwa [Bool.or_self, Bool.or_self] at hagain
  · obtain ⟨front, back, hcs, hall, hfront, hback⟩ := strip_removed stripStart stripEnd
      (characters (strippableText strippable)).contains (characters text)
    exact ⟨front, back, by rwa [hchars], fun c hc => (hmem c).mpr (hall c hc), hfront, hback⟩
  · rintro rfl c hc
    rw [hchars] at hc
    exact hnot c (strip_head _ _ _ hc)
  · rintro rfl c hc
    rw [hchars] at hc
    exact hnot c (strip_getLast _ _ _ hc)

/-- Stripping both ends is stripping one after the other, in either order. -/
theorem strip_commands (text : Text) (strippable : List Text) :
    (stringRstrip (stripArguments text strippable) >>= fun result =>
      stringLstrip (result :: strippable.map .string)) =
      stringStrip (stripArguments text strippable) ∧
    (stringLstrip (stripArguments text strippable) >>= fun result =>
      stringRstrip (result :: strippable.map .string)) =
      stringStrip (stripArguments text strippable) ∧
    Strips stringStrip true true text strippable ∧
    Strips stringLstrip true false text strippable ∧
    Strips stringRstrip false true text strippable := by
  refine ⟨?_, ?_, strips_applyStringStrip _ _ _ _ _, strips_applyStringStrip _ _ _ _ _,
    strips_applyStringStrip _ _ _ _ _⟩
  · rw [stringRstrip, stringStrip, applyStringStrip_text, applyStringStrip_text, except_ok_bind]
    exact applyStringStrip_again "string.lstrip" text strippable true false false true
  · rw [stringLstrip, stringStrip, applyStringStrip_text, applyStringStrip_text, except_ok_bind]
    exact applyStringStrip_again "string.rstrip" text strippable false true true false

end StringSlices
