import Mathlib.Data.List.GetD
import Rtorrent.StringCommands

/-! # Padding a text

The padding is repeated character by character. Bytes that continue a character join the one before
them, also across the border of padding and text. -/
namespace StringPadding

open RpcTextParser Segments StringCommands

/-- The first characters of the padding repeated without end. -/
def cycled (padding : Text) (count : ℕ) : List Text :=
  (List.range count).map fun i =>
    (characters padding).getD (i % (characters padding).length) []

/-- The text begins with a byte that continues a character. -/
def startsInside (text : Text) : Bool := startsTail isContinuation text

/-- Throws exactly when too much is asked for, and otherwise returns the text with repeated
padding, of the length asked for. -/
def Pads (padStart : Bool) (text padding : Text) (n : ℤ) : Except Failure Object → Prop
  | .error e => (∃ what, e = .error .inputError what) ∧ 16384 < n - utf8Length text
  | .ok obj => n - utf8Length text ≤ 16384 ∧ ∃ (result : Text) (count : ℕ), obj = .string result ∧
      applyStringLength [obj] = .ok (.value (max n (utf8Length text))) ∧
      result = if padStart then (cycled padding count).flatten ++ text
        else text ++ (cycled padding count).flatten

/-- No character is lost where the pieces meet; `count` characters of padding are added. -/
def KeepsCharacters (padStart : Bool) (text padding : Text) (count : ℤ) : Prop :=
  if padStart then
    startsInside text = false ∧ (startsInside padding = true → count ≤ utf8Length padding)
  else startsInside padding = true → text = [] ∧ count ≤ utf8Length padding

/-- The bytes that start a character wherever they stand. -/
def leads (text : Text) : ℕ := text.countP fun c => !isContinuation c

theorem utf8Length_eq_leads (text : Text) :
    utf8Length text = leads text + if startsInside text then 1 else 0 := by
  rw [utf8Length_eq]
  exact length_segments text

@[simp] theorem leads_append (s t : Text) : leads (s ++ t) = leads s + leads t := List.countP_append

theorem startsInside_append {s : Text} (h : s ≠ []) (t : Text) :
    startsInside (s ++ t) = startsInside s := by
  obtain ⟨c, s, rfl⟩ := List.exists_cons_of_ne_nil h
  rfl

theorem cycled_succ (padding : Text) (count : ℕ) : (cycled padding (count + 1)).flatten =
    (cycled padding count).flatten ++
      (characters padding).getD (count % (characters padding).length) [] := by
  simp [cycled, List.range_succ]

variable {padding : Text}

theorem characters_length_pos (h : padding ≠ []) : 0 < (characters padding).length := by
  apply List.length_pos_of_ne_nil
  intro hnil
  apply h
  rw [← flatten_characters padding, hnil]
  rfl

theorem padCharacters_eq (hpadding : padding ≠ []) (count : ℕ) :
    padCharacters padding count = (cycled padding count).flatten := by
  induction count with
  | zero => rfl
  | succ count ih =>
    have hindex : count % (characters padding).length < (characters padding).length :=
      Nat.mod_lt _ (characters_length_pos hpadding)
    rw [cycled_succ, ← ih]
    simp only [padCharacters, List.range_succ, List.foldl_append, List.foldl_cons, List.foldl_nil,
      length_utf8Offsets, Nat.add_sub_cancel, utf8Substr_succ padding hindex]
    rw [List.getD_eq_getElem _ _ hindex]
    rfl

/-- Only the first character can start with a byte that continues another one. -/
theorem startsInside_character (padding : Text) {i : ℕ} (hi : i < (characters padding).length) :
    startsInside ((characters padding).getD i []) = (decide (i = 0) && startsInside padding) := by
  have hsegments := @isSegments_segments Char isContinuation padding
  rw [List.getD_eq_getElem _ _ hi]
  obtain ⟨c, cs, hcs⟩ :=
    List.exists_cons_of_ne_nil (List.ne_nil_of_length_pos (Nat.zero_lt_of_lt hi))
  cases i with
  | zero =>
    have hne : c ≠ [] := hsegments.nonempty c (by rw [← characters, hcs]; exact List.mem_cons_self)
    have hpadding : c ++ cs.flatten = padding := by
      rw [← List.flatten_cons, ← hcs, flatten_characters]
    have hfirst : startsInside padding = startsInside c := by
      rw [← hpadding, startsInside_append hne]
    simpa [hcs] using hfirst.symm
  | succ i =>
    have hmem : (characters padding)[i + 1] ∈ (characters padding).tail := by
      simp only [hcs, List.tail_cons, List.getElem_cons_succ]
      exact List.getElem_mem _
    exact hsegments.started _ hmem

theorem leads_character (padding : Text) {i : ℕ} (hi : i < (characters padding).length) :
    leads ((characters padding).getD i []) = if i = 0 ∧ startsInside padding then 0 else 1 := by
  have hmem : (characters padding).getD i [] ∈ characters padding := by
    rw [List.getD_eq_getElem _ _ hi]
    exact List.getElem_mem hi
  have hcount := (@isSegments_segments Char isContinuation padding).countP_of_mem hmem
  have hstart : startsTail isContinuation ((characters padding).getD i []) = _ :=
    startsInside_character padding hi
  rw [hstart] at hcount
  simp only [Bool.and_eq_true, decide_eq_true_eq] at hcount
  exact hcount

/-- A padding that starts inside a character loses one character each time it is repeated. -/
theorem leads_cycled (hpadding : padding ≠ []) (count : ℕ) :
    (startsInside padding = false → leads (cycled padding count).flatten = count) ∧
    (startsInside padding = true → 0 < count →
      leads (cycled padding count).flatten + 1 ≤ count ∧
      (leads (cycled padding count).flatten + 1 = count ↔
        count ≤ (characters padding).length)) := by
  have hpos := characters_length_pos hpadding
  induction count with
  | zero => exact ⟨fun _ => rfl, fun _ h => absurd h (Nat.lt_irrefl 0)⟩
  | succ count ih =>
    have hlead := leads_character padding (Nat.mod_lt count hpos)
    rw [cycled_succ, leads_append, hlead]
    constructor
    · intro hstart
      simp [hstart, ih.1 hstart]
    · intro hstart _
      rcases Nat.eq_zero_or_pos count with rfl | hcount
      · have hnone : leads (cycled padding 0).flatten = 0 := rfl
        simp [hstart, hnone]
        exact hpos
      · obtain ⟨hle, hiff⟩ := ih.2 hstart hcount
        by_cases hmod : count % (characters padding).length = 0
        · have hge : (characters padding).length ≤ count :=
            Nat.le_of_dvd hcount (Nat.dvd_of_mod_eq_zero hmod)
          simp only [hmod, hstart, and_self, if_true]
          omega
        · have hne : count ≠ (characters padding).length := by
            rintro rfl
            exact hmod (Nat.mod_self _)
          simp only [hmod, false_and, if_false]
          omega

variable {count : ℕ}

theorem startsInside_cycled (hpadding : padding ≠ []) (hcount : 0 < count) :
    (cycled padding count).flatten ≠ [] ∧
    startsInside (cycled padding count).flatten = startsInside padding := by
  obtain ⟨count, rfl⟩ := Nat.exists_eq_add_of_lt hcount
  have hpos := characters_length_pos hpadding
  have hhead : (cycled padding (0 + count + 1)).flatten =
      (characters padding).getD 0 [] ++ ((List.range (0 + count)).map fun i =>
        (characters padding).getD ((i + 1) % (characters padding).length) []).flatten := by
    simp [cycled, List.range_succ_eq_map, Function.comp_def]
  have hne : (characters padding).getD 0 [] ≠ [] := by
    rw [List.getD_eq_getElem _ _ hpos]
    exact (isSegments_segments padding).nonempty _ (List.getElem_mem hpos)
  rw [hhead, startsInside_append hne, startsInside_character padding hpos]
  exact ⟨List.append_ne_nil_of_left_ne_nil hne _, rfl⟩

theorem utf8Length_lpad_iff (text : Text) (hpadding : padding ≠ []) (hcount : 0 < count) :
    utf8Length ((cycled padding count).flatten ++ text) = count + utf8Length text ↔
      KeepsCharacters true text padding count := by
  obtain ⟨hne, hstart⟩ := startsInside_cycled hpadding hcount
  have htotal : utf8Length ((cycled padding count).flatten ++ text) =
      leads (cycled padding count).flatten + leads text + if startsInside padding then 1
        else 0 := by
    rw [utf8Length_eq_leads, leads_append, startsInside_append hne, hstart]
  have htext := utf8Length_eq_leads text
  have hlength := utf8Length_eq padding
  simp only [KeepsCharacters, if_true, htotal]
  cases hp : startsInside padding with
  | false =>
    have hrest := (leads_cycled hpadding count).1 hp
    cases ht : startsInside text <;> simp [ht] at htext ⊢ <;> omega
  | true =>
    have hrest := (leads_cycled hpadding count).2 hp hcount
    cases ht : startsInside text <;> simp [ht] at htext ⊢ <;> omega

theorem utf8Length_rpad_iff (text : Text) (hpadding : padding ≠ []) (hcount : 0 < count) :
    utf8Length (text ++ (cycled padding count).flatten) = count + utf8Length text ↔
      KeepsCharacters false text padding count := by
  have htotal : utf8Length (text ++ (cycled padding count).flatten) =
      utf8Length text + leads (cycled padding count).flatten +
        if text = [] ∧ startsInside padding then 1 else 0 := by
    by_cases htext : text = []
    · have hstart := (startsInside_cycled hpadding hcount).2
      have hempty : utf8Length [] = 0 := rfl
      simp [htext, hempty, utf8Length_eq_leads (cycled padding count).flatten, hstart]
    · rw [utf8Length_eq_leads, leads_append, startsInside_append htext, utf8Length_eq_leads text]
      simp only [htext, false_and, if_false]
      omega
  have hlength := utf8Length_eq padding
  simp only [KeepsCharacters, if_false, Bool.false_eq_true, htotal]
  cases hp : startsInside padding with
  | false =>
    have hrest := (leads_cycled hpadding count).1 hp
    simp
    omega
  | true =>
    have hrest := (leads_cycled hpadding count).2 hp hcount
    by_cases htext : text = [] <;> simp [htext] <;> omega

theorem applyStringLength_eq (text : Text) :
    applyStringLength [.string text] = .ok (.value (utf8Length text)) := rfl

theorem pads_of_le (padStart : Bool) (text padding : Text) {n : ℤ} (hn : n ≤ utf8Length text) :
    Pads padStart text padding n (.ok (.string text)) := by
  refine ⟨by omega, text, 0, rfl, ?_, ?_⟩
  · rw [applyStringLength_eq, Int.max_eq_right hn]
  · cases padStart <;> simp [cycled]

theorem pads_applyStringPad_iff (name : String) (padStart : Bool) (text padding : Text) (n : ℤ)
    (hpadding : padding ≠ []) :
    Pads padStart text padding n
        (applyStringPad name padStart [.string text, .value n, .string padding]) ↔
      n ≤ utf8Length text ∨ 16384 < n - utf8Length text ∨
        KeepsCharacters padStart text padding (n - utf8Length text) := by
  have hargs : applyStringPad name padStart [.string text, .value n, .string padding] =
      if n ≤ utf8Length text ∨ padding = [] then .ok (.string text)
      else if maxStringPadSize < n - utf8Length text then
        inputError (name ++ ": padding is too large.")
      else .ok (.string (if padStart then padCharacters padding (n - utf8Length text).toNat ++ text
        else text ++ padCharacters padding (n - utf8Length text).toNat)) := rfl
  have hmax : maxStringPadSize = 16384 := rfl
  rw [hargs, hmax]
  by_cases hn : n ≤ utf8Length text
  · simp only [hn, true_or, if_true, iff_true]
    exact pads_of_le padStart text padding hn
  by_cases hlarge : 16384 < n - utf8Length text
  · simp only [hn, hpadding, or_self, if_false, hlarge, if_true, true_or, or_true, iff_true]
    exact ⟨⟨_, rfl⟩, hlarge⟩
  obtain ⟨count, hcount⟩ : ∃ count : ℕ, n - utf8Length text = count :=
    ⟨(n - utf8Length text).toNat, by omega⟩
  have hpos : 0 < count := by omega
  have hlength : max n (utf8Length text) = ((count + utf8Length text : ℕ) : ℤ) := by omega
  have hsmall : ¬(16384 : ℤ) < count := hcount ▸ hlarge
  have hkeeps : utf8Length (if padStart then (cycled padding count).flatten ++ text
      else text ++ (cycled padding count).flatten) = count + utf8Length text ↔
      KeepsCharacters padStart text padding count := by
    cases padStart with
    | true => exact utf8Length_lpad_iff text hpadding hpos
    | false => exact utf8Length_rpad_iff text hpadding hpos
  simp only [hn, hpadding, or_self, if_false, false_or, hcount, Int.toNat_natCast, hsmall,
    padCharacters_eq hpadding, ← hkeeps]
  constructor
  · rintro ⟨_, result, _, hobj, hlen, _⟩
    rw [applyStringLength_eq, hlength] at hlen
    exact Int.ofNat_inj.mp (Object.value.inj (Except.ok.inj hlen))
  · intro hlen
    refine ⟨by omega, _, count, rfl, ?_, rfl⟩
    rw [applyStringLength_eq, hlength, hlen]

/-- The commands pad to the length asked for where no character is lost. -/
theorem pads_iff (text padding : Text) (n : ℤ) (hpadding : padding ≠ []) :
    (Pads true text padding n (stringLpad [.string text, .value n, .string padding]) ↔
      n ≤ utf8Length text ∨ 16384 < n - utf8Length text ∨
        KeepsCharacters true text padding (n - utf8Length text)) ∧
    (Pads false text padding n (stringRpad [.string text, .value n, .string padding]) ↔
      n ≤ utf8Length text ∨ 16384 < n - utf8Length text ∨
        KeepsCharacters false text padding (n - utf8Length text)) :=
  ⟨pads_applyStringPad_iff _ true text padding n hpadding,
    pads_applyStringPad_iff _ false text padding n hpadding⟩

theorem pads_iff_blank : ([' '] : Text) ≠ [] ∧
    ((Pads true ['a'] [' '] 3 (stringLpad [.string ['a'], .value 3, .string [' ']]) ↔
      (3 : ℤ) ≤ utf8Length ['a'] ∨ 16384 < (3 : ℤ) - utf8Length ['a'] ∨
        KeepsCharacters true ['a'] [' '] (3 - utf8Length ['a'])) ∧
    (Pads false ['a'] [' '] 3 (stringRpad [.string ['a'], .value 3, .string [' ']]) ↔
      (3 : ℤ) ≤ utf8Length ['a'] ∨ 16384 < (3 : ℤ) - utf8Length ['a'] ∨
        KeepsCharacters false ['a'] [' '] (3 - utf8Length ['a']))) :=
  ⟨by decide, pads_iff ['a'] [' '] 3 (by decide)⟩

/-- A byte that continues a character joins the text in front of it, and the length stays 1. -/
theorem rpad_joined :
    stringRpad [.string ['a'], .value 2, .string ['\x80']] = .ok (.string ['a', '\x80']) ∧
    applyStringLength [.string ['a', '\x80']] = .ok (.value 1) ∧
    ¬Pads false ['a'] ['\x80'] 2 (stringRpad [.string ['a'], .value 2, .string ['\x80']]) := by
  refine ⟨rfl, rfl, ?_⟩
  rintro ⟨_, _, _, _, hlen, _⟩
  have hone : (1 : ℤ) = max 2 (utf8Length ['a']) := Object.value.inj (Except.ok.inj hlen)
  exact absurd hone (by decide)

end StringPadding
