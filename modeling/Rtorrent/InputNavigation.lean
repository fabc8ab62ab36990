import Mathlib.Data.Nat.Find
import Rtorrent.InputRings

/-! # Going through the input history

An input is opened at the insert position of its ring. Each of the two keys writes the text that
is shown back to its slot. -/
namespace InputNavigation

open RpcTextParser InputHistory InputHistoryFile InputRings

inductive Error where
  | thrown (failure : Failure)
  | outOfRange

def internalError {α : Type} (what : String) : Except Error α :=
  .error (.thrown (.error .internalError what))

/-- The input is the text input of `m_windowInput`, with the kind that its keys are bound to. -/
structure State where
  history : History
  input : Option (Input × Text)
  pointerGet : ℕ
  lastInput : Text

def writeSlot (type : Input) (i : ℕ) (text : Text) (h : History) : History where
  length := h.length
  category := Function.update h.category type (write i text (h.category type))
  length_slots := by
    intro other
    by_cases heq : other = type
    · subst heq
      rw [Function.update_self, write, List.length_set, h.length_slots]
    · rw [Function.update_of_ne heq, h.length_slots]

def clearInputHistory (h : History) : History where
  length := h.length
  category _ := .fresh h.length (length_pos h)
  length_slots _ := List.length_replicate

def enableInput (type : Input) (text : Text) (s : State) : Except Error State :=
  if s.input.isSome then
    internalError "Root::enable_input(...) m_windowInput->input() != NULL."
  else
    .ok { s with
      input := some (type, text)
      lastInput := []
      pointerGet := (s.history.category type).pointer }

def disableInput (s : State) : Except Error State :=
  if s.input.isSome then .ok { s with input := none }
  else internalError "Root::disable_input() m_windowInput->input() == NULL."

def keepInput (type : Input) (text : Text) (s : State) : Except Error State :=
  if s.pointerGet = (s.history.category type).pointer then .ok { s with lastInput := text }
  else if s.pointerGet < (s.history.category type).slots.length then
    .ok { s with history := writeSlot type s.pointerGet text s.history }
  else .error .outOfRange

def before (c : Category) (i : ℕ) : ℕ := if i = 0 then c.slots.length - 1 else i - 1

def movedBack (c : Category) (i : ℕ) : ℕ :=
  if before c i ≠ c.pointer ∧ c.slots.getD (before c i) [] ≠ [] then before c i else i

def showPrev (type : Input) (s : State) : State :=
  let c := s.history.category type
  let pointerGet := movedBack c s.pointerGet
  let shown := if pointerGet ≠ c.pointer then c.slots.getD pointerGet [] else s.lastInput
  { s with pointerGet, input := some (type, shown) }

def showNext (type : Input) (s : State) : State :=
  let c := s.history.category type
  if s.pointerGet ≠ c.pointer then
    let pointerGet := (s.pointerGet + 1) % c.slots.length
    let shown := if pointerGet = c.pointer then s.lastInput else c.slots.getD pointerGet []
    { s with pointerGet, input := some (type, shown) }
  else { s with input := some (type, s.lastInput) }

def prevInInputHistory (s : State) : Except Error State :=
  match s.input with
  | none => internalError "Root::prev_in_input_history() m_windowInput->input() == NULL."
  | some (type, text) => (keepInput type text s).map (showPrev type)

def nextInInputHistory (s : State) : Except Error State :=
  match s.input with
  | none => internalError "Root::next_in_input_history() m_windowInput->input() == NULL."
  | some (type, text) => (keepInput type text s).map (showNext type)

def opened (h : History) (type : Input) (text : Text) : State where
  history := h
  input := some (type, text)
  pointerGet := (h.category type).pointer
  lastInput := []

def presses : ℕ → State → Except Error State
  | 0, s => .ok s
  | n + 1, s => (presses n s).bind prevInInputHistory

/-- How far the entries are from the newest slot, the newest first. -/
def places (c : Category) : List ℕ :=
  (List.range c.slots.length).filter fun d => decide (newest c d ≠ [])

/-- Each key press goes to the next older entry and shows it. -/
def Shows (h : History) (type : Input) : Prop :=
  ∀ (text : Text) (k d : ℕ), (places (h.category type))[k]? = some d →
    ∃ s, presses (k + 1) (opened h type text) = .ok s ∧
      s.pointerGet = position (h.category type) d ∧
      s.input = some (type, newest (h.category type) d)

def Browsable (h : History) : Prop := ∀ type, Shows h type

section

variable {c : Category}

theorem before_pointer : before c c.pointer = position c 0 := by
  have hp := c.pointer_lt
  unfold before
  split
  · next hzero => rw [position_of_le (by omega) (by omega), hzero, Nat.zero_add, Nat.sub_zero]
  · rw [position_of_lt (by omega), Nat.sub_zero]

theorem before_position {d : ℕ} (hd : d + 1 < c.slots.length) :
    before c (position c d) = position c (d + 1) := by
  have hp := c.pointer_lt
  unfold before
  rcases Nat.lt_trichotomy (d + 1) c.pointer with hlt | heq | hgt
  · rw [position_of_lt (by omega), position_of_lt hlt, if_neg (by omega)]
    omega
  · rw [position_of_lt (by omega), if_pos (by omega), position_of_le (by omega) hd]
    omega
  · rw [position_of_le (by omega) (by omega), position_of_le (by omega) hd, if_neg (by omega)]
    omega

theorem position_eq_pointer_iff {d : ℕ} (hd : d < c.slots.length) :
    position c d = c.pointer ↔ d = c.slots.length - 1 := by
  rw [position_eq_iff hd c.pointer_lt, ← (position_eq_iff (by omega) c.pointer_lt).mp position_last,
    eq_comm]

end

def place (c : Category) : ℕ → ℕ
  | 0 => c.pointer
  | j + 1 => position c j

def shownAt (c : Category) (text : Text) : ℕ → Text
  | 0 => text
  | j + 1 => newest c j

variable {c : Category}

theorem before_place {j : ℕ} (hj : j < c.slots.length) : before c (place c j) = position c j := by
  cases j with
  | zero => exact before_pointer
  | succ j => exact before_position hj

theorem place_eq_pointer_iff {j : ℕ} (hj : j < c.slots.length) : place c j = c.pointer ↔ j = 0 := by
  cases j with
  | zero => simp [place]
  | succ j =>
    rw [place, position_eq_pointer_iff (by omega)]
    omega

theorem getD_place {j : ℕ} (hj : j ≠ 0) (text : Text) :
    c.slots.getD (place c j) [] = shownAt c text j := by
  cases j with
  | zero => exact absurd rfl hj
  | succ j => rfl

theorem write_same {i : ℕ} (hi : i < c.slots.length) : write i (c.slots.getD i []) c = c := by
  have hslots : c.slots.set i (c.slots.getD i []) = c.slots := by
    rw [List.getD_eq_getElem _ _ hi, List.set_getElem_self]
  cases c
  simpa [write] using hslots

variable {h : History} {type : Input}

theorem writeSlot_same {i : ℕ} (hi : i < (h.category type).slots.length) :
    writeSlot type i ((h.category type).slots.getD i []) h = h := by
  have hcategory : Function.update h.category type
      (write i ((h.category type).slots.getD i []) (h.category type)) = h.category := by
    rw [write_same hi, Function.update_eq_self]
  cases h
  simpa [writeSlot] using hcategory

/-- The history is as it was, and the keys have moved back so many times. -/
structure Stands (h : History) (type : Input) (text : Text) (j : ℕ) (s : State) : Prop where
  history_eq : s.history = h
  pointerGet_eq : s.pointerGet = place (h.category type) j
  input_eq : s.input = some (type, shownAt (h.category type) text j)

section

variable {h : History} {type : Input} {text : Text} {j : ℕ} {s : State}

theorem stands_opened : Stands h type text 0 (opened h type text) := ⟨rfl, rfl, rfl⟩

theorem Stands.keepInput (hj : j < (h.category type).slots.length) (hs : Stands h type text j s) :
    ∃ t, keepInput type (shownAt (h.category type) text j) s = .ok t ∧ Stands h type text j t ∧
      (j = 0 → t.lastInput = text) := by
  obtain ⟨rfl, hpointer, hinput⟩ := hs
  unfold InputNavigation.keepInput
  by_cases hzero : j = 0
  · subst hzero
    have hstart : s.pointerGet = (s.history.category type).pointer := hpointer
    rw [if_pos hstart]
    exact ⟨_, rfl, ⟨rfl, hpointer, hinput⟩, fun _ => rfl⟩
  · have hlt : place (s.history.category type) j < (s.history.category type).slots.length := by
      cases j with
      | zero => exact absurd rfl hzero
      | succ j => exact position_lt j
    rw [if_neg (hpointer ▸ mt (place_eq_pointer_iff hj).mp hzero), if_pos (hpointer ▸ hlt)]
    refine ⟨_, rfl, ⟨?_, hpointer, hinput⟩, fun h => absurd h hzero⟩
    rw [hpointer, ← getD_place hzero text]
    exact writeSlot_same hlt

def pressed (c : Category) (j : ℕ) : ℕ :=
  if j + 1 < c.slots.length ∧ newest c j ≠ [] then j + 1 else j

theorem pressed_lt {c : Category} (hj : j < c.slots.length) : pressed c j < c.slots.length := by
  unfold pressed
  split <;> omega

theorem movedBack_place {c : Category} (hj : j < c.slots.length) :
    movedBack c (place c j) = place c (pressed c j) := by
  have hmoves : (position c j ≠ c.pointer ∧ c.slots.getD (position c j) [] ≠ []) ↔
      (j + 1 < c.slots.length ∧ newest c j ≠ []) := by
    rw [ne_eq, position_eq_pointer_iff hj, newest]
    exact and_congr_left fun _ => by omega
  unfold movedBack pressed
  rw [before_place hj]
  by_cases h : j + 1 < c.slots.length ∧ newest c j ≠ []
  · rw [if_pos h, if_pos (hmoves.mpr h), place]
  · rw [if_neg h, if_neg (mt hmoves.mp h)]

theorem Stands.prev (hj : j < (h.category type).slots.length) (hs : Stands h type text j s) :
    ∃ t, prevInInputHistory s = .ok t ∧ Stands h type text (pressed (h.category type) j) t := by
  obtain ⟨t, hkeep, ⟨rfl, hpointer, hinput⟩, hlast⟩ := hs.keepInput hj
  refine ⟨showPrev type t, ?_, rfl, ?_, ?_⟩
  · simp [prevInInputHistory, hs.input_eq, hkeep, Except.map]
  · simp only [showPrev, hpointer, movedBack_place hj]
  · simp only [showPrev, hpointer, movedBack_place hj]
    have hlt := pressed_lt hj
    split
    · next hoff => rw [getD_place (mt (place_eq_pointer_iff hlt).mpr hoff) text]
    · next hon =>
      have hzero := (place_eq_pointer_iff hlt).mp (not_not.mp hon)
      have hfirst : j = 0 := by
        unfold pressed at hzero
        split at hzero <;> omega
      rw [hlast hfirst, hzero]
      rfl

theorem presses_stand (n : ℕ) : ∃ s j, presses n (opened h type text) = .ok s ∧
    Stands h type text j s ∧ j < (h.category type).slots.length ∧
    ∀ d < j, newest (h.category type) d ≠ [] := by
  induction n with
  | zero => exact ⟨_, 0, rfl, stands_opened, (h.category type).length_pos, by simp⟩
  | succ n ih =>
    obtain ⟨s, j, hpresses, hs, hj, hpassed⟩ := ih
    obtain ⟨t, hprev, ht⟩ := hs.prev hj
    refine ⟨t, _, by simp [presses, hpresses, Except.bind, hprev], ht, pressed_lt hj, ?_⟩
    unfold pressed
    split
    · next hmoves =>
      intro d hd
      rcases Nat.lt_succ_iff_lt_or_eq.mp hd with hlt | rfl
      · exact hpassed d hlt
      · exact hmoves.2
    · exact hpassed

theorem presses_packed (hpacked : Packed (h.category type)) {n : ℕ}
    (hn : n ≤ (h.category type).entries.length) :
    ∃ s, presses n (opened h type text) = .ok s ∧ Stands h type text n s := by
  obtain ⟨hlt, hnewest⟩ := hpacked
  induction n with
  | zero => exact ⟨_, rfl, stands_opened⟩
  | succ n ih =>
    obtain ⟨s, hpresses, hs⟩ := ih (by omega)
    obtain ⟨t, hprev, ht⟩ := hs.prev (by omega)
    rw [pressed, if_pos ⟨by omega, (hnewest n (by omega)).mpr hn⟩] at ht
    exact ⟨t, by simp [presses, hpresses, Except.bind, hprev], ht⟩

end

theorem mem_places {d : ℕ} : d ∈ places c ↔ d < c.slots.length ∧ newest c d ≠ [] := by
  simp [places]

theorem places_packed (hpacked : Packed c) : places c = List.range c.entries.length := by
  obtain ⟨hlt, hnewest⟩ := hpacked
  obtain ⟨free, hfree⟩ := Nat.exists_eq_add_of_le hlt.le
  have hfilter : places c =
      (List.range c.slots.length).filter fun d => decide (d < c.entries.length) :=
    List.filter_congr fun d hd => decide_eq_decide.mpr (hnewest d (List.mem_range.mp hd))
  rw [hfilter, hfree, List.range_add, List.filter_append]
  have hused : (List.range c.entries.length).filter (fun d => decide (d < c.entries.length)) =
      List.range c.entries.length :=
    List.filter_eq_self.mpr fun d hd => decide_eq_true (List.mem_range.mp hd)
  have hnone : ((List.range free).map (c.entries.length + ·)).filter
      (fun d => decide (d < c.entries.length)) = [] := by
    simp [List.filter_eq_nil_iff]
  rw [hused, hnone, List.append_nil]

theorem shows_of_packed (hpacked : Packed (h.category type)) : Shows h type := by
  intro text k d hplace
  rw [places_packed hpacked] at hplace
  obtain ⟨hk, rfl⟩ : k < (h.category type).entries.length ∧ k = d := by
    simpa [List.getElem?_range, List.getElem?_eq_some_iff] using hplace
  obtain ⟨s, hpresses, hs⟩ := @presses_packed h type text hpacked _ (Nat.succ_le_of_lt hk)
  exact ⟨s, hpresses, hs.pointerGet_eq, hs.input_eq⟩

theorem passed_of_shows (hshows : Shows h type) {d : ℕ}
    (hd : d < (h.category type).slots.length) (hentry : newest (h.category type) d ≠ []) :
    d + 1 < (h.category type).slots.length ∧ ∀ e ≤ d, newest (h.category type) e ≠ [] := by
  obtain ⟨k, hk⟩ := List.mem_iff_getElem?.mp (mem_places.mpr ⟨hd, hentry⟩)
  -- a text that is not the entry, so that it is not taken for it
  obtain ⟨s, hpresses, hpointer, hinput⟩ := hshows ('x' :: newest (h.category type) d) k d hk
  obtain ⟨t, j, hpresses', hs, hj, hpassed⟩ :=
    @presses_stand h type ('x' :: newest (h.category type) d) (k + 1)
  obtain rfl : s = t := Except.ok.inj (hpresses.symm.trans hpresses')
  cases j with
  | zero =>
    have hshown := hs.input_eq.symm.trans hinput
    simp [shownAt] at hshown
  | succ j =>
    have hplace : position (h.category type) j = position (h.category type) d :=
      hs.pointerGet_eq.symm.trans hpointer
    have hjd : j = d := by
      have hfirst := (position_eq_iff (by omega) (position_lt d)).mp hplace
      have hsecond := (position_eq_iff hd (position_lt d)).mp rfl
      omega
    subst hjd
    exact ⟨hj, fun e he => hpassed e (Nat.lt_succ_of_le he)⟩

theorem packed_of_shows (hshows : Shows h type) : Packed (h.category type) := by
  have hpos := (h.category type).length_pos
  have hfree : ∃ d, newest (h.category type) d = [] ∧ d < (h.category type).slots.length := by
    refine ⟨(h.category type).slots.length - 1, ?_, by omega⟩
    by_contra hne
    have := (passed_of_shows hshows (by omega) hne).1
    omega
  refine packed_iff.mpr ⟨Nat.find hfree, (Nat.find_spec hfree).2, fun d hd => ?_⟩
  constructor
  · intro hentry
    by_contra hle
    exact (passed_of_shows hshows hd hentry).2 _ (Nat.le_of_not_lt hle) (Nat.find_spec hfree).1
  · intro hlt hnone
    exact Nat.find_min hfree hlt ⟨hnone, hd⟩

theorem browsable_iff (h : History) : Browsable h ↔ ∀ type, Packed (h.category type) :=
  forall_congr' fun _ => ⟨packed_of_shows, shows_of_packed⟩

end InputNavigation
