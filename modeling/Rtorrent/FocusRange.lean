import Mathlib.Data.Nat.Notation
import Mathlib.Tactic.TypeStar

/-! # The range around the focus

A window of a list shows as many elements as fit, around the one in focus. An iterator is only
compared and moved by one element. -/
namespace FocusRange

variable {ι : Type*}

/-- The iterators of a sequence from its first element to its end. -/
structure Sequence (ι : Type*) where
  length : ℕ
  iterator : ℕ → ι
  increment : ι → ι
  decrement : ι → ι
  increment_eq : ∀ i < length, increment (iterator i) = iterator (i + 1)
  decrement_eq : ∀ i < length, decrement (iterator (i + 1)) = iterator i
  distinct : ∀ i ≤ length, ∀ j ≤ length, iterator i = iterator j → i = j

section Code

variable [DecidableEq ι]

/-- One half of a turn: an end of the range moves, or stays where it can move no further. With no
result the loop is left. -/
def advanceEnd (move : ι → ι) (limit : ι) (otherDone : Bool) (middle : ι) (distance : ℕ) :
    Option (ι × ℕ) :=
  if distance = 0 then none
  else if middle ≠ limit then some (move middle, distance - 1)
  else if otherDone then none
  else some (middle, distance)

def advanceLoop (increment decrement : ι → ι) (first last : ι) : ℕ → ι → ι → ℕ → Option (ι × ι)
  | 0, _, _, _ => none
  | turns + 1, middle1, middle2, distance =>
    match advanceEnd increment last (middle1 = first) middle2 distance with
    | none => some (middle1, middle2)
    | some (middle2, distance) =>
      match advanceEnd decrement first (middle2 = last) middle1 distance with
      | none => some (middle1, middle2)
      | some (middle1, distance) =>
        advanceLoop increment decrement first last turns middle1 middle2 distance

/-- There is no result when the loop has not ended after so many turns. -/
def advanceBidirectional (increment decrement : ι → ι) (turns : ℕ) (first middle1 last : ι)
    (distance : ℕ) : Option (ι × ι) :=
  advanceLoop increment decrement first last turns middle1 middle1 distance

end Code

/-- A range of `distance` elements, or of all, around the position `m`. Its parts on both sides of
`m` differ by one at most, unless one of them reaches the end on its side. -/
structure Around (length m distance a b : ℕ) : Prop where
  before : a ≤ m
  behind : m ≤ b
  inside : b ≤ length
  size : b - a = min distance length
  shown : 1 ≤ distance → m < length → m < b
  balanced : a = 0 ∨ b = length ∨ (m - a ≤ b - m + 1 ∧ b - m ≤ m - a + 1)

def rangeStart (length m distance : ℕ) : ℕ := min (m - distance / 2) (length - distance)

def rangeEnd (length m distance : ℕ) : ℕ := rangeStart length m distance + min distance length

theorem around_range {length m : ℕ} (h : m ≤ length) (distance : ℕ) :
    Around length m distance (rangeStart length m distance) (rangeEnd length m distance) := by
  unfold rangeEnd rangeStart
  constructor <;> omega

/-- At the start of a turn the range is as long before `m` as behind it, or it can grow to one side
only. -/
structure Grown (length m a b : ℕ) : Prop where
  before : a ≤ m
  behind : m ≤ b
  inside : b ≤ length
  even : b - m = m - a ∨ a = 0 ∧ m - a ≤ b - m ∨ b = length ∧ b - m ≤ m - a

namespace Sequence

variable (s : Sequence ι) {a b i j m distance total turns : ℕ}

theorem iterator_ne (hi : i ≤ s.length) (hj : j ≤ s.length) (hne : i ≠ j) :
    s.iterator i ≠ s.iterator j := fun heq => hne (s.distinct i hi j hj heq)

variable [DecidableEq ι]

theorem advanceEnd_stays (move : ι → ι) (limit : ι) (otherDone : Bool) (hd : distance ≠ 0) :
    advanceEnd move limit otherDone limit distance =
      if otherDone then none else some (limit, distance) := by
  simp only [advanceEnd, if_neg hd, ne_eq, not_true, if_false]

theorem advanceEnd_right (otherDone : Bool) (hb : b < s.length) (hd : distance ≠ 0) :
    advanceEnd s.increment (s.iterator s.length) otherDone (s.iterator b) distance =
      some (s.iterator (b + 1), distance - 1) := by
  have hne := s.iterator_ne (Nat.le_of_lt hb) (Nat.le_refl _) (Nat.ne_of_lt hb)
  simp only [advanceEnd, if_neg hd, if_pos hne, s.increment_eq b hb]

theorem advanceEnd_left (otherDone : Bool) (ha : a + 1 ≤ s.length) (hd : distance ≠ 0) :
    advanceEnd s.decrement (s.iterator 0) otherDone (s.iterator (a + 1)) distance =
      some (s.iterator a, distance - 1) := by
  have hne := s.iterator_ne ha (Nat.zero_le _) (Nat.succ_ne_zero a)
  simp only [advanceEnd, if_neg hd, if_pos hne, s.decrement_eq a ha]

/-- The length of the range and the distance that is left have the same sum in every turn. -/
theorem advanceLoop_eq (h : Grown s.length m a b) (ht : distance < turns)
    (htotal : b - a + distance = total) :
    advanceLoop s.increment s.decrement (s.iterator 0) (s.iterator s.length) turns (s.iterator a)
        (s.iterator b) distance =
      some (s.iterator (rangeStart s.length m total), s.iterator (rangeEnd s.length m total)) := by
  induction turns generalizing a b distance with
  | zero => omega
  | succ turns ih =>
    obtain ⟨hbefore, hbehind, hinside, heven⟩ := h
    have hexit : ∀ a' b', min (m - total / 2) (s.length - total) = a' →
        a' + min total s.length = b' → some (s.iterator a', s.iterator b') =
          some (s.iterator (rangeStart s.length m total),
            s.iterator (rangeEnd s.length m total)) := by
      rintro a' b' rfl rfl
      rfl
    by_cases hd : distance = 0
    · simp only [advanceLoop, advanceEnd, if_pos hd]
      apply hexit <;> omega
    by_cases hb : b < s.length
    · simp only [advanceLoop, s.advanceEnd_right _ hb hd]
      by_cases hd' : distance - 1 = 0
      · simp only [advanceEnd, if_pos hd']
        apply hexit <;> omega
      cases a with
      | zero =>
        rw [advanceEnd_stays _ _ _ hd']
        by_cases hend : b + 1 = s.length
        · simp only [hend, decide_true, if_true]
          apply hexit <;> omega
        · simp only [s.iterator_ne hb (Nat.le_refl _) hend, decide_false, Bool.false_eq_true,
            if_false]
          apply ih ⟨hbefore, by omega, hb, by omega⟩ <;> omega
      | succ a =>
        simp only [s.advanceEnd_left _ (show a + 1 ≤ s.length by omega) hd']
        apply ih ⟨by omega, by omega, hb, by omega⟩ <;> omega
    · obtain rfl : b = s.length := by omega
      rw [advanceLoop, advanceEnd_stays _ _ _ hd]
      cases a with
      | zero =>
        simp only [decide_true, if_true]
        apply hexit <;> omega
      | succ a =>
        have hle : a + 1 ≤ s.length := Nat.le_trans hbefore hbehind
        simp only [s.iterator_ne hle (Nat.zero_le _) (Nat.succ_ne_zero a), decide_false,
          Bool.false_eq_true, if_false, s.advanceEnd_left _ hle hd]
        apply ih ⟨by omega, hbehind, hinside, by omega⟩ <;> omega

end Sequence

theorem advanceBidirectional_around [DecidableEq ι] (s : Sequence ι) {m distance turns : ℕ}
    (hm : m ≤ s.length) (ht : distance < turns) :
    ∃ a b, advanceBidirectional s.increment s.decrement turns (s.iterator 0) (s.iterator m)
        (s.iterator s.length) distance = some (s.iterator a, s.iterator b) ∧
      Around s.length m distance a b := by
  have hstart : Grown s.length m m m := ⟨Nat.le_refl m, Nat.le_refl m, hm, .inl rfl⟩
  exact ⟨_, _, s.advanceLoop_eq hstart ht (by omega), around_range hm distance⟩

/-- The trackers are counted by an `unsigned int`. -/
def indices (length : ℕ) : Sequence ℕ where
  length := length
  iterator i := i
  increment i := i + 1
  decrement i := i - 1
  increment_eq _ _ := rfl
  decrement_eq i _ := Nat.add_sub_cancel i 1
  distinct _ _ _ _ h := h

theorem advanceBidirectional_ten :
    ∃ a b, advanceBidirectional (indices 10).increment (indices 10).decrement 5 0 8 10 4 =
      some (a, b) ∧
      Around 10 8 4 a b :=
  advanceBidirectional_around (indices 10) (m := 8) (by decide) (by decide : 4 < 5)

end FocusRange
