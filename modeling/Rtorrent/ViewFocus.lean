import Mathlib.Logic.Function.Iterate
import Rtorrent.ViewModel

/-! # Moving the focus

The focus of `n` visible downloads has `n + 1` positions, the last of which is no focus. The two
keys go around them in opposite directions. -/
namespace ViewFocus

open ViewModel ViewModel.View

variable {α : Type*}

/-- `std::vector::max_size` for elements of two pointers. -/
def maxSize : ℕ := (2 ^ 63 - 1) / 16

/-- A view that can exist and has visible downloads. -/
structure Shown (v : View α) : Prop where
  valid : v.Valid
  size_pos : 0 < v.size
  length_le : v.entries.length ≤ maxSize

/-- So many positions further, for at most one time around. -/
def ahead (n p k : ℕ) : ℕ := if p + k ≤ n then p + k else p + k - (n + 1)

def back (n p k : ℕ) : ℕ := if k ≤ p then p - k else p + (n + 1) - k

section

variable {n p k : ℕ} (hp : p ≤ n) (hk : k ≤ n)
include hp hk

theorem ahead_le : ahead n p k ≤ n := by
  unfold ahead
  split <;> omega

theorem back_le : back n p k ≤ n := by
  unfold back
  split <;> omega

theorem ahead_succ : ahead n (ahead n p k) 1 = ahead n p (k + 1) := by
  unfold ahead
  repeat' split
  all_goals omega

theorem back_succ : back n (back n p k) 1 = back n p (k + 1) := by
  unfold back
  repeat' split
  all_goals omega

end

section

variable {v : View α} (h : Shown v)
include h

theorem Shown.bounds :
    0 < v.size ∧ v.size < 2 ^ 59 ∧ v.focus ≤ v.size ∧ v.entries.isEmpty = false := by
  obtain ⟨⟨hsize, hfocus⟩, hpos, hmax⟩ := h
  have hbound : maxSize < 2 ^ 59 := by decide
  refine ⟨hpos, by omega, hfocus, ?_⟩
  cases hentries : v.entries with
  | nil =>
    rw [hentries, List.length_nil] at hsize
    omega
  | cons d entries => rfl

theorem Shown.sizePred_eq : sizePred v.size = v.size - 1 := by
  have := h.bounds
  unfold sizePred
  omega

theorem Shown.withFocus {p : ℕ} (hp : p ≤ v.size) : Shown { v with focus := p } :=
  ⟨⟨h.valid.1, hp⟩, h.size_pos, h.length_le⟩

theorem nextFocus_of_lt {i : ℕ} (hp : v.focus + 1 < v.size) (hi : i < 2 ^ 32) :
    v.nextFocus i = { v with focus := min (v.focus + i) (v.size - 1) } := by
  obtain ⟨hpos, hmax, hfocus, hempty⟩ := h.bounds
  have hsum : (v.focus + i) % 2 ^ 64 = v.focus + i := Nat.mod_eq_of_lt (by omega)
  have hmin : (if v.size - 1 < v.focus + i then v.size - 1 else v.focus + i) =
      min (v.focus + i) (v.size - 1) := by
    split <;> omega
  simp only [nextFocus, hempty, h.sizePred_eq, Bool.false_eq_true, if_false,
    if_neg (show v.focus ≠ v.size - 1 by omega), if_neg (show v.focus ≠ v.size by omega), hsum,
      hmin]

theorem nextFocus_one : v.nextFocus 1 = { v with focus := ahead v.size v.focus 1 } := by
  obtain ⟨hpos, hmax, hfocus, hempty⟩ := h.bounds
  by_cases hlast : v.focus + 1 < v.size
  · rw [nextFocus_of_lt h hlast (by decide)]
    congr 1
    unfold ahead
    split <;> omega
  by_cases hnone : v.focus = v.size
  · have hahead : ahead v.size v.size 1 = 0 := by
      unfold ahead
      split <;> omega
    simp [nextFocus, hempty, h.sizePred_eq, hnone, hahead, show v.size ≠ v.size - 1 by omega]
  · have hahead : ahead v.size v.focus 1 = v.size := by
      unfold ahead
      split <;> omega
    simp only [nextFocus, hempty, h.sizePred_eq, Bool.false_eq_true, if_false,
      if_pos (show v.focus = v.size - 1 by omega), hahead]

theorem prevFocus_one : v.prevFocus 1 = { v with focus := back v.size v.focus 1 } := by
  obtain ⟨hpos, hmax, hfocus, hempty⟩ := h.bounds
  by_cases hnone : v.focus = v.size
  · have hback : back v.size v.size 1 = v.size - 1 := if_pos hpos
    simp [prevFocus, hempty, h.sizePred_eq, hnone, hback]
  · have hback : (if v.size < (v.focus + 2 ^ 64 - 1) % 2 ^ 64 then v.size
        else (v.focus + 2 ^ 64 - 1) % 2 ^ 64) = back v.size v.focus 1 := by
      unfold back
      split <;> split <;> omega
    simp only [prevFocus, hempty, Bool.false_eq_true, if_false, if_neg hnone, hback]

end

/-- The positions are each reached once in one time around, and then the view is as before. -/
structure Cycles (move : View α → View α) (v : View α) : Prop where
  reaches : ∀ p ≤ v.size, ∃! k, k ≤ v.size ∧ (move^[k] v).focus = p
  returns : move^[v.size + 1] v = v

/-- `pos` lists the positions in the order of the moves. -/
theorem cycles_of_steps {move : View α → View α} {v : View α} {pos index : ℕ → ℕ}
    (hstart : pos 0 = v.focus)
    (hstep : ∀ k ≤ v.size, move { v with focus := pos k } = { v with focus := pos (k + 1) })
    (hindex : ∀ p ≤ v.size, index p ≤ v.size ∧ pos (index p) = p)
    (hunique : ∀ k ≤ v.size, index (pos k) = k) (hround : pos (v.size + 1) = v.focus) :
    Cycles move v := by
  have hiterate : ∀ k ≤ v.size + 1, move^[k] v = { v with focus := pos k } := by
    intro k hk
    induction k with
    | zero =>
      rw [hstart]
      rfl
    | succ k ih => rw [Function.iterate_succ_apply', ih (by omega), hstep k (by omega)]
  constructor
  · intro p hp
    obtain ⟨hle, hpos⟩ := hindex p hp
    refine ⟨index p, ⟨hle, ?_⟩, ?_⟩
    · rw [hiterate _ (by omega)]
      exact hpos
    · rintro k ⟨hk, rfl⟩
      rw [hiterate k (by omega)]
      exact (hunique k hk).symm
  · rw [hiterate _ (Nat.le_refl _), hround]

section

variable {v : View α} (h : Shown v)
include h

theorem cycles_next : Cycles (fun w => w.nextFocus 1) v := by
  have hfocus := h.valid.2
  refine @cycles_of_steps _ _ v (ahead v.size v.focus) (fun p => back v.size p v.focus)
    (if_pos hfocus) (fun k hk => ?_) (fun p hp => ⟨?_, ?_⟩) (fun k hk => ?_) ?_
  · rw [nextFocus_one (h.withFocus (ahead_le hfocus hk))]
    exact congrArg (fun p => { v with focus := p }) (ahead_succ hfocus hk)
  all_goals
    simp only [ahead, back]
    repeat' split
    all_goals omega

theorem cycles_prev : Cycles (fun w => w.prevFocus 1) v := by
  have hfocus := h.valid.2
  refine @cycles_of_steps _ _ v (back v.size v.focus) (back v.size v.focus)
    rfl (fun k hk => ?_) (fun p hp => ⟨?_, ?_⟩) (fun k hk => ?_) ?_
  · rw [prevFocus_one (h.withFocus (back_le hfocus hk))]
    exact congrArg (fun p => { v with focus := p }) (back_succ hfocus hk)
  all_goals
    simp only [back]
    repeat' split
    all_goals omega

theorem prevFocus_nextFocus : (v.nextFocus 1).prevFocus 1 = v := by
  have hfocus := h.valid.2
  have hback : back v.size (ahead v.size v.focus 1) 1 = v.focus := by
    have := h.size_pos
    unfold ahead back
    repeat' split
    all_goals omega
  rw [nextFocus_one h, prevFocus_one (h.withFocus (ahead_le hfocus h.size_pos))]
  simp only [hback]

theorem nextFocus_prevFocus : (v.prevFocus 1).nextFocus 1 = v := by
  have hfocus := h.valid.2
  have hahead : ahead v.size (back v.size v.focus 1) 1 = v.focus := by
    have := h.size_pos
    unfold ahead back
    repeat' split
    all_goals omega
  rw [prevFocus_one h, nextFocus_one (h.withFocus (back_le hfocus h.size_pos))]
  simp only [hahead]

end

theorem nextFocus_size (v : View α) (i : ℕ) : (v.nextFocus i).size = v.size := by
  unfold nextFocus
  split
  · rfl
  split <;> rfl

theorem prevFocus_size (v : View α) (i : ℕ) : (v.prevFocus i).size = v.size := by
  unfold prevFocus
  split
  · rfl
  split <;> rfl

theorem focus_moves (v : View α) (h : Shown v) :
    (v.nextFocus 1).prevFocus 1 = v ∧ (v.prevFocus 1).nextFocus 1 = v ∧
    Cycles (fun w => w.nextFocus 1) v ∧ Cycles (fun w => w.prevFocus 1) v ∧
    ∀ i, 1 ≤ i → i < 2 ^ 32 →
      (v.nextFocus i).focus ≤ v.size ∧ (v.prevFocus i).focus ≤ v.size ∧
      (v.focus + 1 < v.size → (v.nextFocus i).focus = min (v.focus + i) (v.size - 1)) := by
  refine ⟨prevFocus_nextFocus h, nextFocus_prevFocus h, cycles_next h, cycles_prev h,
    fun i _ hi => ?_⟩
  have hnext := (nextFocus_valid h.valid (.inr (.inl h.size_pos) : _ ∨ _ ∨ i = 1)).2
  have hprev := (prevFocus_valid h.valid i (.inr h.size_pos)).2
  rw [nextFocus_size] at hnext
  rw [prevFocus_size] at hprev
  refine ⟨hnext, hprev, fun hp => ?_⟩
  rw [nextFocus_of_lt h hp hi]

def threeShown : View ℕ where
  name := "main"
  entries := [0, 1, 2, 3]
  size := 3
  focus := 0
  hasEventAdded := false
  hasEventRemoved := false

theorem focus_moves_three :
    Shown threeShown ∧ (threeShown.nextFocus 1).prevFocus 1 = threeShown ∧
      (threeShown.nextFocus 7).focus = 2 := by
  have h : Shown threeShown := ⟨⟨by decide, by decide⟩, by decide, by decide⟩
  have hmoves := focus_moves threeShown h
  exact ⟨h, hmoves.1, (hmoves.2.2.2.2 7 (by decide) (by decide)).2.2 (by decide)⟩

end ViewFocus
