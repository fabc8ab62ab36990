import Mathlib.Data.List.DropRight
import Mathlib.Data.List.GetD
import Mathlib.Data.List.Rotate

/-! # Rings in a list

A ring is a list with the position of the next write. Rotated to it, the cells are in the order of
the writes. A copy within the list may read cells that it has written. -/
namespace RingCopies

variable {α : Type*} {d : α} {l l' : List α}

theorem ext_getD (hlen : l.length = l'.length)
    (h : ∀ i < l.length, l.getD i d = l'.getD i d) : l = l' := by
  refine List.ext_getElem hlen fun i hi hi' => ?_
  have := h i hi
  rwa [List.getD_eq_getElem l d hi, List.getD_eq_getElem l' d hi'] at this

theorem getD_set {i : ℕ} (hi : i < l.length) (a : α) (j : ℕ) :
    (l.set i a).getD j d = if i = j then a else l.getD j d := by
  rw [List.getD_eq_getElem?_getD, List.getD_eq_getElem?_getD, List.getElem?_set]
  split <;> rfl

theorem getD_take {n i : ℕ} : (l.take n).getD i d = if i < n then l.getD i d else d := by
  rw [List.getD_eq_getElem?_getD, List.getD_eq_getElem?_getD, List.getElem?_take]
  split <;> rfl

theorem getD_drop {n i : ℕ} : (l.drop n).getD i d = l.getD (n + i) d := by
  rw [List.getD_eq_getElem?_getD, List.getD_eq_getElem?_getD, List.getElem?_drop]

theorem getD_rotate {n i : ℕ} (hi : i < l.length) :
    (l.rotate n).getD i d = l.getD ((i + n) % l.length) d := by
  rw [List.getD_eq_getElem?_getD, List.getD_eq_getElem?_getD, List.getElem?_rotate hi]

theorem length_rtake (l : List α) (n : ℕ) : (l.rtake n).length = min n l.length := by
  rw [List.rtake, List.length_drop]
  omega

theorem rtake_of_length_le {n : ℕ} (h : l.length ≤ n) : l.rtake n = l := by
  rw [List.rtake, Nat.sub_eq_zero_of_le h, List.drop_zero]

theorem rtake_append_of_le {n : ℕ} (h : n ≤ l'.length) : (l ++ l').rtake n = l'.rtake n := by
  rw [List.rtake, List.rtake, List.length_append, List.drop_append]
  have hall : l.length ≤ l.length + l'.length - n := by omega
  rw [List.drop_eq_nil_of_le hall, List.nil_append]
  congr 1
  omega

theorem rtake_concat {n : ℕ} (h : n ≤ l.length) (a : α) :
    (l.rtake n ++ [a]).rtake n = (l ++ [a]).rtake n := by
  have hsplit : l ++ [a] = l.take (l.length - n) ++ (l.rtake n ++ [a]) := by
    rw [List.rtake, ← List.append_assoc, List.take_append_drop]
  have hlen : n ≤ (l.rtake n ++ [a]).length := by
    rw [List.length_append, length_rtake]
    omega
  rw [hsplit, rtake_append_of_le hlen]

theorem rtake_append_iff {n : ℕ} (h : l'.length ≤ n) :
    (l ++ l').rtake n = l' ↔ l = [] ∨ l'.length = n := by
  constructor
  · intro heq
    have hlen := congrArg List.length heq
    rw [length_rtake, List.length_append] at hlen
    rcases l with _ | ⟨a, l⟩
    · exact .inl rfl
    · rw [List.length_cons] at hlen
      exact .inr (by omega)
  · rintro (rfl | rfl)
    · exact rtake_of_length_le h
    · rw [List.rtake, List.length_append, Nat.add_sub_cancel, List.drop_left]

theorem rotate_write {p : ℕ} (hp : p < l.length) (a : α) :
    (l.set p a).rotate ((p + 1) % l.length) = (l.rotate p ++ [a]).rtake l.length := by
  have hlen : (l.set p a).length = l.length := List.length_set
  have hleft : (l.set p a).rotate ((p + 1) % l.length) = l.drop (p + 1) ++ (l.take p ++ [a]) := by
    rw [← hlen, List.rotate_mod, List.rotate_eq_drop_append_take (by omega),
      List.drop_set_of_lt (by omega), List.take_succ_eq_append_getElem (by omega),
      List.take_set_of_le (Nat.le_refl p), List.getElem_set_self]
  have hright : l.rotate p ++ [a] = [l[p]] ++ (l.drop (p + 1) ++ (l.take p ++ [a])) := by
    rw [List.rotate_eq_drop_append_take (by omega), List.drop_eq_getElem_cons hp, List.cons_append,
      List.cons_append, List.append_assoc, List.singleton_append]
  have hfull : (l.drop (p + 1) ++ (l.take p ++ [a])).length = l.length := by
    simp
    omega
  rw [hleft, hright, (rtake_append_iff hfull.le).mpr (.inr hfull)]

/-- Writes the cells from `i` on, each with what is then at its source. -/
def copyLoop (d : α) (source : ℕ → ℕ) : ℕ → ℕ → List α → List α
  | 0, _, cells => cells
  | left + 1, i, cells =>
    copyLoop d source left (i + 1) (cells.set i (cells.getD (source i) d))

section

variable {source : ℕ → ℕ} {left i j : ℕ} {cells : List α}

theorem length_copyLoop : (copyLoop d source left i cells).length = cells.length := by
  induction left generalizing i cells with
  | zero => rfl
  | succ left ih => rw [copyLoop, ih, List.length_set]

theorem copyLoop_below (hend : i + left ≤ cells.length) (hj : j < i) :
    (copyLoop d source left i cells).getD j d = cells.getD j d := by
  induction left generalizing i cells with
  | zero => rfl
  | succ left ih =>
    rw [copyLoop, ih (by rw [List.length_set]; omega) (by omega), getD_set (by omega),
      if_neg (by omega)]

theorem copyLoop_at (hend : i + left ≤ cells.length) (hi : i ≤ j) (hj : j < i + left) :
    (copyLoop d source left i cells).getD j d =
      if source j < j then (copyLoop d source left i cells).getD (source j) d
      else cells.getD (source j) d := by
  induction left generalizing i cells with
  | zero => omega
  | succ left ih =>
    have hlen : i + 1 + left ≤ (cells.set i (cells.getD (source i) d)).length := by
      rw [List.length_set]
      omega
    have hset : ∀ k, (cells.set i (cells.getD (source i) d)).getD k d =
        if i = k then cells.getD (source i) d else cells.getD k d := getD_set (by omega) _
    rw [copyLoop]
    rcases Nat.eq_or_lt_of_le hi with rfl | hlt
    · rw [copyLoop_below hlen (Nat.lt_succ_self i), hset, if_pos rfl]
      split
      · next hbefore => rw [copyLoop_below hlen (by omega), hset, if_neg (by omega)]
      · rfl
    · rw [ih hlen hlt (by omega)]
      split
      · rfl
      · rw [hset, if_neg (by omega)]

theorem copyLoop_ahead (hend : left ≤ cells.length) (hj : j < left) (hsource : j ≤ source j) :
    (copyLoop d source left 0 cells).getD j d = cells.getD (source j) d := by
  rw [copyLoop_at (by omega) (Nat.zero_le j) (by omega), if_neg (by omega)]

theorem copyLoop_behind (hend : left ≤ cells.length) (hj : j < left) (hsource : source j < j) :
    (copyLoop d source left 0 cells).getD j d =
      (copyLoop d source left 0 cells).getD (source j) d := by
  rw [copyLoop_at (by omega) (Nat.zero_le j) (by omega), if_pos hsource]

end

end RingCopies
