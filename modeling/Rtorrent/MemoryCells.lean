import Mathlib.Data.List.Basic

/-! # Memory by address

A memory is a function of the address, and a text in it is what is held from an address on. -/
namespace MemoryCells

variable {α : Type} {m : ℕ → α} {pos p i : ℕ} {xs ys : List α}

def store (m : ℕ → α) (pos : ℕ) (xs : List α) : ℕ → α := fun i =>
  if pos ≤ i then (xs[i - pos]?).getD (m i) else m i

def load (m : ℕ → α) (pos size : ℕ) : List α := (List.range size).map fun i => m (pos + i)

def Holds (m : ℕ → α) (pos : ℕ) (xs : List α) : Prop := ∀ i x, xs[i]? = some x → m (pos + i) = x

theorem store_outside (h : i < pos ∨ pos + xs.length ≤ i) : store m pos xs i = m i := by
  rw [store]
  split
  · rw [List.getElem?_eq_none (by omega)]
    rfl
  · rfl

theorem store_inside {x : α} (h : xs[i]? = some x) : store m pos xs (pos + i) = x := by
  rw [store, if_pos (Nat.le_add_right pos i), Nat.add_sub_cancel_left, h]
  rfl

theorem store_append : store m pos (xs ++ ys) = store (store m pos xs) (pos + xs.length) ys := by
  funext i
  rcases Nat.lt_or_ge i (pos + xs.length) with hi | hi
  · rw [store_outside (m := store m pos xs) (.inl hi), store, store]
    split
    · rw [List.getElem?_append_left (by omega)]
    · rfl
  · rw [store, store, if_pos (by omega), if_pos hi, store_outside (.inr hi),
      List.getElem?_append_right (by omega), Nat.sub_sub]

theorem holds_store : Holds (store m pos xs) pos xs := fun _ _ h => store_inside h

theorem Holds.store_outside (h : Holds m p xs)
    (hp : p + xs.length ≤ pos ∨ pos + ys.length ≤ p) : Holds (store m pos ys) p xs := by
  intro i x hx
  have hi : i < xs.length := (List.getElem?_eq_some_iff.mp hx).1
  rw [MemoryCells.store_outside (by omega)]
  exact h i x hx

theorem Holds.congr {m' : ℕ → α} (h : Holds m pos xs)
    (hm : ∀ i, i < pos + xs.length → m' i = m i) : Holds m' pos xs := by
  intro i x hx
  have hi : i < xs.length := (List.getElem?_eq_some_iff.mp hx).1
  rw [hm _ (by omega)]
  exact h i x hx

theorem holds_nil : Holds m pos [] := by
  intro i x h
  cases h

theorem holds_append : Holds m pos (xs ++ ys) ↔ Holds m pos xs ∧ Holds m (pos + xs.length) ys := by
  constructor
  · intro h
    refine ⟨?_, ?_⟩
    · intro i x hx
      have hi : i < xs.length := (List.getElem?_eq_some_iff.mp hx).1
      apply h
      rw [List.getElem?_append_left hi, hx]
    · intro i x hx
      rw [Nat.add_assoc]
      apply h
      rw [List.getElem?_append_right (Nat.le_add_right _ _), Nat.add_sub_cancel_left, hx]
  · rintro ⟨hxs, hys⟩ i x hx
    rcases Nat.lt_or_ge i xs.length with hi | hi
    · rw [List.getElem?_append_left hi] at hx
      exact hxs i x hx
    · rw [List.getElem?_append_right hi] at hx
      have hy := hys _ x hx
      rwa [Nat.add_assoc, Nat.add_sub_cancel' hi] at hy

theorem holds_singleton {x : α} : Holds m pos [x] ↔ m pos = x := by
  constructor
  · intro h
    exact h 0 x rfl
  · rintro rfl i y hy
    cases i with
    | zero => exact Option.some.inj hy
    | succ i => cases hy

theorem Holds.load_eq (h : Holds m pos xs) : load m pos xs.length = xs := by
  apply List.ext_getElem?
  intro i
  rcases Nat.lt_or_ge i xs.length with hi | hi
  · rw [load, List.getElem?_map, List.getElem?_range hi, List.getElem?_eq_getElem hi,
      Option.map_some, h i _ (List.getElem?_eq_getElem hi)]
  · rw [List.getElem?_eq_none hi, List.getElem?_eq_none]
    simpa [load] using hi

theorem load_add (size rest : ℕ) :
    load m pos (size + rest) = load m pos size ++ load m (pos + size) rest := by
  simp only [load, List.range_add, List.map_append, List.map_map, Function.comp_def, Nat.add_assoc]

section

variable [DecidableEq α] {nul : α}

/-- What is in front of the first terminator, in a memory of this size. -/
def stringAt (nul : α) (size : ℕ) (m : ℕ → α) (pos : ℕ) : List α :=
  (load m pos (size - pos)).takeWhile (· != nul)

theorem Holds.stringAt_eq {size : ℕ} (h : Holds m pos (xs ++ [nul])) (hs : pos + xs.length < size) :
    stringAt nul size m pos = xs.takeWhile (· != nul) := by
  obtain ⟨rest, hrest⟩ : ∃ rest, size - pos = (xs ++ [nul]).length + rest := by
    refine ⟨size - pos - (xs.length + 1), ?_⟩
    simp only [List.length_append, List.length_singleton]
    omega
  rw [stringAt, hrest, load_add, h.load_eq, List.append_assoc, List.takeWhile_append]
  split
  · rename_i hall
    have hself : xs.takeWhile (· != nul) = xs :=
      (List.takeWhile_prefix _).eq_of_length hall
    rw [hself, List.singleton_append, List.takeWhile_cons_of_neg (by simp), List.append_nil]
  · rfl

end

end MemoryCells
