import Mathlib.Data.List.Sort

/-! # Heaps in vectors

A vector is a heap for a key when no element has a smaller key than the one above it. Library
functions are known by what they promise. -/
namespace VectorHeaps

variable {α β : Type} [LinearOrder β] {key : α → β} {v : List α}

/-- The element above the one at `i` is at `(i - 1) / 2`. -/
def IsHeap (key : α → β) (v : List α) : Prop :=
  ∀ i : ℕ, ∀ x ∈ v[i]?, ∀ y ∈ v[(i - 1) / 2]?, key y ≤ key x

theorem IsHeap.front_le {x : α} (h : IsHeap key (x :: v)) : ∀ y ∈ x :: v, key x ≤ key y := by
  have hindex : ∀ i : ℕ, ∀ y ∈ (x :: v)[i]?, key x ≤ key y := by
    intro i
    induction i using Nat.strongRecOn with
    | ind i ih =>
      intro y hy
      by_cases hi : i = 0
      · subst hi
        cases hy
        exact le_rfl
      · have hlength := (List.getElem?_eq_some_iff.mp hy).1
        have habove : (i - 1) / 2 < i := by omega
        have hz := List.getElem?_eq_getElem (habove.trans hlength)
        exact (ih _ habove _ hz).trans (h i y hy _ hz)
  intro y hy
  obtain ⟨i, hi⟩ := List.mem_iff_getElem?.mp hy
  exact hindex i y hi

theorem IsHeap.congr {key' : α → β} (h : IsHeap key v) (hkey : ∀ x ∈ v, key' x = key x) :
    IsHeap key' v := by
  intro i x hx y hy
  rw [hkey x (List.mem_of_getElem? hx), hkey y (List.mem_of_getElem? hy)]
  exact h i x hx y hy

theorem isHeap_nil : IsHeap key [] := by
  intro i x hx
  cases hx

theorem isHeap_of_pairwise (h : v.Pairwise fun x y => key x ≤ key y) : IsHeap key v := by
  intro i x hx y hy
  obtain ⟨hi, rfl⟩ := List.getElem?_eq_some_iff.mp hx
  obtain ⟨hj, rfl⟩ := List.getElem?_eq_some_iff.mp hy
  rcases Nat.lt_or_ge ((i - 1) / 2) i with hlt | hge
  · exact List.pairwise_iff_getElem.mp h _ _ hj hi hlt
  · have hsame : (i - 1) / 2 = i := by omega
    simp only [hsame, le_refl]

/-- What `std::push_heap`, `std::pop_heap` and `std::make_heap` promise of a vector. -/
structure HeapFunctions (α β : Type) [LinearOrder β] where
  push : (α → β) → List α → List α
  pop : (α → β) → List α → List α
  make : (α → β) → List α → List α
  push_spec : ∀ key v x, IsHeap key v →
    (push key (v ++ [x])).Perm (v ++ [x]) ∧ IsHeap key (push key (v ++ [x]))
  pop_spec : ∀ key v x, IsHeap key (x :: v) →
    ∃ rest, pop key (x :: v) = rest ++ [x] ∧ rest.Perm v ∧ IsHeap key rest
  make_spec : ∀ key v, (make key v).Perm v ∧ IsHeap key (make key v)

def sortBy (key : α → β) (v : List α) : List α := v.insertionSort fun x y => key x ≤ key y

theorem sortBy_spec (key : α → β) (v : List α) :
    (sortBy key v).Perm v ∧ IsHeap key (sortBy key v) := by
  have : Std.Total fun x y : α => key x ≤ key y := ⟨fun x y => le_total (key x) (key y)⟩
  have : IsTrans α fun x y => key x ≤ key y := ⟨fun _ _ _ => le_trans⟩
  exact ⟨List.perm_insertionSort _ v, isHeap_of_pairwise (List.pairwise_insertionSort _ v)⟩

/-- A sorted vector is a heap. -/
def sorting (α β : Type) [LinearOrder β] : HeapFunctions α β where
  push := sortBy
  pop key v := sortBy key v.tail ++ v.head?.toList
  make := sortBy
  push_spec key v x _ := sortBy_spec key (v ++ [x])
  pop_spec key v _ _ := ⟨sortBy key v, rfl, sortBy_spec key v⟩
  make_spec := sortBy_spec

end VectorHeaps
