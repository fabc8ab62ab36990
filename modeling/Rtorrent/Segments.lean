import Mathlib.Algebra.Group.Nat.Defs
import Mathlib.Data.List.Basic

/-! # Segments of a list

A segment is one element with the elements behind it that continue it. The first element of the
list always starts one. -/
namespace Segments

variable {α : Type} {tail : α → Bool}

def consHead (a : α) : List (List α) → List (List α)
  | [] => [[a]]
  | s :: ss => (a :: s) :: ss

def segments (tail : α → Bool) : List α → List (List α)
  | [] => []
  | [a] => [[a]]
  | a :: b :: l =>
    if tail b then consHead a (segments tail (b :: l)) else [a] :: segments tail (b :: l)

/-- The list starts with an element that continues. -/
def startsTail (tail : α → Bool) : List α → Bool
  | [] => false
  | a :: _ => tail a

/-- What segments are: all but the first element of each continue, and the first element of all but
the first does not. -/
structure IsSegments (tail : α → Bool) (ss : List (List α)) : Prop where
  nonempty : ∀ s ∈ ss, s ≠ []
  continued : ∀ s ∈ ss, ∀ b ∈ s.tail, tail b = true
  started : ∀ s ∈ ss.tail, startsTail tail s = false

@[simp] theorem startsTail_nil : startsTail tail [] = false := rfl

variable (a : α) (l : List α)

@[simp] theorem startsTail_cons : startsTail tail (a :: l) = tail a := rfl

theorem segments_cons : segments tail (a :: l) =
    if startsTail tail l then consHead a (segments tail l) else [a] :: segments tail l := by
  cases l with
  | nil => rfl
  | cons b l => rfl

theorem segments_cons_ne_nil : ∃ s ss, segments tail (a :: l) = (a :: s) :: ss := by
  rw [segments_cons]
  split
  · cases segments tail l with
    | nil => exact ⟨[], [], rfl⟩
    | cons s ss => exact ⟨s, ss, rfl⟩
  · exact ⟨[], _, rfl⟩

theorem flatten_consHead (ss : List (List α)) : (consHead a ss).flatten = a :: ss.flatten := by
  cases ss <;> simp [consHead]

@[simp] theorem flatten_segments : (segments tail l).flatten = l := by
  induction l with
  | nil => rfl
  | cons a l ih =>
    rw [segments_cons]
    split <;> simp [flatten_consHead, ih]

theorem IsSegments.cons {s : List α} {ss : List (List α)} (hs : s ≠ [])
    (hc : ∀ b ∈ s.tail, tail b = true)
    (h : IsSegments tail ss) (hstart : startsTail tail ss.flatten = false) :
    IsSegments tail (s :: ss) := by
  refine ⟨?_, ?_, ?_⟩
  · simpa [hs] using h.nonempty
  · simpa using ⟨hc, h.continued⟩
  · cases ss with
    | nil => simp
    | cons t ts =>
      have ht : t ≠ [] := h.nonempty t (by simp)
      obtain ⟨a, t', rfl⟩ := List.exists_cons_of_ne_nil ht
      simpa using ⟨hstart, h.started⟩

theorem isSegments_segments : IsSegments tail (segments tail l) := by
  induction l with
  | nil => exact ⟨by simp [segments], by simp [segments], by simp [segments]⟩
  | cons a l ih =>
    rw [segments_cons]
    split
    · next h =>
      cases l with
      | nil => simp at h
      | cons b l =>
        obtain ⟨s, ss, hss⟩ := @segments_cons_ne_nil α tail b l
        rw [hss] at ih ⊢
        refine ⟨?_, ?_, ih.started⟩
        · simpa [consHead] using fun t ht => ih.nonempty t (List.mem_cons_of_mem _ ht)
        · intro t ht c hc
          rcases List.mem_cons.mp ht with rfl | ht
          · rcases List.mem_cons.mp hc with rfl | hc
            · exact h
            · exact ih.continued _ List.mem_cons_self c hc
          · exact ih.continued t (List.mem_cons_of_mem _ ht) c hc
    · next h => exact ih.cons (by simp) (by simp) (by simpa using h)

variable {ss : List (List α)}

theorem IsSegments.of_cons {s : List α} (h : IsSegments tail (s :: ss)) : IsSegments tail ss :=
  ⟨fun t ht => h.nonempty t (List.mem_cons_of_mem _ ht),
    fun t ht => h.continued t (List.mem_cons_of_mem _ ht),
    fun t ht => h.started t (List.mem_of_mem_tail ht)⟩

theorem IsSegments.startsTail_flatten {s : List α}
    (h : IsSegments tail (s :: ss)) : startsTail tail ss.flatten = false := by
  cases ss with
  | nil => rfl
  | cons t ts =>
    obtain ⟨a, t', rfl⟩ := List.exists_cons_of_ne_nil (h.nonempty t (by simp))
    simpa using h.started (a :: t') (by simp)

theorem segments_cons_append (t l : List α) (ht : ∀ b ∈ t, tail b = true)
    (hl : startsTail tail l = false) :
    segments tail (a :: (t ++ l)) = (a :: t) :: segments tail l := by
  induction t generalizing a with
  | nil => simp [segments_cons, hl]
  | cons b t ih =>
    have hb : tail b = true := ht b (by simp)
    have hih := ih b fun c hc => ht c (List.mem_cons_of_mem _ hc)
    rw [segments_cons]
    simp [hb, hih, consHead]

theorem IsSegments.segments_flatten (h : IsSegments tail ss) : segments tail ss.flatten = ss := by
  induction ss with
  | nil => rfl
  | cons s ss ih =>
    obtain ⟨a, t, rfl⟩ := List.exists_cons_of_ne_nil (h.nonempty s (by simp))
    have ht : ∀ b ∈ t, tail b = true := h.continued (a :: t) (by simp)
    simpa [ih h.of_cons] using segments_cons_append a t ss.flatten ht h.startsTail_flatten

theorem IsSegments.take (h : IsSegments tail ss) (n : ℕ) : IsSegments tail (ss.take n) := by
  refine ⟨fun s hs => h.nonempty s (List.mem_of_mem_take hs),
    fun s hs => h.continued s (List.mem_of_mem_take hs), fun s hs => h.started s ?_⟩
  exact (List.take_sublist n ss).tail.subset hs

theorem IsSegments.drop (h : IsSegments tail ss) (n : ℕ) : IsSegments tail (ss.drop n) := by
  induction n generalizing ss with
  | zero => simpa using h
  | succ n ih =>
    cases ss with
    | nil => simpa using h
    | cons s ss => simpa using ih h.of_cons

theorem segments_slice (m n : ℕ) :
    segments tail (((segments tail l).drop m).take n).flatten = ((segments tail l).drop m).take n :=
  (((isSegments_segments l).drop m).take n).segments_flatten

theorem length_segments : (segments tail l).length =
    l.countP (fun a => !tail a) + if startsTail tail l then 1 else 0 := by
  induction l with
  | nil => rfl
  | cons a l ih =>
    rw [segments_cons]
    cases l with
    | nil => cases h : tail a <;> simp [segments, h]
    | cons b l =>
      obtain ⟨s, ss, hss⟩ := @segments_cons_ne_nil α tail b l
      rw [hss] at ih ⊢
      cases ha : tail a <;> cases hb : tail b <;> simp_all [consHead]

theorem length_segments_le : (segments tail l).length ≤ l.length := by
  induction l with
  | nil => exact Nat.le_refl _
  | cons a l ih =>
    rw [segments_cons]
    split
    · next h =>
      cases l with
      | nil => cases h
      | cons b l =>
        obtain ⟨s, ss, hss⟩ := @segments_cons_ne_nil α tail b l
        rw [hss] at ih ⊢
        exact Nat.le_succ_of_le ih
    · exact Nat.succ_le_succ ih

theorem IsSegments.countP_of_mem (h : IsSegments tail ss) {s : List α}
    (hs : s ∈ ss) : s.countP (fun a => !tail a) = if startsTail tail s then 0 else 1 := by
  obtain ⟨a, t, rfl⟩ := List.exists_cons_of_ne_nil (h.nonempty s hs)
  have ht : t.countP (fun a => !tail a) = 0 :=
    List.countP_eq_zero.mpr fun b hb => by simp [h.continued _ hs b hb]
  cases ha : tail a <;> simp [ht, ha]

/-- The positions where the segments start, and the one where the last ends. -/
def boundaries : ℕ → List (List α) → List ℕ
  | i, [] => [i]
  | i, s :: ss => i :: boundaries (i + s.length) ss

@[simp] theorem length_boundaries (i : ℕ) (ss : List (List α)) :
    (boundaries i ss).length = ss.length + 1 := by
  induction ss generalizing i with
  | nil => rfl
  | cons s ss ih => simp [boundaries, ih]

theorem getD_boundaries (i : ℕ) (ss : List (List α)) {n : ℕ} (hn : n ≤ ss.length) :
    (boundaries i ss).getD n 0 = i + (ss.take n).flatten.length := by
  induction ss generalizing i n with
  | nil =>
    obtain rfl : n = 0 := by simpa using hn
    simp [boundaries]
  | cons s ss ih =>
    cases n with
    | zero => simp [boundaries]
    | succ n =>
      have hss := ih (i + s.length) (Nat.le_of_succ_le_succ hn)
      simpa [boundaries, Nat.add_assoc] using hss

theorem flatten_take_append_drop (n : ℕ) (ss : List (List α)) :
    (ss.take n).flatten ++ (ss.drop n).flatten = ss.flatten := by
  rw [← List.flatten_append, List.take_append_drop]

theorem slice_boundaries (ss : List (List α)) {m n : ℕ} (hmn : m ≤ n) (hn : n ≤ ss.length) :
    (ss.flatten.drop ((boundaries 0 ss).getD m 0)).take
      ((boundaries 0 ss).getD n 0 - (boundaries 0 ss).getD m 0) =
    ((ss.drop m).take (n - m)).flatten := by
  have hsplit : ss.take n = ss.take m ++ (ss.drop m).take (n - m) := by
    rw [← List.take_add, Nat.add_sub_cancel' hmn]
  have hdrop : ss.flatten.drop (ss.take m).flatten.length = (ss.drop m).flatten := by
    conv_lhs => arg 2; rw [← flatten_take_append_drop m ss]
    exact List.drop_left
  rw [getD_boundaries 0 ss (Nat.le_trans hmn hn), getD_boundaries 0 ss hn, hsplit]
  simp only [Nat.zero_add, hdrop, List.flatten_append, List.length_append, Nat.add_sub_cancel_left]
  conv_lhs => arg 2; rw [← flatten_take_append_drop (n - m) (ss.drop m)]
  exact List.take_left

end Segments
