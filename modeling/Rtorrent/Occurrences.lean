import Mathlib.Algebra.Group.Nat.Defs
import Mathlib.Data.List.Infix

/-! # Occurrences of a list in a list

The occurrences that are met when the search goes on behind each one, and the pieces that are left
between them. -/
namespace Occurrences

variable {α : Type} [DecidableEq α] {needle : List α}

def find (needle : List α) : List α → Option ℕ
  | [] => if needle = [] then some 0 else none
  | a :: l => if needle <+: a :: l then some 0 else (find needle l).map (· + 1)

def findFrom (needle l : List α) (first : ℕ) : Option ℕ :=
  (find needle (l.drop first)).map (first + ·)

/-- The number of occurrences that do not overlap, behind the first `skip` elements. -/
def occurrencesFrom (needle : List α) : ℕ → List α → ℕ
  | _, [] => 0
  | skip + 1, _ :: l => occurrencesFrom needle skip l
  | 0, a :: l =>
    if needle <+: a :: l then occurrencesFrom needle (needle.length - 1) l + 1
    else occurrencesFrom needle 0 l

def occurrences (needle l : List α) : ℕ := occurrencesFrom needle 0 l

def Clear (needle l : List α) (i : ℕ) : Prop := ∀ j < i, ¬needle <+: l.drop j

/-- The pieces between the occurrences. -/
inductive Splits (needle : List α) : List α → List (List α) → Prop
  | last {l : List α} : ¬needle <:+: l → Splits needle l [l]
  | cut {p rest : List α} {ps : List (List α)} : Clear needle (p ++ (needle ++ rest)) p.length →
      Splits needle rest ps → Splits needle (p ++ (needle ++ rest)) (p :: ps)

omit [DecidableEq α] in
theorem infix_iff_drop {l : List α} : needle <:+: l ↔ ∃ j, needle <+: l.drop j := by
  constructor
  · rintro ⟨p, q, rfl⟩
    exact ⟨p.length, by simp⟩
  · rintro ⟨j, h⟩
    exact h.isInfix.trans (List.drop_suffix j l).isInfix

theorem find_none {l : List α} (h : find needle l = none) : ¬needle <:+: l := by
  induction l with
  | nil =>
    intro hin
    simp [find, List.infix_nil.mp hin] at h
  | cons a l ih =>
    by_cases hp : needle <+: a :: l
    · simp [find, hp] at h
    · have hl : find needle l = none := by simpa [find, hp] using h
      rintro hin
      exact (List.infix_cons_iff.mp hin).elim hp (ih hl)

omit [DecidableEq α] in
theorem Clear.cons {a : α} {l : List α} {i : ℕ} (hp : ¬needle <+: a :: l) (h : Clear needle l i) :
    Clear needle (a :: l) (i + 1) := by
  intro j hj
  cases j with
  | zero => exact hp
  | succ j => exact h j (Nat.lt_of_succ_lt_succ hj)

theorem find_some {l : List α} {i : ℕ} (h : find needle l = some i) :
    Clear needle l i ∧ ∃ p rest, p.length = i ∧ l = p ++ (needle ++ rest) := by
  induction l generalizing i with
  | nil =>
    by_cases hn : needle = []
    · obtain rfl : 0 = i := by simpa [find, hn] using h
      exact ⟨fun j hj => absurd hj (Nat.not_lt_zero j), [], [], by simp [hn]⟩
    · simp [find, hn] at h
  | cons a l ih =>
    by_cases hp : needle <+: a :: l
    · obtain rfl : 0 = i := by simpa [find, hp] using h
      obtain ⟨rest, hrest⟩ := hp
      exact ⟨fun j hj => absurd hj (Nat.not_lt_zero j), [], rest, by simp [hrest]⟩
    · obtain ⟨i, hi, rfl⟩ : ∃ k, find needle l = some k ∧ k + 1 = i := by
        simpa [find, hp] using h
      obtain ⟨hclear, p, rest, rfl, rfl⟩ := ih hi
      exact ⟨hclear.cons hp, a :: p, rest, rfl, rfl⟩

theorem find_of_absent {l : List α} (h : ¬needle <:+: l) : find needle l = none := by
  cases hfind : find needle l with
  | none => rfl
  | some i =>
    obtain ⟨_, p, rest, _, rfl⟩ := find_some hfind
    exact absurd ⟨p, rest, by simp⟩ h

theorem find_of_clear {p rest : List α} (h : Clear needle (p ++ (needle ++ rest)) p.length) :
    find needle (p ++ (needle ++ rest)) = some p.length := by
  induction p with
  | nil => cases needle <;> cases rest <;> simp [find]
  | cons a p ih =>
    have hhead : ¬needle <+: a :: (p ++ (needle ++ rest)) := h 0 (Nat.succ_pos _)
    have htail := ih fun j hj => h (j + 1) (Nat.succ_lt_succ hj)
    simp [find, hhead, htail]

/-- A list has pieces; the search moves behind an occurrence, so an empty one would be met for
ever. -/
theorem exists_splits (hne : needle ≠ []) (l : List α) : ∃ ps, Splits needle l ps := by
  induction hn : l.length using Nat.strong_induction_on generalizing l with
  | _ n ih =>
    cases h : find needle l with
    | none => exact ⟨[l], .last (find_none h)⟩
    | some i =>
      obtain ⟨hclear, p, rest, rfl, rfl⟩ := find_some h
      have hlen : rest.length < n := by
        have := List.length_pos_of_ne_nil hne
        simp only [List.length_append] at hn
        omega
      obtain ⟨ps, hps⟩ := ih _ hlen rest rfl
      exact ⟨p :: ps, .cut hclear hps⟩

omit [DecidableEq α] in
theorem Splits.ne_nil {l : List α} {ps : List (List α)} (h : Splits needle l ps) : ps ≠ [] := by
  cases h <;> simp

omit [DecidableEq α] in
theorem intercalate_cons_of_ne_nil (sep p : List α) {ps : List (List α)} (h : ps ≠ []) :
    sep.intercalate (p :: ps) = p ++ (sep ++ sep.intercalate ps) := by
  obtain ⟨q, qs, rfl⟩ := List.exists_cons_of_ne_nil h
  simp [List.intercalate]

omit [DecidableEq α] in
theorem nil_intercalate (ps : List (List α)) : [].intercalate ps = ps.flatten := by
  induction ps with
  | nil => simp [List.intercalate]
  | cons p ps ih =>
    cases ps with
    | nil => simp [List.intercalate]
    | cons q qs => simp [intercalate_cons_of_ne_nil [] p (List.cons_ne_nil q qs), ih]

omit [DecidableEq α] in
theorem Splits.intercalate_eq {l : List α} {ps : List (List α)} (h : Splits needle l ps) :
    needle.intercalate ps = l := by
  induction h with
  | last _ => simp [List.intercalate]
  | cut _ hrest ih => rw [intercalate_cons_of_ne_nil _ _ hrest.ne_nil, ih]

omit [DecidableEq α] in
theorem Splits.absent (hne : needle ≠ []) {l : List α} {ps : List (List α)}
    (h : Splits needle l ps) : ∀ p ∈ ps, ¬needle <:+: p := by
  induction h with
  | last hnot =>
    intro p hp
    exact List.mem_singleton.mp hp ▸ hnot
  | @cut q rest ps hclear _ ih =>
    intro p hp hin
    rcases List.mem_cons.mp hp with rfl | hp
    · obtain ⟨j, hj⟩ := infix_iff_drop.mp hin
      have hlen : needle.length ≤ p.length - j := by simpa using hj.length_le
      have hpos := List.length_pos_of_ne_nil hne
      apply hclear j (by omega)
      rw [List.drop_append_of_le_length (by omega)]
      exact hj.trans (List.prefix_append _ _)
    · exact ih p hp hin

theorem occurrencesFrom_eq_drop (skip : ℕ) (l : List α) :
    occurrencesFrom needle skip l = occurrences needle (l.drop skip) := by
  induction l generalizing skip with
  | nil => cases skip <;> rfl
  | cons a l ih =>
    cases skip with
    | zero => rfl
    | succ skip => exact ih skip

theorem occurrences_of_absent {l : List α} (h : ¬needle <:+: l) : occurrences needle l = 0 := by
  induction l with
  | nil => rfl
  | cons a l ih =>
    have hcons := not_or.mp (mt List.infix_cons_iff.mpr h)
    simpa [occurrences, occurrencesFrom, hcons.1] using ih hcons.2

theorem occurrences_append (hne : needle ≠ []) (p rest : List α)
    (h : Clear needle (p ++ (needle ++ rest)) p.length) :
    occurrences needle (p ++ (needle ++ rest)) = occurrences needle rest + 1 := by
  induction p with
  | nil =>
    obtain ⟨a, needle, rfl⟩ := List.exists_cons_of_ne_nil hne
    have hp : a :: needle <+: a :: (needle ++ rest) := List.prefix_append (a :: needle) rest
    simp [occurrences, occurrencesFrom, hp, occurrencesFrom_eq_drop needle.length (needle ++ rest)]
  | cons a p ih =>
    have hhead : ¬needle <+: a :: (p ++ (needle ++ rest)) := h 0 (Nat.succ_pos _)
    have htail := ih fun j hj => h (j + 1) (Nat.succ_lt_succ hj)
    simpa [occurrences, occurrencesFrom, hhead] using htail

theorem Splits.length_eq (hne : needle ≠ []) {l : List α} {ps : List (List α)}
    (h : Splits needle l ps) : ps.length = occurrences needle l + 1 := by
  induction h with
  | last hnot => simp [occurrences_of_absent hnot]
  | cut hclear _ ih => simp [occurrences_append hne _ _ hclear, ih]

omit [DecidableEq α] in
theorem Splits.length_le (hne : needle ≠ []) {l : List α} {ps : List (List α)}
    (h : Splits needle l ps) : ps.length ≤ l.length + 1 := by
  induction h with
  | last _ => simp
  | cut _ _ ih =>
    have hpos := List.length_pos_of_ne_nil hne
    simp only [List.length_cons, List.length_append]
    omega

end Occurrences
