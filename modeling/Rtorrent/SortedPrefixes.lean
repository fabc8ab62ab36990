import Mathlib.Data.List.Infix
import Mathlib.Data.List.Lex
import Mathlib.Data.List.TakeWhile
import Mathlib.Order.Lattice

/-! # Lists that start with a list

In a sorted list, those that start with a given list follow each other, so that two searches find
them. -/
namespace SortedPrefixes

section

variable {α β : Type*} {p q : α → Bool} {r : α → α → Prop} {l : List α}

/-- From the first element that passes to the next one that does not. -/
def range (p : α → Bool) (l : List α) : List α := (l.dropWhile fun a => !p a).takeWhile p

theorem range_map (p : β → Bool) (f : α → β) (l : List α) :
    range p (l.map f) = (range (p ∘ f) l).map f := by
  rw [range, List.dropWhile_map, List.takeWhile_map]
  rfl

theorem mem_range {a : α} (h : a ∈ range p l) : p a = true := List.mem_takeWhile_imp h

theorem mem_of_mem_range {a : α} (h : a ∈ range p l) : a ∈ l :=
  (List.dropWhile_suffix _).subset ((List.takeWhile_prefix _).subset h)

theorem range_eq_nil_iff : range p l = [] ↔ ∀ a ∈ l, p a = false := by
  induction l with
  | nil => simp [range]
  | cons a l ih =>
    by_cases hp : p a = true
    · simp [range, hp]
    · have hskip : range p (a :: l) = range p l := by simp [range, hp]
      rw [hskip, ih]
      simp [hp]

theorem takeWhile_eq_filter {a : α} (hsorted : (a :: l).Pairwise r)
    (hconvex : ∀ b ∈ l, ∀ c ∈ l, r a b → r b c → p c = true → p b = true) :
    l.takeWhile p = l.filter p := by
  induction l with
  | nil => rfl
  | cons b l ih =>
    obtain ⟨hfirst, hrest⟩ := List.pairwise_cons.mp hsorted
    obtain ⟨hb, hl⟩ := List.pairwise_cons.mp hrest
    by_cases hp : p b = true
    · rw [List.takeWhile_cons_of_pos hp, List.filter_cons_of_pos hp, ih]
      · exact List.pairwise_cons.mpr ⟨fun c hc => hfirst c (List.mem_cons_of_mem _ hc), hl⟩
      · exact fun b hb c hc => hconvex b (List.mem_cons_of_mem _ hb) c (List.mem_cons_of_mem _ hc)
    · rw [List.takeWhile_cons_of_neg hp, eq_comm, List.filter_eq_nil_iff]
      intro c hc hpc
      rcases List.mem_cons.mp hc with rfl | hc
      · exact hp hpc
      · exact hp (hconvex b List.mem_cons_self c (List.mem_cons_of_mem _ hc)
          (hfirst b List.mem_cons_self) (hb c hc) hpc)

theorem range_eq_filter (hsorted : l.Pairwise r)
    (hconvex : ∀ a ∈ l, ∀ b ∈ l, ∀ c ∈ l, r a b → r b c → p a = true → p c = true → p b = true) :
    range p l = l.filter p := by
  induction l with
  | nil => rfl
  | cons a l ih =>
    have hrest := List.pairwise_cons.mp hsorted
    by_cases hp : p a = true
    · have hstart : range p (a :: l) = a :: l.takeWhile p := by simp [range, hp]
      rw [hstart, List.filter_cons_of_pos hp, takeWhile_eq_filter hsorted]
      exact fun b hb c hc hab hbc => hconvex a List.mem_cons_self b (List.mem_cons_of_mem _ hb) c
        (List.mem_cons_of_mem _ hc) hab hbc hp
    · have hskip : range p (a :: l) = range p l := by simp [range, hp]
      rw [hskip, List.filter_cons_of_neg hp, ih hrest.2]
      exact fun a ha b hb c hc =>
        hconvex a (List.mem_cons_of_mem _ ha) b (List.mem_cons_of_mem _ hb)
        c (List.mem_cons_of_mem _ hc)

end

theorem starts_between {α : Type*} [LinearOrder α] {f a b c : List α} (ha : f <+: a) (hc : f <+: c)
    (hab : ¬b < a) (hbc : ¬c < b) : f <+: b := by
  induction f generalizing a b c with
  | nil => exact List.nil_prefix
  | cons x f ih =>
    obtain ⟨a, rfl⟩ := ha
    obtain ⟨c, rfl⟩ := hc
    cases b with
    | nil => exact absurd (List.nil_lt_cons _ _) hab
    | cons y b =>
      rw [List.cons_append, List.cons_lt_cons_iff, not_or] at hab hbc
      obtain rfl : x = y := le_antisymm (not_lt.mp hab.1) (not_lt.mp hbc.1)
      rw [List.cons_prefix_cons]
      exact ⟨rfl, ih ⟨a, rfl⟩ ⟨c, rfl⟩ (fun h => hab.2 ⟨rfl, h⟩) fun h => hbc.2 ⟨rfl, h⟩⟩

section

variable {α : Type*} {a b base other : List α} {names : List (List α)}

/-- The longest list that all start with. -/
def IsBase (base : List α) (names : List (List α)) : Prop :=
  ∀ b, b <+: base ↔ ∀ name ∈ names, b <+: name

theorem IsBase.unique (h : IsBase base names) (h' : IsBase other names) : base = other := by
  have hle : base <+: other := (h' base).mpr ((h base).mp List.prefix_rfl)
  have hge : other <+: base := (h other).mpr ((h' other).mp List.prefix_rfl)
  exact hle.eq_of_length (Nat.le_antisymm hle.length_le hge.length_le)

theorem isBase_singleton (a : List α) : IsBase a [a] := fun b => by simp

variable [DecidableEq α]

/-- How many elements two lists start with alike. -/
def common : List α → List α → ℕ
  | x :: a, y :: b => if x = y then common a b + 1 else 0
  | _, _ => 0

theorem starts_take_common : b <+: a.take (common a other) ↔ b <+: a ∧ b <+: other := by
  induction a generalizing b other with
  | nil =>
    simp only [List.take_nil, List.prefix_nil]
    exact ⟨fun h => ⟨h, h ▸ List.nil_prefix⟩, And.left⟩
  | cons x a ih =>
    cases b with
    | nil => simp
    | cons z b =>
      cases other with
      | nil => simp [common]
      | cons y other =>
        by_cases hxy : x = y
        · subst hxy
          simp only [common, if_true, List.take_succ_cons, List.cons_prefix_cons, ih]
          exact and_and_left
        · simp only [common, if_neg hxy, List.take_zero, List.cons_prefix_cons]
          refine iff_of_false (by simp) fun h => hxy ?_
          exact h.1.1.symm.trans h.2.1

theorem common_append {x : α} (hx : x ∉ a) : common a (b ++ [x]) = common a b := by
  induction a generalizing b with
  | nil => rfl
  | cons y a ih =>
    cases b with
    | nil =>
      have hne : y ≠ x := fun h => hx (h ▸ List.mem_cons_self)
      simp [common, hne]
    | cons z b => simp only [List.cons_append, common, ih fun h => hx (List.mem_cons_of_mem _ h)]

theorem IsBase.concat (h : IsBase base names) (name : List α) :
    IsBase (base.take (common base name)) (names ++ [name]) := by
  intro b
  rw [starts_take_common, h b]
  simp only [List.mem_append, List.mem_singleton, or_imp, forall_and, forall_eq]

end

end SortedPrefixes
