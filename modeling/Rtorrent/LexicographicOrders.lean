import Mathlib.Order.Lattice

/-! # Lexicographic orders

Criteria are asked one after the other until one of them decides. A last order decides where all
of them leave two elements tied. -/
namespace LexicographicOrders

variable {α : Type*}

def Tied (r : α → α → Prop) (a b : α) : Prop := ¬r a b ∧ ¬r b a

theorem key_weak {β : Type*} [LinearOrder β] (key : α → β) :
    IsStrictWeakOrder α fun a b => key a < key b where
  irrefl a := lt_irrefl (key a)
  trans _ _ _ := lt_trans
  incomp_trans _ _ _ h h' :=
    ⟨not_lt_of_ge (le_trans (le_of_not_gt h'.1) (le_of_not_gt h.1)),
      not_lt_of_ge (le_trans (le_of_not_gt h.2) (le_of_not_gt h'.2))⟩

theorem flip_weak {r : α → α → Prop} (hr : IsStrictWeakOrder α r) :
    IsStrictWeakOrder α fun a b => r b a where
  irrefl := hr.irrefl
  trans a b c h h' := hr.trans c b a h' h
  incomp_trans a b c h h' := hr.incomp_trans a b c h.symm h'.symm |>.symm

def lex (last : α → α → Prop) : List (α → α → Prop) → α → α → Prop
  | [], a, b => last a b
  | r :: rs, a, b => r a b ∨ Tied r a b ∧ lex last rs a b

section

variable {r last : α → α → Prop} {rs : List (α → α → Prop)} {a b c : α}

theorem Tied.symm (h : Tied r a b) : Tied r b a := ⟨h.2, h.1⟩

theorem Tied.trans (hr : IsStrictWeakOrder α r) (h : Tied r a b) (h' : Tied r b c) : Tied r a c :=
  hr.incomp_trans a b c h h'

theorem Tied.before_right (hr : IsStrictWeakOrder α r) (h : Tied r b c) (hab : r a b) : r a c := by
  by_contra hac
  by_cases hca : r c a
  · exact h.2 (hr.trans c a b hca hab)
  · exact (Tied.trans hr ⟨hac, hca⟩ h.symm).1 hab

theorem Tied.before_left (hr : IsStrictWeakOrder α r) (h : Tied r a b) (hbc : r b c) : r a c := by
  by_contra hac
  by_cases hca : r c a
  · exact h.2 (hr.trans b c a hbc hca)
  · exact (Tied.trans hr h.symm ⟨hac, hca⟩).1 hbc

theorem lex_irrefl (hrs : ∀ r ∈ rs, IsStrictWeakOrder α r) (hl : IsStrictTotalOrder α last)
    (a : α) : ¬lex last rs a a := by
  induction rs with
  | nil => exact hl.irrefl a
  | cons r rs ih =>
    rw [List.forall_mem_cons] at hrs
    rintro (h | ⟨-, h⟩)
    · exact hrs.1.irrefl a h
    · exact ih hrs.2 h

theorem lex_trans (hrs : ∀ r ∈ rs, IsStrictWeakOrder α r) (hl : IsStrictTotalOrder α last)
    (hab : lex last rs a b) (hbc : lex last rs b c) : lex last rs a c := by
  induction rs with
  | nil => exact hl.trans a b c hab hbc
  | cons r rs ih =>
    rw [List.forall_mem_cons] at hrs
    rcases hab with hab | ⟨htab, hab⟩
    · rcases hbc with hbc | ⟨htbc, -⟩
      · exact .inl (hrs.1.trans a b c hab hbc)
      · exact .inl (htbc.before_right hrs.1 hab)
    · rcases hbc with hbc | ⟨htbc, hbc⟩
      · exact .inl (htab.before_left hrs.1 hbc)
      · exact .inr ⟨htab.trans hrs.1 htbc, ih hrs.2 hab hbc⟩

theorem lex_total (hl : IsStrictTotalOrder α last) (h : a ≠ b) :
    lex last rs a b ∨ lex last rs b a := by
  induction rs with
  | nil =>
    by_contra hn
    rw [not_or] at hn
    exact h (hl.trichotomous a b hn.1 hn.2)
  | cons r rs ih =>
    by_cases hab : r a b
    · exact .inl (.inl hab)
    by_cases hba : r b a
    · exact .inr (.inl hba)
    · exact ih.imp (fun hl => .inr ⟨⟨hab, hba⟩, hl⟩) fun hl => .inr ⟨⟨hba, hab⟩, hl⟩

theorem lex_of_tied {before after : List (α → α → Prop)} (hb : ∀ r ∈ before, Tied r a b)
    (h : ¬Tied r a b) : lex last (before ++ r :: after) a b ↔ r a b := by
  induction before with
  | nil => exact or_iff_left fun hl => h hl.1
  | cons q before ih =>
    rw [List.forall_mem_cons] at hb
    exact ⟨fun hl => (ih hb.2).mp ((hl.resolve_left hb.1.1).2),
      fun hr => .inr ⟨hb.1, (ih hb.2).mpr hr⟩⟩

end

end LexicographicOrders
