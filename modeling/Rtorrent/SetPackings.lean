import Mathlib.Data.List.Forall2
import Mathlib.Data.Set.Lattice
import Mathlib.Order.CompletePartialOrder

/-! # Disjoint parts of a set

A set is divided into disjoint parts, and each part is divided further. -/
namespace SetPackings

variable {α : Type} {s t u : Set α} {parts parts' : List (Set α)}

structure Packs (s : Set α) (parts : List (Set α)) : Prop where
  inside : ∀ p ∈ parts, p ⊆ s
  apart : parts.Pairwise Disjoint

theorem packs_nil : Packs s [] := ⟨by simp, .nil⟩

theorem packs_singleton : Packs s [s] := by
  refine ⟨?_, List.pairwise_singleton _ _⟩
  intro p hp
  rw [List.mem_singleton.mp hp]

theorem Packs.append (h : Packs s parts) (h' : Packs t parts') (hs : s ⊆ u) (ht : t ⊆ u)
    (hd : Disjoint s t) : Packs u (parts ++ parts') := by
  constructor
  · intro p hp
    rcases List.mem_append.mp hp with hp | hp
    · exact (h.inside p hp).trans hs
    · exact (h'.inside p hp).trans ht
  · rw [List.pairwise_append]
    refine ⟨h.apart, h'.apart, ?_⟩
    intro p hp p' hp'
    exact hd.mono (h.inside p hp) (h'.inside p' hp')

theorem exists_of_mem_forall₂ {β γ : Type} {R : β → γ → Prop} {as : List β} {bs : List γ}
    (h : List.Forall₂ R as bs) : ∀ a ∈ as, ∃ b ∈ bs, R a b := by
  induction h with
  | nil => simp
  | @cons a b as bs hab _ ih =>
    intro c hc
    rcases List.mem_cons.mp hc with rfl | hc
    · exact ⟨b, List.mem_cons_self, hab⟩
    · obtain ⟨d, hd, hcd⟩ := ih c hc
      exact ⟨d, List.mem_cons_of_mem _ hd, hcd⟩

theorem exists_forall₂ {β γ : Type} {R : β → γ → Prop} {as : List β}
    (h : ∀ a ∈ as, ∃ b, R a b) : ∃ bs, List.Forall₂ R as bs := by
  induction as with
  | nil => exact ⟨[], .nil⟩
  | cons a as ih =>
    obtain ⟨b, hb⟩ := h a List.mem_cons_self
    obtain ⟨bs, hbs⟩ := ih fun c hc => h c (List.mem_cons_of_mem _ hc)
    exact ⟨b :: bs, .cons hb hbs⟩

theorem Packs.shrink (h : Packs s parts) (hp : List.Forall₂ (· ⊆ ·) parts' parts) :
    Packs s parts' := by
  induction hp with
  | nil => exact h
  | @cons p' p ps' ps hsub hrest ih =>
    have hapart := List.pairwise_cons.mp h.apart
    have hps := ih ⟨fun q hq => h.inside q (List.mem_cons_of_mem _ hq), hapart.2⟩
    constructor
    · intro q hq
      rcases List.mem_cons.mp hq with rfl | hq
      · exact hsub.trans (h.inside p List.mem_cons_self)
      · exact hps.inside q hq
    · rw [List.pairwise_cons]
      refine ⟨?_, hps.apart⟩
      intro q hq
      obtain ⟨r, hr, hqr⟩ := exists_of_mem_forall₂ hrest q hq
      exact (hapart.1 r hr).mono hsub hqr

end SetPackings
