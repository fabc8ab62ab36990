import Mathlib.Data.List.Basic
import Rtorrent.FallibleRuns

/-! # Folds over nested lists

A nested list is folded from the left: the first element starts the fold, an inner list stands
for the result of its own fold, and an empty list has none. -/
namespace NestedFolds

open FallibleRuns

inductive Nested (α : Type) where
  | leaf (a : α)
  | node (items : List (Nested α))

variable {α ε : Type}

mutual

def Nested.value (empty : ε) (step : α → α → Except ε α) : Nested α → Except ε α
  | .leaf a => .ok a
  | .node items => foldItems empty step items

def foldItems (empty : ε) (step : α → α → Except ε α) : List (Nested α) → Except ε α
  | [] => .error empty
  | item :: items => do
    let a ← item.value empty step
    foldFrom empty step a items

def foldFrom (empty : ε) (step : α → α → Except ε α) : α → List (Nested α) → Except ε α
  | a, [] => .ok a
  | a, item :: items => do
    let b ← item.value empty step
    let c ← step a b
    foldFrom empty step c items

end

mutual

def Nested.leaves : Nested α → List α
  | .leaf a => [a]
  | .node items => leavesOf items

def leavesOf : List (Nested α) → List α
  | [] => []
  | item :: items => item.leaves ++ leavesOf items

end

mutual

/-- Every inner list has an element. -/
def Nested.full : Nested α → Bool
  | .leaf _ => true
  | .node items => !items.isEmpty && allFull items

def allFull : List (Nested α) → Bool
  | [] => true
  | item :: items => item.full && allFull items

end

mutual

def Nested.map {β : Type} (f : α → β) : Nested α → Nested β
  | .leaf a => .leaf (f a)
  | .node items => .node (mapItems f items)

def mapItems {β : Type} (f : α → β) : List (Nested α) → List (Nested β)
  | [] => []
  | item :: items => item.map f :: mapItems f items

end

def total (op : α → α → α) : α → α → Except ε α := fun a b => .ok (op a b)

theorem nested_induction {P : Nested α → Prop} {Q : List (Nested α) → Prop}
    (leaf : ∀ a, P (.leaf a)) (node : ∀ items, Q items → P (.node items)) (nil : Q [])
    (cons : ∀ item items, P item → Q items → Q (item :: items)) : (∀ t, P t) ∧ ∀ items, Q items :=
  ⟨fun t => Nested.rec leaf node nil cons t, fun items => Nested.rec_1 leaf node nil cons items⟩

theorem leaves_map {β : Type} (f : α → β) :
    (∀ t : Nested α, (t.map f).leaves = t.leaves.map f) ∧
    ∀ items : List (Nested α), leavesOf (mapItems f items) = (leavesOf items).map f := by
  apply nested_induction
  · intro a
    rw [Nested.map, Nested.leaves, Nested.leaves, List.map_singleton]
  · intro items ih
    rw [Nested.map, Nested.leaves, Nested.leaves, ih]
  · rw [mapItems, leavesOf, leavesOf, List.map_nil]
  · intro item items ihi ih
    rw [mapItems, leavesOf, leavesOf, List.map_append, ihi, ih]

theorem full_map {β : Type} (f : α → β) :
    (∀ t : Nested α, (t.map f).full = t.full) ∧
    ∀ items : List (Nested α), allFull (mapItems f items) = allFull items ∧
      (mapItems f items).isEmpty = items.isEmpty := by
  apply nested_induction
  · intro a
    rw [Nested.map, Nested.full, Nested.full]
  · intro items ih
    rw [Nested.map, Nested.full, Nested.full, ih.1, ih.2]
  · exact ⟨by rw [mapItems, allFull, allFull], by rw [mapItems]; rfl⟩
  · intro item items ihi ih
    exact ⟨by rw [mapItems, allFull, allFull, ihi, ih.1], by rw [mapItems]; rfl⟩

section

variable {ε' : Type} {empty : ε} {empty' : ε'} {step : α → α → Except ε α}
  {step' : α → α → Except ε' α}

theorem fold_follows {I : α → Prop}
    (h : ∀ a b c, I a → I b → step a b = .ok c → step' a b = .ok c ∧ I c) :
    (∀ t : Nested α, (∀ a ∈ t.leaves, I a) → ∀ v, t.value empty step = .ok v →
      t.value empty' step' = .ok v ∧ I v) ∧
    ∀ items : List (Nested α), (∀ a ∈ leavesOf items, I a) →
      (∀ v, foldItems empty step items = .ok v → foldItems empty' step' items = .ok v ∧ I v) ∧
      ∀ a v, I a → foldFrom empty step a items = .ok v →
        foldFrom empty' step' a items = .ok v ∧ I v := by
  apply nested_induction
  · intro a ha v hv
    rw [Nested.value] at hv ⊢
    cases hv
    exact ⟨rfl, ha a (by simp [Nested.leaves])⟩
  · intro items ih hl v hv
    rw [Nested.value] at hv ⊢
    rw [Nested.leaves] at hl
    exact (ih hl).1 v hv
  · intro _
    refine ⟨fun v hv => ?_, fun a v ha hv => ?_⟩
    · rw [foldItems] at hv
      cases hv
    · rw [foldFrom] at hv ⊢
      cases hv
      exact ⟨rfl, ha⟩
  · intro item items ihi ih hl
    rw [leavesOf] at hl
    have hi := ihi fun a ha => hl a (List.mem_append_left _ ha)
    have hr := ih fun a ha => hl a (List.mem_append_right _ ha)
    refine ⟨fun v hv => ?_, fun a v ha hv => ?_⟩
    · rw [foldItems] at hv ⊢
      obtain ⟨b, hb, hv⟩ := except_bind_ok.mp hv
      rw [(hi b hb).1]
      exact hr.2 b v (hi b hb).2 hv
    · rw [foldFrom] at hv ⊢
      obtain ⟨b, hb, hv⟩ := except_bind_ok.mp hv
      obtain ⟨c, hc, hv⟩ := except_bind_ok.mp hv
      have hs := h a b c ha (hi b hb).2 hc
      rw [(hi b hb).1, except_ok_bind, hs.1]
      exact hr.2 c v hs.2 hv

variable {op : α → α → α} {items : List (Nested α)}

theorem foldItems_total {v : α}
    (h : foldItems empty (total op) items = .ok v) : foldItems empty' (total op) items = .ok v := by
  have hstep : ∀ a b c, True → True → (total op a b : Except ε α) = .ok c →
      (total op a b : Except ε' α) = .ok c ∧ True := by
    intro a b c _ _ hc
    cases hc
    exact ⟨rfl, trivial⟩
  exact (((fold_follows hstep).2 items fun _ _ => trivial).1 v h).1

theorem fold_fails {F : ε → Prop} (hempty : F empty)
    (h : ∀ a b e, step a b = .error e → F e) :
    (∀ t : Nested α, ∀ e, t.value empty step = .error e → F e) ∧
    ∀ items : List (Nested α), (∀ e, foldItems empty step items = .error e → F e) ∧
      ∀ a e, foldFrom empty step a items = .error e → F e := by
  apply nested_induction
  · intro a e he
    rw [Nested.value] at he
    cases he
  · intro items ih e he
    rw [Nested.value] at he
    exact ih.1 e he
  · refine ⟨fun e he => ?_, fun a e he => ?_⟩
    · rw [foldItems] at he
      cases he
      exact hempty
    · rw [foldFrom] at he
      cases he
  · intro item items ihi ih
    refine ⟨fun e he => ?_, fun a e he => ?_⟩
    · rw [foldItems] at he
      cases hi : item.value empty step with
      | error e' =>
        rw [hi] at he
        cases he
        exact ihi _ hi
      | ok b =>
        rw [hi] at he
        exact ih.2 b e he
    · rw [foldFrom] at he
      cases hi : item.value empty step with
      | error e' =>
        rw [hi] at he
        cases he
        exact ihi _ hi
      | ok b =>
        rw [hi, except_ok_bind] at he
        cases hs : step a b with
        | error e' =>
          rw [hs] at he
          cases he
          exact h a b _ hs
        | ok c =>
          rw [hs] at he
          exact ih.2 c e he

theorem full_of_fold :
    (∀ t : Nested α, ∀ v, t.value empty step = .ok v → t.full = true) ∧
    ∀ items : List (Nested α),
      (∀ v, foldItems empty step items = .ok v → items ≠ [] ∧ allFull items = true) ∧
      ∀ a v, foldFrom empty step a items = .ok v → allFull items = true := by
  apply nested_induction
  · intro a v _
    rw [Nested.full]
  · intro items ih v hv
    rw [Nested.value] at hv
    rw [Nested.full, (ih.1 v hv).2, List.isEmpty_eq_false_iff.mpr (ih.1 v hv).1]
    rfl
  · refine ⟨fun v hv => ?_, fun a v _ => by rw [allFull]⟩
    rw [foldItems] at hv
    cases hv
  · intro item items ihi ih
    refine ⟨fun v hv => ⟨List.cons_ne_nil _ _, ?_⟩, fun a v hv => ?_⟩
    · rw [foldItems] at hv
      obtain ⟨b, hb, hv⟩ := except_bind_ok.mp hv
      rw [allFull, ihi b hb, ih.2 b v hv, Bool.and_self]
    · rw [foldFrom] at hv
      obtain ⟨b, hb, hv⟩ := except_bind_ok.mp hv
      obtain ⟨c, -, hv⟩ := except_bind_ok.mp hv
      rw [allFull, ihi b hb, ih.2 c v hv, Bool.and_self]

theorem fold_reduce {op' : α → α → α} {f : α → α} (h : ∀ a b, op' (f a) (f b) = f (op a b)) :
    (∀ t : Nested α, (∀ a ∈ t.leaves, f a = a) →
      t.value empty (total op') = (t.value empty (total op)).map f) ∧
    ∀ items : List (Nested α), (∀ a ∈ leavesOf items, f a = a) →
      foldItems empty (total op') items = (foldItems empty (total op) items).map f ∧
      ∀ a, foldFrom empty (total op') (f a) items = (foldFrom empty (total op) a items).map f := by
  apply nested_induction
  · intro a ha
    rw [Nested.value, Nested.value, Except.map, ha a (by simp [Nested.leaves])]
  · intro items ih hl
    rw [Nested.leaves] at hl
    rw [Nested.value, Nested.value, (ih hl).1]
  · intro _
    refine ⟨?_, fun a => ?_⟩
    · rw [foldItems, foldItems, Except.map]
    · rw [foldFrom, foldFrom, Except.map]
  · intro item items ihi ih hl
    rw [leavesOf] at hl
    have hi := ihi fun a ha => hl a (List.mem_append_left _ ha)
    have hr := ih fun a ha => hl a (List.mem_append_right _ ha)
    refine ⟨?_, fun a => ?_⟩
    · rw [foldItems, foldItems, hi]
      cases item.value empty (total op) with
      | error e => rfl
      | ok b => exact hr.2 b
    · rw [foldFrom, foldFrom, hi]
      cases item.value empty (total op) with
      | error e => rfl
      | ok b =>
        simp only [Except.map, except_ok_bind, total, h]
        exact hr.2 (op a b)

theorem fold_leaves [Std.Associative op] :
    (∀ t : Nested α, t.full = true →
      ∃ a l, t.leaves = a :: l ∧ t.value empty (total op) = .ok (l.foldl op a)) ∧
    ∀ items : List (Nested α), allFull items = true →
      (items ≠ [] →
        ∃ a l, leavesOf items = a :: l ∧ foldItems empty (total op) items = .ok (l.foldl op a)) ∧
      ∀ a, foldFrom empty (total op) a items = .ok ((leavesOf items).foldl op a) := by
  apply nested_induction
  · intro a _
    exact ⟨a, [], by rw [Nested.leaves], by rw [Nested.value, List.foldl_nil]⟩
  · intro items ih hf
    rw [Nested.full, Bool.and_eq_true, Bool.not_eq_true', List.isEmpty_eq_false_iff] at hf
    rw [Nested.leaves, Nested.value]
    exact (ih hf.2).1 hf.1
  · intro _
    refine ⟨fun h => absurd rfl h, fun a => ?_⟩
    rw [foldFrom, leavesOf, List.foldl_nil]
  · intro item items ihi ih hf
    rw [allFull, Bool.and_eq_true] at hf
    obtain ⟨b, l, hl, hv⟩ := ihi hf.1
    have hr := (ih hf.2).2
    refine ⟨fun _ => ⟨b, l ++ leavesOf items, ?_, ?_⟩, fun a => ?_⟩
    · rw [leavesOf, hl, List.cons_append]
    · rw [foldItems, hv, except_ok_bind, hr, List.foldl_append]
    · have hassoc : l.foldl op (op a b) = op a (l.foldl op b) := List.foldl_assoc
      rw [foldFrom, hv, except_ok_bind, total, except_ok_bind, hr, leavesOf, hl,
        List.foldl_append, List.foldl_cons, hassoc]

theorem leavesOf_leaf (l : List α) : leavesOf (l.map Nested.leaf) = l := by
  induction l with
  | nil => rw [List.map_nil, leavesOf]
  | cons a l ih => rw [List.map_cons, leavesOf, Nested.leaves, ih, List.singleton_append]

theorem allFull_leaf (l : List α) : allFull (l.map Nested.leaf) = true := by
  induction l with
  | nil => rw [List.map_nil, allFull]
  | cons a l ih => rw [List.map_cons, allFull, Nested.full, ih, Bool.and_self]

theorem foldItems_leaves [Std.Associative op] (hne : items ≠ []) (hf : allFull items = true) :
    ∃ a l, leavesOf items = a :: l ∧ foldItems empty (total op) items = .ok (l.foldl op a) :=
  (fold_leaves.2 items hf).1 hne

theorem foldItems_flat [Std.Associative op] (hne : items ≠ []) (hf : allFull items = true) :
    foldItems empty (total op) items =
      foldItems empty (total op) ((leavesOf items).map Nested.leaf) := by
  obtain ⟨a, l, hl, hv⟩ : ∃ a l, leavesOf items = a :: l ∧
    foldItems empty (total op) items = .ok (l.foldl op a) := foldItems_leaves hne hf
  have hflat : (leavesOf items).map Nested.leaf ≠ [] := by simp [hl]
  obtain ⟨b, m, hm, hv'⟩ : ∃ b m, leavesOf ((leavesOf items).map Nested.leaf) = b :: m ∧
    foldItems empty (total op) ((leavesOf items).map Nested.leaf) = .ok (m.foldl op b) :=
      foldItems_leaves hflat (allFull_leaf _)
  rw [leavesOf_leaf, hl] at hm
  cases hm
  rw [hv, hv']

end

end NestedFolds
