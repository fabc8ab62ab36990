import Rtorrent.ViewModel

/-! # The events of a filter pass

`View::filter` should run the removed command on the downloads that leave the visible part
and the added command on those that enter it. -/
namespace ViewFilterEvents

open ViewModel

variable {α : Type*}

def leaves (passes : α → Bool) (v : View α) : List α := v.visible.filter (!passes ·)

variable {passes : α → Bool} {v : View α}

theorem filter_events (hn : v.name ≠ "started" ∧ v.name ≠ "stopped") :
    (v.filter passes).2 =
      (if v.hasEventRemoved then (leaves passes v).map (EventKind.removed, ·) else []) ++
        if v.hasEventAdded then (leaves passes v).map (EventKind.added, ·) else [] := by
  simp [View.filter, hn, leaves]

theorem not_filtered_of_visible (h : v.entries.Nodup) {d : α} (hd : d ∈ v.visible) :
    d ∉ v.filtered :=
  List.disjoint_take_drop h (Nat.le_refl _) hd

variable [DecidableEq α]

def runs (passes : α → Bool) (v : View α) (kind : EventKind) (d : α) : ℕ :=
  (v.filter passes).2.count (kind, d)

/-- Each command that is not empty runs once on every download that changed to its side, and
on no other. -/
structure RunsOnce (passes : α → Bool) (v : View α) : Prop where
  removed : v.hasEventRemoved = true → ∀ d, runs passes v .removed d =
    if d ∈ v.visible ∧ passes d = false then 1 else 0
  added : v.hasEventAdded = true → ∀ d, runs passes v .added d =
    if d ∈ v.filtered ∧ passes d = true then 1 else 0

theorem count_map_kind (l : List α) (k k' : EventKind) (d : α) :
    (l.map (k, ·)).count (k', d) = if k = k' then l.count d else 0 := by
  induction l with
  | nil => simp
  | cons a l ih =>
    rw [List.map_cons, List.count_cons, ih, List.count_cons]
    by_cases hk : k = k'
    · simp [hk]
    · simp [hk]

theorem runs_removed (hn : v.name ≠ "started" ∧ v.name ≠ "stopped") (d : α) :
    runs passes v .removed d = if v.hasEventRemoved then (leaves passes v).count d else 0 := by
  rw [runs, filter_events hn]
  cases v.hasEventRemoved <;> cases v.hasEventAdded <;> simp [count_map_kind]

theorem runs_added (hn : v.name ≠ "started" ∧ v.name ≠ "stopped") (d : α) :
    runs passes v .added d = if v.hasEventAdded then (leaves passes v).count d else 0 := by
  rw [runs, filter_events hn]
  cases v.hasEventRemoved <;> cases v.hasEventAdded <;> simp [count_map_kind]

theorem count_leaves (h : v.entries.Nodup) (d : α) :
    (leaves passes v).count d = if d ∈ v.visible ∧ passes d = false then 1 else 0 := by
  have hl : (leaves passes v).Nodup := (h.sublist (List.take_sublist _ _)).filter _
  rw [hl.count]
  simp [leaves]

/-- A filter pass runs its events as it should exactly if there is no added command or no
download changes sides. -/
theorem filter_runsOnce_iff {passes : α → Bool} {v : View α} (h : v.entries.Nodup)
    (hn : v.name ≠ "started" ∧ v.name ≠ "stopped") :
    RunsOnce passes v ↔ v.hasEventAdded = false ∨
      ((∀ d ∈ v.visible, passes d = true) ∧ ∀ d ∈ v.filtered, passes d = false) := by
  constructor
  · intro hr
    cases ha : v.hasEventAdded with
    | false => exact .inl rfl
    | true =>
      have he : ∀ d, (if d ∈ v.visible ∧ passes d = false then 1 else 0) =
          if d ∈ v.filtered ∧ passes d = true then 1 else 0 := by
        intro d
        rw [← count_leaves h, ← hr.added ha d, runs_added hn, if_pos ha]
      right
      constructor
      · intro d hd
        have hf := not_filtered_of_visible h hd
        simpa [hd, hf] using he d
      · intro d hd
        have hv : d ∉ v.visible := fun hv => not_filtered_of_visible h hv hd
        simpa [hd, hv] using he d
  · intro hc
    constructor
    · intro hr d
      rw [runs_removed hn, if_pos hr, count_leaves h]
    · intro ha d
      obtain ⟨hv, hf⟩ := hc.resolve_left (by simp [ha])
      rw [runs_added hn, if_pos ha, count_leaves h]
      by_cases hd : d ∈ v.visible
      · simp [hv d hd, not_filtered_of_visible h hd]
      · by_cases hd' : d ∈ v.filtered
        · simp [hd, hf d hd']
        · simp [hd, hd']

def oneShown : View ℕ := ⟨"main", [0, 1], 1, 0, true, true⟩

/-- Without an added command the two may change sides. -/
theorem oneShown_leaving_runsOnce :
    runs (· = 1) { oneShown with hasEventAdded := false } .removed 0 = 1 ∧
      RunsOnce (· = 1) { oneShown with hasEventAdded := false } :=
  ⟨by decide, (filter_runsOnce_iff (by decide) (by decide)).mpr (.inl rfl)⟩

/-- When the two change sides the added command runs on the download that left. -/
theorem oneShown_added_on_leaving :
    runs (· = 1) oneShown .added 0 = 1 ∧ runs (· = 1) oneShown .added 1 = 0 ∧
      ¬ RunsOnce (· = 1) oneShown := by
  refine ⟨by decide, by decide, ?_⟩
  intro h
  have := h.added rfl 1
  revert this
  decide

end ViewFilterEvents
