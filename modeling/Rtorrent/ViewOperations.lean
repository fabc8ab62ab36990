import Rtorrent.ViewModel

/-! # What the operations do to the visible part of a view

Every operation but `filter` inserts one download into the visible part, takes one out of it or
sorts it. The focus is an index into that part or its end. -/
namespace ViewOperations

open ViewModel ViewModel.View

variable {α : Type*}

/-- The visible part with the index of the focus in it. -/
structure Window (α : Type*) where
  shown : List α
  focus : ℕ

namespace Window

def focused (w : Window α) : Option α := w.shown[w.focus]?

def insert (less : α → α → Bool) (w : Window α) (d : α) : Window α :=
  let pos := w.shown.findIdx (less d)
  ⟨w.shown.insertIdx pos d, w.focus + if pos ≤ w.focus then 1 else 0⟩

def erase (w : Window α) (pos : ℕ) : Window α :=
  ⟨w.shown.eraseIdx pos, w.focus - if pos < w.focus then 1 else 0⟩

theorem insert_focused (less : α → α → Bool) (w : Window α) (d : α) :
    (w.insert less d).focused = w.focused := by
  simp only [focused, insert]
  by_cases hp : w.shown.findIdx (less d) ≤ w.focus
  · rw [if_pos hp, List.getElem?_insertIdx_of_gt (Nat.lt_succ_of_le hp)]
    rfl
  · rw [if_neg hp, Nat.add_zero, List.getElem?_insertIdx_of_lt (Nat.lt_of_not_le hp)]

theorem erase_focused {w : Window α} {pos : ℕ}
    (h : ∀ d, w.shown[pos]? = some d → w.focused ≠ some d) : (w.erase pos).focused = w.focused := by
  simp only [focused, erase] at h ⊢
  rcases Nat.lt_trichotomy pos w.focus with hp | rfl | hp
  · rw [if_pos hp, List.getElem?_eraseIdx_of_ge (by omega), Nat.sub_add_cancel (by omega)]
  · have hn : w.shown[w.focus]? = none := by
      rw [Option.eq_none_iff_forall_ne_some]
      intro d hd
      exact h d hd hd
    rw [if_neg (Nat.lt_irrefl _), Nat.sub_zero,
      List.eraseIdx_of_length_le (List.getElem?_eq_none_iff.mp hn)]
  · rw [if_neg (by omega), Nat.sub_zero, List.getElem?_eraseIdx_of_lt hp]

end Window

def window (v : View α) : Window α := ⟨v.visible, v.focus⟩

variable {v : View α}

theorem window_insert (h : v.Valid) (d : α) : window (v.insert d) = window v := by
  have hv : (v.insert d).visible = v.visible := List.take_append_of_le_length h.size_le
  rw [window, hv]
  rfl

theorem window_insertVisible (h : v.Valid) (less : α → α → Bool) (d : α) :
    window (v.insertVisible less d) = (window v).insert less d := by
  rw [window, visible_insertVisible h]
  rfl

theorem window_eraseInternal (h : v.Valid) (pos : ℕ) :
    window (v.eraseInternal pos) = (window v).erase pos := by
  have hv : (v.eraseInternal pos).visible = v.visible.eraseIdx pos := by
    by_cases hp : pos < v.size
    · have ht := take_eraseIdx (t := []) hp h.size_le
      rw [List.append_nil] at ht
      simp only [visible, eraseInternal, hp, ↓reduceIte, ht]
    · have hl : v.visible.length ≤ pos := by
        rw [length_visible h]
        omega
      rw [List.eraseIdx_of_length_le hl]
      simp only [visible, eraseInternal, hp, ↓reduceIte, Nat.sub_zero]
      exact List.take_eraseIdx_eq_take_of_le _ _ _ (by omega)
  rw [window, hv]
  rfl

theorem erase_other_focused {d : α} {pos : ℕ} (hp : v.entries[pos]? = some d)
    (hd : (window v).focused ≠ some d) : ((window v).erase pos).focused = (window v).focused := by
  apply Window.erase_focused
  intro d' hd'
  have he : v.entries[pos]? = some d' := by
    change (v.entries.take v.size)[pos]? = some d' at hd'
    rw [List.getElem?_take] at hd'
    split at hd'
    · exact hd'
    · cases hd'
  rw [hp] at he
  cases he
  exact hd

section Find

variable [DecidableEq α] {v : View α}

theorem window_setVisible (h : v.Valid) (less : α → α → Bool) (d : α) :
    window (v.setVisible less d).1 =
      if d ∈ v.filtered then (window v).insert less d else window v := by
  rw [setVisible]
  split
  · rename_i hd
    have hp := (List.getElem?_eq_some_iff.mp (getElem?_filtered hd)).1
    rw [window_insertVisible (eraseFiltered_valid h hp (Nat.le_add_right _ _))]
    have hv : ({ v with entries := v.entries.eraseIdx (v.size + v.filtered.idxOf d) } :
        View α).visible = v.visible :=
      List.take_eraseIdx_eq_take_of_le _ _ _ (Nat.le_add_right _ _)
    rw [window, hv]
    rfl
  · rfl

theorem window_setNotVisible (h : v.Valid) (d : α) :
    window (v.setNotVisible d).1 =
      if d ∈ v.visible then (window v).erase (v.visible.idxOf d) else window v := by
  rw [setNotVisible]
  split
  · rename_i hd
    have hv := take_eraseIdx (t := [d]) (getElem?_visible hd).1 h.size_le
    rw [window, visible, hv]
    rfl
  · rfl

theorem visible_sort (h : v.Valid) (less : α → α → Bool) :
    (v.sort less).visible = v.visible.mergeSort fun a b => !less b a := by
  have hl : (v.visible.mergeSort fun a b => !less b a).length = v.size := by
    rw [List.length_mergeSort, length_visible h]
  rw [visible, sort, ← hl]
  exact List.take_left

theorem sort_focused (h : v.Valid) (less : α → α → Bool) :
    (window (v.sort less)).focused = (window v).focused := by
  have hl := length_visible h
  simp only [Window.focused, window, visible_sort h]
  by_cases hf : v.focus = v.size
  · have hn : v.visible[v.focus]? = none := by
      rw [List.getElem?_eq_none_iff]
      omega
    have hs : (v.sort less).focus = v.size := if_pos hf
    rw [hn, hs, List.getElem?_eq_none_iff, List.length_mergeSort]
    omega
  · have hlt : v.focus < v.size := Nat.lt_of_le_of_ne h.focus_le hf
    obtain ⟨d, hd⟩ : ∃ d, v.visible[v.focus]? = some d :=
      Option.isSome_iff_exists.mp (by simpa [hl] using hlt)
    have he : v.entries[v.focus]? = some d := by
      rw [← hd]
      exact (List.getElem?_take_of_lt hlt).symm
    have hs : (v.sort less).focus = (v.visible.mergeSort fun a b => !less b a).idxOf d := by
      simp only [sort, hf, ↓reduceIte, he]
    rw [hs, hd]
    exact getElem?_idxOf (List.mem_mergeSort.mpr (List.mem_of_getElem? hd))

inductive Operation (α : Type*) where
  | insert (d : α)
  | erase (d : α)
  | setVisible (d : α)
  | setNotVisible (d : α)
  | filterDownload (passes : α → Bool) (d : α)
  | sort

def Operation.download : Operation α → Option α
  | .insert d | .erase d | .setVisible d | .setNotVisible d | .filterDownload _ d => some d
  | .sort => none

/-- The view after an operation; one that throws leaves it as it was. -/
def perform (sortNew sortCurrent : α → α → Bool) (v : View α) : Operation α → View α
  | .insert d => v.insert d
  | .erase d =>
    match v.erase d with
    | .ok r => r.1
    | .error _ => v
  | .setVisible d => (v.setVisible sortNew d).1
  | .setNotVisible d => (v.setNotVisible d).1
  | .filterDownload passes d =>
    match v.filterDownload passes sortNew d with
    | .ok r => r.1
    | .error _ => v
  | .sort => v.sort sortCurrent

variable {sortNew sortCurrent : α → α → Bool} {v : View α}

theorem perform_valid (h : v.Valid) (op : Operation α) :
    (perform sortNew sortCurrent v op).Valid := by
  cases op with
  | insert d => exact insert_valid h d
  | erase d =>
    rw [perform]
    by_cases hd : d ∈ v.entries
    · obtain ⟨w, es, he, hw, -⟩ := erase_spec h hd
      rw [he]
      exact hw
    · have he : v.erase d = .error "View::erase_visible(...) iterator out of range." := by
        simp [View.erase, List.idxOf_eq_length hd, h.size_le]
      rw [he]
      exact h
  | setVisible d => exact setVisible_valid h sortNew d
  | setNotVisible d => exact setNotVisible_valid h d
  | filterDownload passes d =>
    rw [perform]
    cases hf : v.filterDownload passes sortNew d with
    | error e => exact h
    | ok r => exact (filterDownload_spec h hf).1
  | sort => exact sort_valid h sortCurrent

/-- The window stays, the download is taken out of the vector, put into the visible part or both,
or the visible part is sorted. -/
inductive Effect (sortNew sortCurrent : α → α → Bool) (v : View α) :
    Operation α → Window α → Prop
  | kept {op : Operation α} : Effect sortNew sortCurrent v op (window v)
  | erased {op : Operation α} {d : α} {pos : ℕ} (hd : op.download = some d)
    (hp : v.entries[pos]? = some d) : Effect sortNew sortCurrent v op ((window v).erase pos)
  | shown {op : Operation α} {d : α} (hd : op.download = some d) :
    Effect sortNew sortCurrent v op ((window v).insert sortNew d)
  | moved {op : Operation α} {d : α} {pos : ℕ} (hd : op.download = some d)
    (hp : v.entries[pos]? = some d) :
    Effect sortNew sortCurrent v op (((window v).erase pos).insert sortNew d)
  | sorted : Effect sortNew sortCurrent v .sort (window (v.sort sortCurrent))

theorem erase_effect (h : v.Valid) (d : α) :
    Effect sortNew sortCurrent v (.erase d)
      (window (perform sortNew sortCurrent v (.erase d))) := by
  rw [perform, View.erase]
  by_cases hd : d ∈ v.entries
  · have hp := Nat.ne_of_lt (List.idxOf_lt_length_of_mem hd)
    have he : Effect sortNew sortCurrent v (.erase d)
        (window (v.eraseInternal (v.entries.idxOf d))) := by
      rw [window_eraseInternal h]
      exact .erased rfl (getElem?_idxOf hd)
    by_cases hs : v.size ≤ v.entries.idxOf d
    · simpa only [hp, hs, ↓reduceIte] using he
    · simpa only [hs, ↓reduceIte] using he
  · simp only [List.idxOf_eq_length hd, h.size_le, ↓reduceIte]
    exact .kept

theorem filterDownload_effect (h : v.Valid) (passes : α → Bool) (d : α) :
    Effect sortNew sortCurrent v (.filterDownload passes d)
      (window (perform sortNew sortCurrent v (.filterDownload passes d))) := by
  rw [perform, View.filterDownload]
  by_cases hd : d ∈ v.entries
  · have hlt := List.idxOf_lt_length_of_mem hd
    have hv := eraseInternal_valid h hlt
    simp only [Nat.ne_of_lt hlt, ↓reduceIte]
    by_cases hp : passes d = true
    · simp only [hp, ↓reduceIte]
      rw [window_insertVisible hv, window_eraseInternal h]
      exact .moved rfl (getElem?_idxOf hd)
    · simp only [hp, Bool.false_eq_true, ↓reduceIte]
      by_cases hs : v.size ≤ v.entries.idxOf d
      · simp only [hs, ↓reduceIte]
        exact .kept
      · have hw : window ({ v.eraseInternal (v.entries.idxOf d) with
            entries := (v.eraseInternal (v.entries.idxOf d)).entries ++ [d] } : View α) =
            (window v).erase (v.entries.idxOf d) :=
          (window_insert hv d).trans (window_eraseInternal h _)
        simp only [hs, ↓reduceIte]
        rw [hw]
        exact .erased rfl (getElem?_idxOf hd)
  · simp only [List.idxOf_eq_length hd, ↓reduceIte]
    exact .kept

theorem perform_effect (h : v.Valid) (op : Operation α) :
    Effect sortNew sortCurrent v op (window (perform sortNew sortCurrent v op)) := by
  cases op with
  | insert d =>
    rw [perform, window_insert h]
    exact .kept
  | erase d => exact erase_effect h d
  | setVisible d =>
    rw [perform, window_setVisible h]
    split
    · exact .shown rfl
    · exact .kept
  | setNotVisible d =>
    rw [perform, window_setNotVisible h]
    split
    · rename_i hd
      exact .erased rfl (getElem?_visible hd).2
    · exact .kept
  | filterDownload passes d => exact filterDownload_effect h passes d
  | sort => exact .sorted

/-- An operation on another download, or a sort, leaves the focus on its download, or on
none. -/
theorem perform_focused (sortNew sortCurrent : α → α → Bool) {v : View α} (h : v.Valid)
    {op : Operation α} (hd : ∀ d, op.download = some d → (window v).focused ≠ some d) :
    (window (perform sortNew sortCurrent v op)).focused = (window v).focused := by
  have he : Effect sortNew sortCurrent v op _ := perform_effect h op
  generalize window (perform sortNew sortCurrent v op) = w at he
  cases he with
  | kept => rfl
  | erased hop hp => exact erase_other_focused hp (hd _ hop)
  | shown hop => exact Window.insert_focused _ _ _
  | moved hop hp =>
    rw [Window.insert_focused]
    exact erase_other_focused hp (hd _ hop)
  | sorted => exact sort_focused h sortCurrent

end Find

def secondFocused : View ℕ := ⟨"main", [1, 3, 5, 2], 3, 1, false, false⟩

theorem perform_focused_second :
    (window (perform (· < ·) (· < ·) secondFocused (.setVisible 2))).focused = some 3 :=
  perform_focused _ _ ⟨by decide, by decide⟩ (by
    intro d hd
    cases hd
    decide)

/-- No download is before one that is less than it. -/
def Sorted (less : α → α → Bool) (l : List α) : Prop := l.Pairwise fun a b => less b a = false

def Equivalent (less : α → α → Bool) (a b : α) : Prop := less a b = false ∧ less b a = false

theorem insertIdx_findIdx (p : α → Bool) (d : α) (l : List α) :
    ∃ before after, l = before ++ after ∧ l.insertIdx (l.findIdx p) d = before ++ d :: after ∧
      (∀ e ∈ before, p e = false) ∧ ∀ e ∈ after.head?, p e = true := by
  induction l with
  | nil => exact ⟨[], [], rfl, rfl, by simp, by simp⟩
  | cons x l ih =>
    by_cases hx : p x = true
    · exact ⟨[], x :: l, rfl, by simp [List.findIdx_cons, hx], by simp, by simpa using hx⟩
    · obtain ⟨before, after, rfl, hi, hb, ha⟩ := ih
      refine ⟨x :: before, after, rfl, ?_, ?_, ha⟩
      · rw [List.findIdx_cons, Bool.of_not_eq_true hx, cond_false, List.insertIdx_succ_cons, hi]
        rfl
      · rw [List.forall_mem_cons]
        exact ⟨Bool.of_not_eq_true hx, hb⟩

section Order

variable {less : α → α → Bool} (hw : IsStrictWeakOrder α fun a b => less a b = true)

include hw

theorem less_asymm {a b : α} (h : less a b = true) : less b a = false := by
  rw [Bool.eq_false_iff]
  intro hb
  exact hw.irrefl a (hw.trans a b a h hb)

theorem not_less_trans {a b c : α} (hb : less b a = false) (hc : less c b = false) :
    less c a = false := by
  rw [Bool.eq_false_iff] at hb hc ⊢
  intro hca
  have hab : ¬less a b = true := fun hab => hc (hw.trans c a b hca hab)
  have hbc : ¬less b c = true := fun hbc => hb (hw.trans b c a hbc hca)
  exact (hw.incomp_trans a b c ⟨hab, hb⟩ ⟨hbc, hc⟩).2 hca

theorem insert_place {l : List α} (hs : Sorted less l) (d : α) :
    ∃ before after, l = before ++ after ∧
      l.insertIdx (l.findIdx (less d)) d = before ++ d :: after ∧
      (∀ e ∈ before, less d e = false) ∧ ∀ e ∈ after, less d e = true := by
  obtain ⟨before, after, rfl, hi, hb, ha⟩ := insertIdx_findIdx (less d) d l
  refine ⟨before, after, rfl, hi, hb, ?_⟩
  cases after with
  | nil => simp
  | cons x after =>
    have hx : less d x = true := ha x rfl
    have hx' := (List.pairwise_cons.mp (List.pairwise_append.mp hs).2.1).1
    rw [List.forall_mem_cons]
    refine ⟨hx, ?_⟩
    intro e he
    by_contra hd
    rw [not_less_trans hw (hx' e he) (Bool.of_not_eq_true hd)] at hx
    cases hx

theorem insert_sorted {w : Window α} (hs : Sorted less w.shown) (d : α) :
    Sorted less (w.insert less d).shown := by
  obtain ⟨before, after, hl, hi, hb, ha⟩ := insert_place hw hs d
  rw [hl] at hs
  obtain ⟨h1, h2, h3⟩ := List.pairwise_append.mp hs
  change Sorted less (w.shown.insertIdx (w.shown.findIdx (less d)) d)
  rw [hi, Sorted, List.pairwise_append, List.pairwise_cons]
  refine ⟨h1, ⟨fun e he => less_asymm hw (ha e he), h2⟩, ?_⟩
  intro e he f hf
  rcases List.mem_cons.mp hf with rfl | hf
  · exact hb e he
  · exact h3 e he f hf

theorem mergeSort_sorted (l : List α) : Sorted less (l.mergeSort fun a b => !less b a) := by
  have ht : ∀ a b c : α, (!less b a) = true → (!less c b) = true → (!less c a) = true := by
    intro a b c
    simpa using not_less_trans hw
  have htotal : ∀ a b : α, ((!less b a) || (!less a b)) = true := by
    intro a b
    cases hb : less b a with
    | false => rfl
    | true => simp [less_asymm hw hb]
  simpa [Sorted] using List.pairwise_mergeSort ht htotal l

end Order

variable {less : α → α → Bool} {w : Window α}

theorem erase_sorted (hs : Sorted less w.shown) (pos : ℕ) : Sorted less (w.erase pos).shown :=
  hs.sublist (List.eraseIdx_sublist _ _)

/-- The download has no equivalent one behind it. -/
def LastOfItsKind (less : α → α → Bool) (l : List α) (d : α) : Prop :=
  ∃ before after, l = before ++ d :: after ∧ ∀ e ∈ after, ¬Equivalent less d e

theorem insert_last (hw : IsStrictWeakOrder α fun a b => less a b = true)
    (hs : Sorted less w.shown) (d : α) :
    LastOfItsKind less (w.insert less d).shown d := by
  obtain ⟨before, after, -, hi, -, ha⟩ := insert_place hw hs d
  refine ⟨before, after, hi, ?_⟩
  intro e he hq
  rw [Equivalent, ha e he] at hq
  cases hq.1

theorem mem_insert_shown {d x : α} (hx : x ∈ (w.insert less d).shown) : x = d ∨ x ∈ w.shown :=
  List.eq_or_mem_of_mem_insertIdx hx

section Find

variable [DecidableEq α]

theorem perform_sorted {less : α → α → Bool}
    (hw : IsStrictWeakOrder α fun a b => less a b = true) {v : View α} (h : v.Valid)
    (hs : Sorted less v.visible) (op : Operation α) :
    Sorted less (perform less less v op).visible ∧
      ∀ d ∉ v.visible, d ∈ (perform less less v op).visible →
        LastOfItsKind less (perform less less v op).visible d := by
  have he : Effect less less v op _ := perform_effect h op
  change Sorted less (window (perform less less v op)).shown ∧
    ∀ d ∉ v.visible, d ∈ (window (perform less less v op)).shown →
      LastOfItsKind less (window (perform less less v op)).shown d
  generalize window (perform less less v op) = w at he
  have hs : Sorted less (window v).shown := hs
  cases he with
  | kept => exact ⟨hs, fun d hn hd => absurd hd hn⟩
  | erased hop hp =>
    exact ⟨erase_sorted hs _, fun d hn hd => absurd (List.mem_of_mem_eraseIdx hd) hn⟩
  | shown hop =>
    refine ⟨insert_sorted hw hs _, fun d hn hd => ?_⟩
    rcases mem_insert_shown hd with rfl | hd
    · exact insert_last hw hs _
    · exact absurd hd hn
  | moved hop hp =>
    refine ⟨insert_sorted hw (erase_sorted hs _) _, fun d hn hd => ?_⟩
    rcases mem_insert_shown hd with rfl | hd
    · exact insert_last hw (erase_sorted hs _) _
    · exact absurd (List.mem_of_mem_eraseIdx hd) hn
  | sorted =>
    change Sorted less (v.sort less).visible ∧ ∀ d ∉ v.visible, d ∈ (v.sort less).visible → _
    rw [visible_sort h]
    exact ⟨mergeSort_sorted hw _, fun d hn hd => absurd (List.mem_mergeSort.mp hd) hn⟩

def performAll (less : α → α → Bool) (v : View α) (ops : List (Operation α)) : View α :=
  ops.foldl (perform less less) v

theorem performAll_invariant {less : α → α → Bool}
    (hw : IsStrictWeakOrder α fun a b => less a b = true) (ops : List (Operation α)) :
    ∀ {v : View α}, v.Valid → Sorted less v.visible →
      (performAll less v ops).Valid ∧ Sorted less (performAll less v ops).visible := by
  induction ops with
  | nil => exact fun h hs => ⟨h, hs⟩
  | cons op ops ih =>
    intro v h hs
    exact ih (perform_valid h op) (perform_sorted hw h hs op).1

/-- A sorted visible part stays sorted along every run, and a new download comes behind those that
are equivalent to it. -/
theorem performAll_sorted {less : α → α → Bool}
    (hw : IsStrictWeakOrder α fun a b => less a b = true) {v : View α} (h : v.Valid)
    (hs : Sorted less v.visible) (ops : List (Operation α)) :
    Sorted less (performAll less v ops).visible ∧
    ∀ earlier op later, ops = earlier ++ op :: later →
      ∀ d ∉ (performAll less v earlier).visible,
        d ∈ (performAll less v (earlier ++ [op])).visible →
        LastOfItsKind less (performAll less v (earlier ++ [op])).visible d := by
  refine ⟨(performAll_invariant hw ops h hs).2, ?_⟩
  rintro earlier op later rfl d hn hd
  obtain ⟨hv, hv'⟩ := performAll_invariant hw earlier h hs
  have hstep : performAll less v (earlier ++ [op]) =
      perform less less (performAll less v earlier) op := by
    rw [performAll, List.foldl_append]
    rfl
  rw [hstep] at hd ⊢
  exact (perform_sorted hw hv hv' op).2 d hn hd

end Find

def lower (a b : ℕ × ℕ) : Bool := a.1 < b.1

theorem lower_weak : IsStrictWeakOrder (ℕ × ℕ) fun a b => lower a b = true where
  irrefl a := by simp [lower]
  trans a b c := by simpa [lower] using Nat.lt_trans
  incomp_trans a b c := by
    simp only [lower, decide_eq_true_eq]
    omega

def twoPriorities : View (ℕ × ℕ) :=
  ⟨"main", [(1, 0), (2, 0), (1, 1)], 2, 0, false, false⟩

theorem performAll_sorted_priorities :
    Sorted lower (performAll lower twoPriorities [.setVisible (1, 1), .sort]).visible :=
  (performAll_sorted lower_weak ⟨by decide, by decide⟩
    (by simp [Sorted, twoPriorities, visible, lower]) [.setVisible (1, 1), .sort]).1

end ViewOperations
