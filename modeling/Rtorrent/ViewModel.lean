import Mathlib.Algebra.Group.Nat.Defs
import Mathlib.Data.List.Perm.Basic

/-! # Views of the download list

A view keeps every download in one vector, whose first `size` are visible. Each mutator returns
the view and the events it triggers, in order. The result of a filter or sort command is an
argument. -/
namespace ViewModel

variable {α : Type*}

inductive EventKind where
  | added
  | removed
  deriving DecidableEq, Repr

/-- `hasEventAdded` and `hasEventRemoved` say that the event command is not empty. -/
structure View (α : Type*) where
  name : String
  entries : List α
  size : ℕ
  focus : ℕ
  hasEventAdded : Bool
  hasEventRemoved : Bool
  deriving DecidableEq, Repr

namespace View

def visible (v : View α) : List α := v.entries.take v.size
def filtered (v : View α) : List α := v.entries.drop v.size

/-- A view made by `ViewManager::insert` shows every download. -/
def initialized (name : String) (downloads : List α) : View α :=
  { name := name, entries := downloads, size := downloads.length, focus := 0
    hasEventAdded := false, hasEventRemoved := false }

def insert (v : View α) (d : α) : View α := { v with entries := v.entries ++ [d] }

/-- `less d e` is the outcome of the sort command for new downloads. -/
def insertVisible (less : α → α → Bool) (v : View α) (d : α) : View α :=
  let pos := v.visible.findIdx (less d)
  { v with
    entries := v.entries.insertIdx pos d
    size := v.size + 1
    focus := v.focus + if pos ≤ v.focus then 1 else 0 }

def eraseInternal (v : View α) (pos : ℕ) : View α :=
  { v with
    entries := v.entries.eraseIdx pos
    size := v.size - if pos < v.size then 1 else 0
    focus := v.focus - if pos < v.focus then 1 else 0 }

/-- One less than a `size_type`, which wraps below zero. -/
def sizePred (n : ℕ) : ℕ := (n + 2 ^ 64 - 1) % 2 ^ 64

/-- `empty()` asks for the whole vector and `size()` for its visible part. -/
def nextFocus (v : View α) (i : ℕ) : View α :=
  if v.entries.isEmpty then v
  else if v.focus = sizePred v.size then { v with focus := v.size }
  else
    let focus := if v.focus = v.size then (i + 2 ^ 32 - 1) % 2 ^ 32 else (v.focus + i) % 2 ^ 64
    { v with focus := if sizePred v.size < focus then sizePred v.size else focus }

def prevFocus (v : View α) (i : ℕ) : View α :=
  if v.entries.isEmpty then v
  else if v.focus = v.size then { v with focus := sizePred v.size }
  else
    let focus := (v.focus + 2 ^ 64 - i) % 2 ^ 64
    { v with focus := if v.size < focus then v.size else focus }

def setFocus (v : View α) (pos : ℕ) : View α := { v with focus := pos }

/-- `changed` holds the downloads that leave the visible part and then those that enter
it; both event loops run over the part before `splitChanged`. -/
def filter (passes : α → Bool) (v : View α) : View α × List (EventKind × α) :=
  if v.name = "started" ∨ v.name = "stopped" then (v, [])
  else
    let stays := v.visible.filter passes
    let leaves := v.visible.filter (!passes ·)
    let changed := leaves ++ v.filtered.filter passes
    let splitChanged := leaves.length
    let size := (stays ++ changed.drop splitChanged).length
    ({ v with
      entries := stays ++ changed.drop splitChanged ++ changed.take splitChanged ++
        v.filtered.filter (!passes ·)
      size := size
      focus := min v.focus size },
      (if v.hasEventRemoved then (changed.take splitChanged).map (EventKind.removed, ·) else []) ++
        if v.hasEventAdded then (changed.take splitChanged).map (EventKind.added, ·) else [])

section Find

variable [DecidableEq α]

def erase (v : View α) (d : α) : Except String (View α × List (EventKind × α)) :=
  let pos := v.entries.idxOf d
  if v.size ≤ pos then
    if pos = v.entries.length then .error "View::erase_visible(...) iterator out of range."
    else .ok (v.eraseInternal pos, [])
  else .ok (v.eraseInternal pos, [(.removed, d)])

def setVisible (less : α → α → Bool) (v : View α) (d : α) : View α × List (EventKind × α) :=
  if d ∈ v.filtered then
    let pos := v.size + v.filtered.idxOf d
    ({ v with entries := v.entries.eraseIdx pos }.insertVisible less d, [(.added, d)])
  else (v, [])

def setNotVisible (v : View α) (d : α) : View α × List (EventKind × α) :=
  if d ∈ v.visible then
    let pos := v.visible.idxOf d
    ({ v with
      entries := v.entries.eraseIdx pos ++ [d]
      size := v.size - 1
      focus := v.focus - if pos < v.focus then 1 else 0 }, [(.removed, d)])
  else (v, [])

/-- The focus stays on its download, or at the end if it was there. -/
def sort (less : α → α → Bool) (v : View α) : View α :=
  let sorted := v.visible.mergeSort fun a b => !less b a
  { v with
    entries := sorted ++ v.filtered
    focus := if v.focus = v.size then v.size
      else match v.entries[v.focus]? with
        | some d => sorted.idxOf d
        | none => v.size }

def filterDownload (passes : α → Bool) (less : α → α → Bool) (v : View α) (d : α) :
    Except String (View α × List (EventKind × α)) :=
  let pos := v.entries.idxOf d
  if pos = v.entries.length then
    .error "View::filter_download(...) could not find download."
  else if passes d then
    .ok ((v.eraseInternal pos).insertVisible less d, if v.size ≤ pos then [(.added, d)] else [])
  else if v.size ≤ pos then .ok (v, [])
  else
    let w := v.eraseInternal pos
    .ok ({ w with entries := w.entries ++ [d] }, [(.removed, d)])

end Find

structure Valid (v : View α) : Prop where
  size_le : v.size ≤ v.entries.length
  focus_le : v.focus ≤ v.size

theorem initialized_valid (name : String) (downloads : List α) :
    (initialized name downloads).Valid :=
  ⟨Nat.le_refl _, Nat.zero_le _⟩

variable {v : View α}

theorem insert_valid (h : v.Valid) (d : α) : (v.insert d).Valid :=
  ⟨by simpa [insert] using Nat.le_succ_of_le h.size_le, h.focus_le⟩

theorem length_visible (h : v.Valid) : v.visible.length = v.size := by
  rw [visible, List.length_take, Nat.min_eq_left h.size_le]

theorem findIdx_visible_le (h : v.Valid) (p : α → Bool) : v.visible.findIdx p ≤ v.size :=
  length_visible h ▸ List.findIdx_le_length

theorem insertVisible_valid (h : v.Valid) (less : α → α → Bool) (d : α) :
    (v.insertVisible less d).Valid := by
  have hp := findIdx_visible_le h (less d)
  rcases h with ⟨hs, hf⟩
  constructor
  · simp only [insertVisible, List.length_insertIdx]
    split <;> omega
  · simp only [insertVisible]
    split <;> omega

theorem insertVisible_perm (h : v.Valid) (less : α → α → Bool) (d : α) :
    (v.insertVisible less d).entries.Perm (d :: v.entries) :=
  List.perm_insertIdx d v.entries (Nat.le_trans (findIdx_visible_le h (less d)) h.size_le)

theorem eraseInternal_valid (h : v.Valid) {pos : ℕ} (hp : pos < v.entries.length) :
    (v.eraseInternal pos).Valid := by
  rcases h with ⟨hs, hf⟩
  constructor
  · simp only [eraseInternal, List.length_eraseIdx, hp, ↓reduceIte]
    split <;> omega
  · simp only [eraseInternal]
    split <;> split <;> omega

theorem eraseIdx_perm {l : List α} {pos : ℕ} {d : α} (h : l[pos]? = some d) :
    (d :: l.eraseIdx pos).Perm l := by
  obtain ⟨hp, rfl⟩ := List.getElem?_eq_some_iff.mp h
  exact List.getElem_cons_eraseIdx_perm hp

theorem eraseFiltered_valid (h : v.Valid) {pos : ℕ} (hp : pos < v.entries.length)
    (hs : v.size ≤ pos) : ({ v with entries := v.entries.eraseIdx pos } : View α).Valid := by
  refine ⟨?_, h.focus_le⟩
  simp only [List.length_eraseIdx, hp, ↓reduceIte]
  omega

theorem sizePred_lt {n : ℕ} (h : 0 < n) : sizePred n < n := by
  rw [sizePred]
  omega

theorem nextFocus_valid (h : v.Valid) {i : ℕ}
    (hi : v.entries = [] ∨ 0 < v.size ∨ i = 1) : (v.nextFocus i).Valid := by
  rcases h with ⟨hs, hf⟩
  rw [nextFocus]
  split
  · exact ⟨hs, hf⟩
  split
  · exact ⟨hs, Nat.le_refl _⟩
  refine ⟨hs, ?_⟩
  simp only
  by_cases hz : 0 < v.size
  · have hp := sizePred_lt hz
    generalize (if v.focus = v.size then (i + 2 ^ 32 - 1) % 2 ^ 32 else _) = focus
    split <;> omega
  · have hi : i = 1 := by simp_all
    have he : v.focus = v.size := by omega
    simp [he, hi]

theorem nextFocus_entries (v : View α) (i : ℕ) : (v.nextFocus i).entries = v.entries := by
  rw [nextFocus]
  split
  · rfl
  split <;> rfl

theorem prevFocus_entries (v : View α) (i : ℕ) : (v.prevFocus i).entries = v.entries := by
  rw [prevFocus]
  split
  · rfl
  split <;> rfl

theorem prevFocus_valid (h : v.Valid) (i : ℕ) (hi : v.entries = [] ∨ 0 < v.size) :
    (v.prevFocus i).Valid := by
  rcases h with ⟨hs, hf⟩
  rw [prevFocus]
  split
  · exact ⟨hs, hf⟩
  split
  · have hz : 0 < v.size := hi.resolve_left (by simp_all)
    exact ⟨hs, Nat.le_of_lt (sizePred_lt hz)⟩
  · refine ⟨hs, ?_⟩
    simp only
    split <;> omega

theorem mem_filtered_iff (h : v.entries.Nodup) {d : α} :
    d ∈ v.filtered ↔ d ∈ v.entries ∧ d ∉ v.visible := by
  have ha : v.visible ++ v.filtered = v.entries := List.take_append_drop _ _
  have hd : d ∈ v.visible → d ∉ v.filtered := fun hv =>
    List.disjoint_take_drop h (Nat.le_refl _) hv
  rw [← ha, List.mem_append]
  tauto

theorem take_insertIdx {l : List α} {i n : ℕ} {a : α} (hi : i ≤ n) (hn : n ≤ l.length) :
    (l.insertIdx i a).take (n + 1) = (l.take n).insertIdx i a := by
  induction i generalizing l n with
  | zero => simp
  | succ i ih =>
    obtain ⟨n, rfl⟩ : ∃ m, n = m + 1 := ⟨n - 1, by omega⟩
    cases l with
    | nil => simp at hn
    | cons b l =>
      have hl := ih (l := l) (n := n) (by omega) (by simpa using hn)
      simp only [List.insertIdx_succ_cons, List.take_succ_cons, hl]

theorem visible_insertVisible (h : v.Valid) (less : α → α → Bool) (d : α) :
    (v.insertVisible less d).visible = v.visible.insertIdx (v.visible.findIdx (less d)) d :=
  take_insertIdx (findIdx_visible_le h (less d)) h.size_le

theorem mem_visible_insertVisible (h : v.Valid) (less : α → α → Bool) (d x : α) :
    x ∈ (v.insertVisible less d).visible ↔ x = d ∨ x ∈ v.visible := by
  rw [visible_insertVisible h]
  exact List.mem_insertIdx List.findIdx_le_length

theorem take_eraseIdx {l t : List α} {i n : ℕ} (hi : i < n) (hn : n ≤ l.length) :
    (l.eraseIdx i ++ t).take (n - 1) = (l.take n).eraseIdx i := by
  induction i generalizing l n with
  | zero =>
    obtain ⟨n, rfl⟩ : ∃ m, n = m + 1 := ⟨n - 1, by omega⟩
    cases l with
    | nil => simp at hn
    | cons b l =>
      have hz : n - l.length = 0 := Nat.sub_eq_zero_of_le (by simpa using hn)
      simp [List.take_append, hz]
  | succ i ih =>
    obtain ⟨n, rfl⟩ : ∃ m, n = m + 2 := ⟨n - 2, by omega⟩
    cases l with
    | nil => simp at hn
    | cons b l => simpa using ih (l := l) (n := n + 1) (by omega) (by simpa using hn)

theorem filter_perm (passes : α → Bool) (v : View α) :
    (v.filter passes).1.entries.Perm v.entries := by
  rw [filter]
  split
  · exact List.Perm.refl _
  · simp only [List.drop_left, List.take_left]
    have hv := List.filter_append_perm passes v.visible
    have hf := List.filter_append_perm passes v.filtered
    have he : v.visible ++ v.filtered = v.entries := List.take_append_drop _ _
    calc
      v.visible.filter passes ++ v.filtered.filter passes ++ v.visible.filter (!passes ·) ++
          v.filtered.filter (!passes ·)
        = v.visible.filter passes ++ (v.filtered.filter passes ++ v.visible.filter (!passes ·)) ++
          v.filtered.filter (!passes ·) := by simp
      _ |>.Perm (v.visible.filter passes ++ (v.visible.filter (!passes ·) ++
          v.filtered.filter passes) ++ v.filtered.filter (!passes ·)) :=
        (List.perm_append_comm.append_left _).append_right _
      _ = (v.visible.filter passes ++ v.visible.filter (!passes ·)) ++
          (v.filtered.filter passes ++ v.filtered.filter (!passes ·)) := by simp
      _ |>.Perm (v.visible ++ v.filtered) := hv.append hf
      _ = v.entries := he

theorem filter_valid (h : v.Valid) (passes : α → Bool) : (v.filter passes).1.Valid := by
  rw [filter]
  split
  · exact h
  · constructor
    · simp
    · exact Nat.min_le_right _ _

section Find

variable [DecidableEq α] {d : α}

theorem getElem?_idxOf {l : List α} (h : d ∈ l) : l[l.idxOf d]? = some d := by
  rw [List.getElem?_eq_getElem (List.idxOf_lt_length_of_mem h), List.getElem_idxOf]

variable {v : View α}

theorem getElem?_filtered (h : d ∈ v.filtered) :
    v.entries[v.size + v.filtered.idxOf d]? = some d := by
  rw [← List.getElem?_drop]
  exact getElem?_idxOf h

theorem getElem?_visible (h : d ∈ v.visible) :
    v.visible.idxOf d < v.size ∧ v.entries[v.visible.idxOf d]? = some d := by
  have hg := getElem?_idxOf h
  rw [visible, List.getElem?_take] at hg
  split at hg
  · rename_i hs
    exact ⟨hs, hg⟩
  · cases hg

theorem setVisible_valid (h : v.Valid) (less : α → α → Bool) (d : α) :
    (v.setVisible less d).1.Valid := by
  rw [setVisible]
  split
  · rename_i hd
    have hp := (List.getElem?_eq_some_iff.mp (getElem?_filtered hd)).1
    exact insertVisible_valid (eraseFiltered_valid h hp (Nat.le_add_right _ _)) less d
  · exact h

theorem setVisible_perm (h : v.Valid) (less : α → α → Bool) (d : α) :
    (v.setVisible less d).1.entries.Perm v.entries := by
  rw [setVisible]
  split
  · rename_i hd
    have hg := getElem?_filtered hd
    have hp := (List.getElem?_eq_some_iff.mp hg).1
    have hv := eraseFiltered_valid h hp (Nat.le_add_right _ _)
    exact (insertVisible_perm hv less d).trans (eraseIdx_perm hg)
  · exact List.Perm.refl _

theorem setNotVisible_valid (h : v.Valid) (d : α) : (v.setNotVisible d).1.Valid := by
  rcases h with ⟨hs, hf⟩
  rw [setNotVisible]
  split
  · rename_i hd
    obtain ⟨hlt, -⟩ := getElem?_visible hd
    constructor
    · simp only [List.length_append, List.length_eraseIdx, List.length_singleton]
      split <;> omega
    · simp only
      split <;> omega
  · exact ⟨hs, hf⟩

theorem setNotVisible_perm (v : View α) (d : α) :
    (v.setNotVisible d).1.entries.Perm v.entries := by
  rw [setNotVisible]
  split
  · rename_i hd
    exact (List.perm_append_singleton d _).trans (eraseIdx_perm (getElem?_visible hd).2)
  · exact List.Perm.refl _

theorem sort_valid (h : v.Valid) (less : α → α → Bool) : (v.sort less).Valid := by
  have hl := length_visible h
  constructor
  · simp [sort, filtered, List.length_mergeSort, hl]
  · simp only [sort]
    split
    · exact Nat.le_refl _
    · split
      · exact Nat.le_trans List.idxOf_le_length (Nat.le_of_eq (by rw [List.length_mergeSort, hl]))
      · exact Nat.le_refl _

theorem sort_perm (v : View α) (less : α → α → Bool) : (v.sort less).entries.Perm v.entries := by
  calc
    (v.sort less).entries |>.Perm (v.visible ++ v.filtered) :=
      (List.mergeSort_perm _ _).append_right _
    _ = v.entries := List.take_append_drop _ _

theorem eraseInternal_perm (h : d ∈ v.entries) :
    (d :: (v.eraseInternal (v.entries.idxOf d)).entries).Perm v.entries :=
  eraseIdx_perm (getElem?_idxOf h)

theorem erase_spec (h : v.Valid) (hd : d ∈ v.entries) :
    ∃ w es, v.erase d = .ok (w, es) ∧ w.Valid ∧ (d :: w.entries).Perm v.entries := by
  have hp := List.idxOf_lt_length_of_mem hd
  have hv := eraseInternal_valid h hp
  rw [erase]
  simp only [Nat.ne_of_lt hp, ↓reduceIte]
  split <;> exact ⟨_, _, rfl, hv, eraseInternal_perm hd⟩

theorem filterDownload_spec {w : View α} {es : List (EventKind × α)} (h : v.Valid)
    {passes : α → Bool} {less : α → α → Bool}
    (hf : v.filterDownload passes less d = .ok (w, es)) :
    w.Valid ∧ w.entries.Perm v.entries := by
  rw [filterDownload] at hf
  simp only at hf
  split at hf
  · cases hf
  rename_i hne
  have hp : v.entries.idxOf d < v.entries.length :=
    Nat.lt_of_le_of_ne List.idxOf_le_length hne
  have hd := List.idxOf_lt_length_iff.mp hp
  have hv := eraseInternal_valid h hp
  split at hf
  · cases hf
    exact ⟨insertVisible_valid hv less d,
      (insertVisible_perm hv less d).trans (eraseInternal_perm hd)⟩
  split at hf
  · cases hf
    exact ⟨h, List.Perm.refl _⟩
  · cases hf
    refine ⟨⟨?_, hv.focus_le⟩, ?_⟩
    · simpa using Nat.le_succ_of_le hv.size_le
    · exact (List.perm_append_singleton d _).trans (eraseInternal_perm hd)

theorem mem_visible_setVisible (h : v.Valid) (less : α → α → Bool) (d x : α) :
    x ∈ (v.setVisible less d).1.visible ↔ (x = d ∧ d ∈ v.filtered) ∨ x ∈ v.visible := by
  rw [setVisible]
  split
  · rename_i hd
    have hp := (List.getElem?_eq_some_iff.mp (getElem?_filtered hd)).1
    have hv := eraseFiltered_valid h hp (Nat.le_add_right _ _)
    rw [mem_visible_insertVisible hv]
    simp [visible, hd, List.take_eraseIdx_eq_take_of_le]
  · rename_i hd
    simp [hd]

theorem mem_visible_setNotVisible (h : v.Valid) (hn : v.entries.Nodup) (d x : α) :
    x ∈ (v.setNotVisible d).1.visible ↔ x ≠ d ∧ x ∈ v.visible := by
  rw [setNotVisible]
  split
  · rename_i hd
    obtain ⟨hlt, -⟩ := getElem?_visible hd
    have hv : v.visible.Nodup := hn.sublist (List.take_sublist _ _)
    change x ∈ (v.entries.eraseIdx (v.visible.idxOf d) ++ [d]).take (v.size - 1) ↔ _
    rw [take_eraseIdx hlt h.size_le]
    change x ∈ v.visible.eraseIdx (v.visible.idxOf d) ↔ _
    rw [← List.erase_eq_eraseIdx_of_idxOf rfl, hv.mem_erase_iff]
  · rename_i hd
    exact ⟨fun hx => ⟨fun he => hd (he ▸ hx), hx⟩, And.right⟩

theorem filterDownload_missing (hd : d ∉ v.entries) (passes : α → Bool)
    (less : α → α → Bool) : v.filterDownload passes less d =
      .error "View::filter_download(...) could not find download." := by
  simp [filterDownload, List.idxOf_eq_length hd]

theorem filterDownload_false (hd : d ∈ v.entries) (less : α → α → Bool) :
    v.filterDownload (fun _ => false) less d = .ok (v.setNotVisible d) := by
  have hl := Nat.ne_of_lt (List.idxOf_lt_length_of_mem hd)
  by_cases hv : d ∈ v.visible
  · have hp : v.entries.idxOf d = v.visible.idxOf d := by
      have ha : v.visible ++ v.filtered = v.entries := List.take_append_drop _ _
      rw [← ha]
      exact List.idxOf_append_of_mem hv
    have hlt := (getElem?_visible hv).1
    rw [hp] at hl
    simp [filterDownload, setNotVisible, hl, hv, eraseInternal, hp, hlt, Nat.not_le.mpr hlt]
  · have hp : v.size ≤ v.entries.idxOf d := by
      by_contra hlt
      apply hv
      have hg := getElem?_idxOf hd
      rw [← List.getElem?_take_of_lt (Nat.lt_of_not_le hlt)] at hg
      exact List.mem_of_getElem? hg
    simp [filterDownload, setNotVisible, hl, hv, hp]

end Find

end View

end ViewModel
