import Rtorrent.ViewModel

/-! # The filter of a view inside its vector

`View::filter` partitions both parts of the vector in place and exchanges the downloads between
the two splits through a copy. -/
namespace ViewPartition

open ViewModel ViewModel.View

variable {α : Type*}

/-- `std::stable_partition` on the range between two positions, and the split it returns. -/
def stablePartition (passes : α → Bool) (first last : ℕ) (entries : List α) : List α × ℕ :=
  let range := (entries.take last).drop first
  (entries.take first ++ (range.filter passes ++ range.filter (!passes ·)) ++ entries.drop last,
    first + (range.filter passes).length)

/-- `std::copy` to a position, and the position behind what is copied. -/
def copyTo (source : List α) (pos : ℕ) (entries : List α) : List α × ℕ :=
  (entries.take pos ++ source ++ entries.drop (pos + source.length), pos + source.length)

/-- `begin_filtered()` is asked for again once `m_size` has its new value. -/
def filterInPlace (passes : α → Bool) (v : View α) : View α × List (EventKind × α) :=
  if v.name = "started" ∨ v.name = "stopped" then (v, [])
  else
    let visibleParted := stablePartition passes 0 v.size v.entries
    let splitVisible := visibleParted.2
    let filteredParted :=
      stablePartition passes v.size visibleParted.1.length visibleParted.1
    let splitFiltered := filteredParted.2
    let changed := (filteredParted.1.take splitFiltered).drop splitVisible
    let splitChanged := v.size - splitVisible
    let entered := copyTo (changed.drop splitChanged) splitVisible filteredParted.1
    let size := entered.2
    let left := copyTo (changed.take splitChanged) size entered.1
    ({ v with entries := left.1, size := size, focus := min v.focus size },
      (if v.hasEventRemoved then (changed.take splitChanged).map (EventKind.removed, ·) else []) ++
        if v.hasEventAdded then (changed.take splitChanged).map (EventKind.added, ·) else [])

theorem stablePartition_append (passes : α → Bool) (a b c : List α) :
    stablePartition passes a.length (a.length + b.length) (a ++ b ++ c) =
      (a ++ (b.filter passes ++ b.filter (!passes ·)) ++ c,
        a.length + (b.filter passes).length) := by
  have ht : (a ++ b ++ c).take (a.length + b.length) = a ++ b := by
    rw [← List.length_append, List.take_left]
  have hd : (a ++ b ++ c).drop (a.length + b.length) = c := by
    rw [← List.length_append, List.drop_left]
  have ha : (a ++ b ++ c).take a.length = a := by rw [List.append_assoc, List.take_left]
  rw [stablePartition, ht, hd, ha, List.drop_left]

theorem copyTo_append (a b c source : List α) (h : source.length = b.length) :
    copyTo source a.length (a ++ b ++ c) = (a ++ source ++ c, a.length + source.length) := by
  have ha : (a ++ b ++ c).take a.length = a := by rw [List.append_assoc, List.take_left]
  have hd : (a ++ b ++ c).drop (a.length + source.length) = c := by
    rw [h, ← List.length_append, List.drop_left]
  rw [copyTo, ha, hd]

theorem copyTo_swap (a b c d : List α) :
    copyTo b (a.length + c.length) (copyTo c a.length (a ++ b ++ c ++ d)).1 =
      (a ++ c ++ b ++ d, a.length + c.length + b.length) := by
  have hsplit : a ++ b ++ c ++ d =
      a ++ (b ++ c).take c.length ++ ((b ++ c).drop c.length ++ d) := by
    calc
      a ++ b ++ c ++ d = a ++ (b ++ c ++ d) := by simp
      _ = a ++ ((b ++ c).take c.length ++ (b ++ c).drop c.length ++ d) := by
        rw [List.take_append_drop]
      _ = a ++ (b ++ c).take c.length ++ ((b ++ c).drop c.length ++ d) := by
        simp only [List.append_assoc]
  have hc : c.length = ((b ++ c).take c.length).length := by simp
  have hb : b.length = ((b ++ c).drop c.length).length := by simp
  have hl : a.length + c.length = (a ++ c).length := List.length_append.symm
  rw [hsplit, copyTo_append _ _ _ _ hc, hl, ← List.append_assoc (a ++ c), copyTo_append _ _ _ _ hb]

theorem filterInPlace_parts (passes : α → Bool) {v : View α} {shown hidden : List α}
    (he : v.entries = shown ++ hidden) (hs : v.size = shown.length)
    (hn : ¬(v.name = "started" ∨ v.name = "stopped")) :
    filterInPlace passes v =
      ({ v with
        entries := shown.filter passes ++ hidden.filter passes ++ shown.filter (!passes ·) ++
          hidden.filter (!passes ·)
        size := (shown.filter passes).length + (hidden.filter passes).length
        focus := min v.focus ((shown.filter passes).length + (hidden.filter passes).length) },
      (if v.hasEventRemoved then (shown.filter (!passes ·)).map (EventKind.removed, ·) else []) ++
        if v.hasEventAdded then (shown.filter (!passes ·)).map (EventKind.added, ·) else []) := by
  generalize hsp : shown.filter passes = stays
  generalize hsf : shown.filter (!passes ·) = leaves
  generalize hhp : hidden.filter passes = enters
  generalize hhf : hidden.filter (!passes ·) = out
  have hlen : v.size = (stays ++ leaves).length := by
    rw [hs, ← hsp, ← hsf, List.length_append, ← List.length_eq_length_filter_add]
  have h1 : stablePartition passes 0 v.size v.entries =
      (stays ++ leaves ++ hidden, stays.length) := by
    have := stablePartition_append passes [] shown hidden
    rw [hsp, hsf] at this
    simpa [he, hs] using this
  have h2 : stablePartition passes v.size (stays ++ leaves ++ hidden).length
      (stays ++ leaves ++ hidden) =
      (stays ++ leaves ++ enters ++ out, v.size + enters.length) := by
    have := stablePartition_append passes (stays ++ leaves) hidden []
    rw [hhp, hhf, ← hlen] at this
    simpa [hlen, Nat.add_assoc] using this
  have hchanged : ((stays ++ leaves ++ enters ++ out).take (v.size + enters.length)).drop
      stays.length = leaves ++ enters := by
    rw [hlen, ← List.length_append, List.take_left, List.append_assoc, List.drop_left]
  have hsplit : v.size - stays.length = leaves.length := by
    rw [hlen, List.length_append]
    omega
  rw [filterInPlace, if_neg hn]
  simp only [h1, h2, hchanged, hsplit, List.drop_left, List.take_left]
  have hswap := copyTo_swap stays leaves enters out
  have hfirst : (copyTo enters stays.length (stays ++ leaves ++ enters ++ out)).2 =
    stays.length + enters.length := rfl
  rw [hfirst, hswap]

theorem filterInPlace_eq (passes : α → Bool) {v : View α} (h : v.Valid) :
    filterInPlace passes v = v.filter passes := by
  by_cases hn : v.name = "started" ∨ v.name = "stopped"
  · rw [filterInPlace, if_pos hn, View.filter, if_pos hn]
  · have he : v.entries = v.visible ++ v.filtered := (List.take_append_drop _ _).symm
    rw [filterInPlace_parts passes he (length_visible h).symm hn, View.filter, if_neg hn]
    simp only [List.drop_left, List.take_left, List.length_append]

/-- Apart from the two views that are left alone, the downloads that pass are visible and the
others are not, each time those that were visible first and in their order. -/
theorem filter_order (passes : α → Bool) {v : View α} {shown hidden : List α}
    (he : v.entries = shown ++ hidden) (hs : v.size = shown.length) :
    (¬(v.name = "started" ∨ v.name = "stopped") →
      (filterInPlace passes v).1.visible = shown.filter passes ++ hidden.filter passes ∧
      (filterInPlace passes v).1.filtered =
        shown.filter (!passes ·) ++ hidden.filter (!passes ·)) ∧
    (v.name = "started" ∨ v.name = "stopped" → (filterInPlace passes v).1 = v) := by
  constructor
  · intro hn
    rw [filterInPlace_parts passes he hs hn, visible, filtered]
    simp only [List.append_assoc, ← List.length_append]
    rw [← List.append_assoc, List.take_left, List.drop_left]
    exact ⟨rfl, rfl⟩
  · intro hn
    rw [filterInPlace, if_pos hn]

def pair (name : String) : View ℕ := ⟨name, [1, 2], 1, 0, false, false⟩

theorem filter_order_pair :
    (filterInPlace (· == 2) (pair "main")).1.visible = [2] ∧
    (filterInPlace (· == 2) (pair "main")).1.filtered = [1] := by
  have hs : (pair "main").size = [1].length := rfl
  have he : (pair "main").entries = [1] ++ [2] := rfl
  exact (filter_order (· == 2) he hs).1 (by decide)

theorem started_not_filtered :
    (filterInPlace (· == 2) (pair "started")).1.visible = [1] ∧
    (filterInPlace (· == 2) (pair "started")).1.filtered = [2] := by
  decide

end ViewPartition
