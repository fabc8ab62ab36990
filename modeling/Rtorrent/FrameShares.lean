import Mathlib.Tactic.Ring
import Rtorrent.FrameDistribution

/-! # What each frame is given

When the minima fit, the first turn gives every dynamic frame its minimum at least, because the
frames are sorted. What remains is an `int`, and space it cannot count is not given out. -/
namespace FrameShares

open DisplayFrames FrameDistribution

variable {remaining : UInt32}

theorem space_large (h : 2 ^ 31 ≤ remaining.toNat) : (signed remaining).toNat = 0 := by
  have := remaining.toNat_lt
  rw [signed, if_neg (by omega)]
  omega

theorem share_fits {n r m s : ℕ} (hs : s ≤ n * m) (hr : m + s ≤ r) :
    max ((r + (n + 1) - 1) / (n + 1)) m + s ≤ r := by
  rcases Nat.le_total ((r + (n + 1) - 1) / (n + 1)) m with h | h
  · rwa [Nat.max_eq_right h]
  rw [Nat.max_eq_left h]
  rcases Nat.eq_or_lt_of_le h with h | h
  · omega
  · obtain ⟨share, hshare⟩ := Nat.exists_eq_add_of_lt h
    have hdiv := Nat.div_mul_le_self (r + (n + 1) - 1) (n + 1)
    rw [hshare] at hdiv ⊢
    have hmul : n * m ≤ n * (m + share) := Nat.mul_le_mul_left n (Nat.le_add_right m share)
    have hexpand : (m + share + 1) * (n + 1) = n * (m + share) + n + (m + share + 1) := by ring
    omega

theorem share_pos {r count : ℕ} (hr : 0 < r) (hcount : 0 < count) : 0 < (r + count - 1) / count :=
  Nat.div_pos (by omega) hcount

def InBounds (d : DynamicFrame) : Prop :=
  d.min.toNat ≤ d.extent.toNat ∧ d.extent.toNat ≤ d.max.toNat

def shape (d : DynamicFrame) : ℕ × UInt32 × UInt32 := (d.index, d.min, d.max)

theorem adjustAll_shape (ds : List DynamicFrame) (remaining : UInt32) :
    (adjustAll ds remaining).1.map shape = ds.map shape := by
  induction ds generalizing remaining with
  | nil => rfl
  | cons d ds ih => simp only [adjustAll, List.map_cons, ih, shape]

variable {ds : List DynamicFrame}

theorem sumMin_le {m : UInt32} (h : ∀ d ∈ ds, d.min ≤ m) : sumMin ds ≤ ds.length * m.toNat := by
  induction ds with
  | nil => simp [sumMin]
  | cons d ds ih =>
    have hd := UInt32.le_iff_toNat_le.mp (h d List.mem_cons_self)
    have hrest := ih fun e he => h e (List.mem_cons_of_mem _ he)
    rw [sumMin, List.length_cons, Nat.succ_mul]
    omega

variable {d : DynamicFrame}

/-- The first frame of a sorted list is given its minimum at least, and leaves the other minima. -/
theorem adjust_fits
    (hextent : d.extent = 0) (hbounds : d.min.toNat ≤ d.max.toNat)
    (hsorted : ∀ e ∈ ds, e.min ≤ d.min)
    (hr : d.min.toNat + sumMin ds ≤ remaining.toNat) :
    d.min.toNat ≤ (adjust remaining (ds.length + 1) d).toNat ∧
    (adjust remaining (ds.length + 1) d).toNat ≤ d.max.toNat ∧
    (adjust remaining (ds.length + 1) d).toNat + sumMin ds ≤ remaining.toNat ∧
    (2 ^ 31 ≤ remaining.toNat → (adjust remaining (ds.length + 1) d).toNat = d.min.toNat) := by
  have hspace : (signed remaining).toNat < 2 ^ 32 := by
    have := signed_lt remaining
    omega
  obtain ⟨wanted, hwanted, hadjust⟩ := adjust_clamps remaining d
    (show 0 < ds.length + 1 from Nat.succ_pos _)
    (by rwa [hextent, UInt32.toNat_zero, Nat.zero_add])
  rw [hextent, UInt32.toNat_zero, Nat.zero_add] at hwanted
  rcases Nat.lt_or_ge remaining.toNat (2 ^ 31) with hsmall | hlarge
  · have hfits := share_fits (sumMin_le hsorted) hr
    rw [space_small hsmall] at hwanted
    omega
  · rw [space_large hlarge, Nat.div_eq_of_lt (by omega)] at hwanted
    omega

/-- The first turn. Space that an `int` cannot count is not given out. -/
theorem adjustAll_fits (hz : ∀ d ∈ ds, d.extent = 0)
    (hbounds : ∀ d ∈ ds, d.min.toNat ≤ d.max.toNat) (hsorted : ds.Pairwise fun a b => b.min ≤ a.min)
    (hr : sumMin ds ≤ remaining.toNat) :
    (∀ d ∈ (adjustAll ds remaining).1, InBounds d) ∧
    (adjustAll ds remaining).2.1.toNat + sumExtent (adjustAll ds remaining).1 = remaining.toNat ∧
    (remaining.toNat - sumMin ds < 2 ^ 31 → (adjustAll ds remaining).2.1.toNat < 2 ^ 31) ∧
    (2 ^ 31 ≤ remaining.toNat - sumMin ds →
      ∀ d ∈ (adjustAll ds remaining).1, d.extent.toNat = d.min.toNat) := by
  induction ds generalizing remaining with
  | nil =>
    exact ⟨by simp [adjustAll], rfl, fun h => h, by simp [adjustAll]⟩
  | cons d ds ih =>
    have hextent : d.extent = 0 := hz d List.mem_cons_self
    obtain ⟨hd, hds⟩ := List.pairwise_cons.mp hsorted
    rw [sumMin] at hr
    obtain ⟨hleast, hmost, hleaves, hlarge⟩ :=
      adjust_fits hextent (hbounds d List.mem_cons_self) hd hr
    generalize hgiven : adjust remaining (ds.length + 1) d = given at *
    have hnext : (remaining - given).toNat = remaining.toNat - given.toNat :=
      toNat_sub_extent (by omega)
    obtain ⟨hin, hsum, hsmall, hmin⟩ := @ih (remaining - given)
      (fun e he => hz e (List.mem_cons_of_mem _ he))
      (fun e he => hbounds e (List.mem_cons_of_mem _ he)) hds (by omega)
    simp only [adjustAll, hgiven, hextent, UInt32.sub_zero, sumMin, sumExtent, List.mem_cons,
      forall_eq_or_imp]
    refine ⟨⟨⟨hleast, hmost⟩, hin⟩, by omega, fun h => ?_,
      fun h => ⟨hlarge (by omega), hmin (by omega)⟩⟩
    rcases Nat.lt_or_ge remaining.toNat (2 ^ 31) with hr | hr
    · omega
    · have := hlarge hr
      exact hsmall (by omega)

theorem InBounds.steady (h : InBounds d) : Steady d := ⟨h.2, .inl h.1⟩

variable {extent : UInt32}

theorem InBounds.grows (h : InBounds d)
    (hleast : d.extent.toNat ≤ extent.toNat) (hmost : extent.toNat ≤ d.max.toNat) :
    InBounds { d with extent := extent } :=
  ⟨h.1.trans hleast, hmost⟩

theorem adjustAll_unchanged (h : (adjustAll ds remaining).2.2 = false) :
    (adjustAll ds remaining).1 = ds ∧ (adjustAll ds remaining).2.1 = remaining ∧
    ∀ d ∈ ds, ∃ count > 0, adjust remaining count d = d.extent := by
  induction ds with
  | nil => exact ⟨rfl, rfl, by simp⟩
  | cons d ds ih =>
    simp only [adjustAll, Bool.or_eq_false_iff, bne_eq_false_iff_eq] at h
    obtain ⟨hd, hds⟩ := h
    have hsame : remaining - (adjust remaining (ds.length + 1) d - d.extent) = remaining := by
      rw [← hd, UInt32.sub_self, UInt32.sub_zero]
    rw [hsame] at hds
    obtain ⟨hlist, hremaining, hall⟩ := ih hds
    refine ⟨?_, ?_, ?_⟩
    · simp only [adjustAll, hsame, hlist]
      rw [← hd]
    · simp only [adjustAll, hsame, hremaining]
    · intro e he
      rcases List.mem_cons.mp he with rfl | he
      · exact ⟨ds.length + 1, Nat.succ_pos _, hd.symm⟩
      · exact hall e he

theorem extent_eq_max {count : ℕ} (hin : InBounds d)
    (hcount : 0 < count) (hpos : 0 < remaining.toNat) (hr : remaining.toNat < 2 ^ 31)
    (hsum : d.extent.toNat + remaining.toNat < 2 ^ 32) (h : adjust remaining count d = d.extent) :
    d.extent.toNat = d.max.toNat := by
  have hshare := share_pos hpos hcount
  obtain ⟨wanted, hwanted, hadjust⟩ := adjust_clamps remaining d hcount (by rwa [space_small hr])
  rw [space_small hr] at hwanted
  rw [h] at hadjust
  unfold InBounds at hin
  omega

structure Filled (total : ℕ) (ds : List DynamicFrame) (remaining : UInt32) : Prop where
  bounds : ∀ d ∈ ds, InBounds d
  sum : remaining.toNat + sumExtent ds = total
  full : 0 < remaining.toNat → ∀ d ∈ ds, d.extent.toNat = d.max.toNat

theorem extent_le_sumExtent (h : d ∈ ds) : d.extent.toNat ≤ sumExtent ds := by
  induction ds with
  | nil => cases h
  | cons e ds ih =>
    rw [sumExtent]
    rcases List.mem_cons.mp h with rfl | h
    · omega
    · have := ih h
      omega

theorem filled_of_unchanged (hin : ∀ d ∈ ds, InBounds d)
    (hr : remaining.toNat < 2 ^ 31) (hsum : remaining.toNat + sumExtent ds < 2 ^ 32)
    (h : (adjustAll ds remaining).2.2 = false) :
    Filled (remaining.toNat + sumExtent ds) ds remaining := by
  refine ⟨hin, rfl, fun hpos d hd => ?_⟩
  obtain ⟨count, hcount, hadjust⟩ := (adjustAll_unchanged h).2.2 d hd
  have hle := extent_le_sumExtent hd
  exact extent_eq_max (hin d hd) hcount hpos hr (by omega) hadjust

theorem isPositive_iff_toNat (h : remaining.toNat < 2 ^ 31) :
    isPositive remaining = true ↔ 0 < remaining.toNat := by
  rw [isPositive_iff_signed, signed, if_pos h]
  omega

theorem sumMin_eq_sum (ds : List DynamicFrame) : sumMin ds = (ds.map fun d => d.min.toNat).sum := by
  induction ds with
  | nil => rfl
  | cons d ds ih => rw [sumMin, List.map_cons, List.sum_cons, ih]

theorem sumExtent_eq_sum (ds : List DynamicFrame) :
    sumExtent ds = (ds.map fun d => d.extent.toNat).sum := by
  induction ds with
  | nil => rfl
  | cons d ds ih => rw [sumExtent, List.map_cons, List.sum_cons, ih]

theorem distribute_turn {total : ℕ} (hin : ∀ d ∈ (adjustAll ds remaining).1, InBounds d)
    (hsum : (adjustAll ds remaining).2.1.toNat + sumExtent (adjustAll ds remaining).1 = total)
    (hsmall : (adjustAll ds remaining).2.1.toNat < 2 ^ 31) (htotal : total < 2 ^ 32)
    (hnext : (adjustAll ds remaining).2.2 = true → ∃ turns r,
      distribute turns (adjustAll ds remaining).1 (adjustAll ds remaining).2.1 = some r ∧
        Filled total r.1 r.2) :
    ∃ turns r, distribute turns ds remaining = some r ∧ Filled total r.1 r.2 := by
  cases hchanged : (adjustAll ds remaining).2.2 with
  | false =>
    obtain ⟨hlist, hremaining, _⟩ := adjustAll_unchanged hchanged
    rw [hlist] at hin hsum
    rw [hremaining] at hsum hsmall
    refine ⟨1, (ds, remaining), ?_, hsum ▸ filled_of_unchanged hin hsmall (by omega) hchanged⟩
    simp [distribute, hchanged, hlist, hremaining]
  | true =>
    by_cases hpos : 0 < (adjustAll ds remaining).2.1.toNat
    · obtain ⟨turns, r, hturns, hfilled⟩ := hnext hchanged
      refine ⟨turns + 1, r, ?_, hfilled⟩
      rw [distribute, hchanged, (isPositive_iff_toNat hsmall).mpr hpos]
      exact hturns
    · have hzero := mt (isPositive_iff_toNat hsmall).mp hpos
      refine ⟨1, ((adjustAll ds remaining).1, (adjustAll ds remaining).2.1), ?_, hin, hsum,
        fun h => absurd h hpos⟩
      simp [distribute, hzero]

theorem distribute_filled {total : ℕ} (hin : ∀ d ∈ ds, InBounds d) (hr : remaining.toNat < 2 ^ 31)
    (hsum : remaining.toNat + sumExtent ds = total) (htotal : total < 2 ^ 32) :
    ∃ turns r, distribute turns ds remaining = some r ∧ Filled total r.1 r.2 := by
  induction hn : remaining.toNat using Nat.strong_induction_on generalizing ds remaining with
  | _ n ih =>
    obtain ⟨hbounds, hkept, hle, hlt⟩ :=
      adjustAll_grows (fun _ => InBounds.steady) (fun _ _ => InBounds.grows) hin hr (by omega)
    refine distribute_turn hbounds (by omega) (by omega) htotal fun hchanged => ?_
    have hless := hlt hchanged
    exact ih _ (by omega) hbounds (by omega) (by omega) rfl

variable {r : List DynamicFrame × UInt32}

theorem distribute_shape {turns : ℕ} (h : distribute turns ds remaining = some r) :
    r.1.map shape = ds.map shape := by
  induction turns generalizing ds remaining with
  | zero => cases h
  | succ turns ih =>
    rw [distribute] at h
    split at h
    · rw [ih h, adjustAll_shape]
    · cases h
      exact adjustAll_shape ds remaining

section First

variable {ds : List DynamicFrame} {remaining : UInt32} (hz : ∀ d ∈ ds, d.extent = 0)
  (hbounds : ∀ d ∈ ds, d.min.toNat ≤ d.max.toNat) (hsorted : ds.Pairwise fun a b => b.min ≤ a.min)
  (hr : sumMin ds ≤ remaining.toNat)
include hz hbounds hsorted hr

theorem distribute_small (hsmall : remaining.toNat - sumMin ds < 2 ^ 31) :
    ∃ turns r, distribute turns ds remaining = some r ∧ Filled remaining.toNat r.1 r.2 := by
  have hlt := remaining.toNat_lt
  obtain ⟨hin, hsum, hnext, _⟩ := adjustAll_fits hz hbounds hsorted hr
  have hnext := hnext hsmall
  exact distribute_turn hin hsum hnext hlt fun _ => distribute_filled hin hnext hsum hlt

theorem distribute_large (hlarge : 2 ^ 31 ≤ remaining.toNat - sumMin ds) (turns : ℕ) :
    ∃ r, distribute (turns + 1) ds remaining = some r ∧
      (∀ d ∈ r.1, d.extent.toNat = d.min.toNat) ∧ r.2.toNat + sumExtent r.1 = remaining.toNat ∧
      2 ^ 31 ≤ r.2.toNat := by
  have hlt := (adjustAll ds remaining).2.1.toNat_lt
  obtain ⟨_, hsum, _, hmin⟩ := adjustAll_fits hz hbounds hsorted hr
  have hmin := hmin hlarge
  have hextent : sumExtent (adjustAll ds remaining).1 = sumMin ds := by
    have hshape := congrArg (List.map fun s => s.2.1.toNat) (adjustAll_shape ds remaining)
    simp only [List.map_map] at hshape
    rw [sumExtent_eq_sum, sumMin_eq_sum, List.map_congr_left hmin]
    exact congrArg List.sum hshape
  have hleft : 2 ^ 31 ≤ (adjustAll ds remaining).2.1.toNat := by omega
  refine ⟨((adjustAll ds remaining).1, (adjustAll ds remaining).2.1), ?_, hmin, hsum, hleft⟩
  have hnot : isPositive (adjustAll ds remaining).2.1 = false := by
    rw [Bool.eq_false_iff, ne_eq, isPositive_iff_signed, signed, if_neg (by omega)]
    omega
  simp [distribute, hnot]

end First

def minOf (axis : Axis) (frame : Frame) : ℕ := ((preferredSize frame).min axis).toNat
def maxOf (axis : Axis) (frame : Frame) : ℕ := ((preferredSize frame).max axis).toNat

def sumMins (axis : Axis) (frames : List Frame) : ℕ := (frames.map (minOf axis)).sum

variable {axis : Axis} {frames : List Frame}

theorem mem_measureFrames {i : ℕ} : d ∈ (measureFrames axis i frames remaining).1 ↔
      ∃ p ∈ frames.zipIdx i, isDynamic axis p.1 = true ∧
        d = ⟨p.2, (preferredSize p.1).min axis, (preferredSize p.1).max axis, 0⟩ := by
  induction frames generalizing i remaining with
  | nil => simp [measureFrames]
  | cons frame frames ih =>
    rw [measureFrames, List.zipIdx_cons]
    dsimp only
    split
    · next h => simp [ih, h]
    · next h => simp [ih, h]

theorem measureFrames_index (axis : Axis) (i : ℕ) (frames : List Frame) (remaining : UInt32) :
    ((measureFrames axis i frames remaining).1.map DynamicFrame.index).Nodup := by
  induction frames generalizing i remaining with
  | nil => simp [measureFrames]
  | cons frame frames ih =>
    rw [measureFrames]
    dsimp only
    split
    · refine List.nodup_cons.mpr ⟨?_, ih (i + 1) remaining⟩
      intro hmem
      obtain ⟨d, hd, hindex⟩ := List.mem_map.mp hmem
      obtain ⟨p, hp, _, rfl⟩ := mem_measureFrames.mp hd
      have hle := List.le_snd_of_mem_zipIdx hp
      have hi : p.2 = i := hindex
      omega
    · exact ih (i + 1) _

theorem measureFrames_remaining {i : ℕ} (h : sumMins axis frames ≤ remaining.toNat) :
    (measureFrames axis i frames remaining).2.toNat + sumMins axis frames =
      remaining.toNat + sumMin (measureFrames axis i frames remaining).1 := by
  induction frames generalizing i remaining with
  | nil => rfl
  | cons frame frames ih =>
    have hcons : sumMins axis (frame :: frames) = minOf axis frame + sumMins axis frames := by
      simp [sumMins]
    rw [hcons] at h ⊢
    rw [measureFrames]
    dsimp only
    split
    · have := @ih remaining (i + 1) (by omega)
      rw [sumMin]
      unfold minOf at *
      dsimp only
      omega
    · have hsub : (remaining - (preferredSize frame).min axis).toNat =
          remaining.toNat - minOf axis frame := toNat_sub_extent (by unfold minOf at h; omega)
      have := @ih (remaining - (preferredSize frame).min axis) (i + 1) (by omega)
      omega

theorem find_index (hnodup : (ds.map DynamicFrame.index).Nodup)
    (hd : d ∈ ds) : ds.find? (fun e => e.index == d.index) = some d := by
  induction ds with
  | nil => cases hd
  | cons e ds ih =>
    obtain ⟨hnot, hrest⟩ := List.nodup_cons.mp hnodup
    rcases List.mem_cons.mp hd with rfl | hd
    · simp
    · have hne : e.index ≠ d.index := by
        intro heq
        exact hnot (List.mem_map.mpr ⟨d, hd, heq.symm⟩)
      simpa [hne] using ih hrest hd

section Numbered

variable {axis : Axis} {frames : List Frame} {remaining : UInt32} {ds : List DynamicFrame}
  (hshape : (ds.map shape).Perm ((measureFrames axis 0 frames remaining).1.map shape))
include hshape

theorem perm_index : (ds.map DynamicFrame.index).Perm
    ((measureFrames axis 0 frames remaining).1.map DynamicFrame.index) := by
  have h := hshape.map Prod.fst
  simpa [List.map_map, Function.comp_def, shape] using h

theorem nodup_index : (ds.map DynamicFrame.index).Nodup :=
  (perm_index hshape).nodup_iff.mpr (measureFrames_index axis 0 frames remaining)

theorem extentOf_dynamic {p : Frame × ℕ} (hp : p ∈ frames.zipIdx)
    (hdynamic : isDynamic axis p.1 = true) :
    ∃ d ∈ ds, d.index = p.2 ∧ d.min.toNat = minOf axis p.1 ∧ d.max.toNat = maxOf axis p.1 ∧
      extentOf axis ds p.2 p.1 = d.extent := by
  have hmem : (p.2, (preferredSize p.1).min axis, (preferredSize p.1).max axis) ∈ ds.map shape :=
    hshape.mem_iff.mpr (List.mem_map.mpr ⟨_, mem_measureFrames.mpr ⟨p, hp, hdynamic, rfl⟩, rfl⟩)
  obtain ⟨d, hd, hd'⟩ := List.mem_map.mp hmem
  obtain ⟨hindex, hmin, hmax⟩ : d.index = p.2 ∧ d.min = (preferredSize p.1).min axis ∧
      d.max = (preferredSize p.1).max axis := by
    simpa [shape] using hd'
  refine ⟨d, hd, hindex, congrArg UInt32.toNat hmin, congrArg UInt32.toNat hmax, ?_⟩
  rw [extentOf, ← hindex, find_index (nodup_index hshape) hd]

theorem extentOf_static {p : Frame × ℕ} (hp : p ∈ frames.zipIdx)
    (hstatic : isDynamic axis p.1 = false) :
    extentOf axis ds p.2 p.1 = (preferredSize p.1).min axis := by
  have hnone : ds.find? (fun d => d.index == p.2) = none := by
    rw [List.find?_eq_none]
    intro d hd hindex
    have hmem := (perm_index hshape).mem_iff.mp (List.mem_map.mpr ⟨d, hd, rfl⟩)
    obtain ⟨e, he, heq⟩ := List.mem_map.mp hmem
    obtain ⟨q, hq, hdynamic, rfl⟩ := mem_measureFrames.mp he
    have hsame : p.1 = q.1 := by
      have hqp : q.2 = p.2 := heq.trans (beq_iff_eq.mp hindex)
      have hfirst := List.mem_zipIdx_iff_getElem?.mp hp
      have hsecond := List.mem_zipIdx_iff_getElem?.mp hq
      rw [hqp, hfirst] at hsecond
      exact Option.some.inj hsecond
    rw [hsame, hdynamic] at hstatic
    cases hstatic
  rw [extentOf, hnone]

end Numbered

def sumGiven (axis : Axis) (ds : List DynamicFrame) (i : ℕ) (frames : List Frame) : ℕ :=
  ((frames.zipIdx i).map fun p => (extentOf axis ds p.2 p.1).toNat).sum

theorem sumGiven_add (axis : Axis) (ds : List DynamicFrame) (f : ℕ → ℕ) (i : ℕ)
    (frames : List Frame)
    (remaining : UInt32)
    (hdynamic : ∀ p ∈ frames.zipIdx i, isDynamic axis p.1 = true →
      (extentOf axis ds p.2 p.1).toNat = f p.2)
    (hstatic : ∀ p ∈ frames.zipIdx i, isDynamic axis p.1 = false →
      (extentOf axis ds p.2 p.1).toNat = minOf axis p.1) :
    sumGiven axis ds i frames + sumMin (measureFrames axis i frames remaining).1 =
      sumMins axis frames +
        ((measureFrames axis i frames remaining).1.map fun d => f d.index).sum := by
  induction frames generalizing i remaining with
  | nil => rfl
  | cons frame frames ih =>
    rw [List.zipIdx_cons] at hdynamic hstatic
    have hgiven : sumGiven axis ds i (frame :: frames) =
        (extentOf axis ds i frame).toNat + sumGiven axis ds (i + 1) frames := by
      simp [sumGiven, List.zipIdx_cons]
    have hmins : sumMins axis (frame :: frames) = minOf axis frame + sumMins axis frames := by
      simp [sumMins]
    have hrest := fun remaining => ih (i + 1) remaining
      (fun p hp => hdynamic p (List.mem_cons_of_mem _ hp))
      (fun p hp => hstatic p (List.mem_cons_of_mem _ hp))
    rw [hgiven, hmins, measureFrames]
    dsimp only
    split
    · next h =>
      have hfirst := hdynamic (frame, i) List.mem_cons_self h
      have := hrest remaining
      rw [sumMin, List.map_cons, List.sum_cons]
      unfold minOf at *
      dsimp only at *
      omega
    · next h =>
      have hfirst := hstatic (frame, i) List.mem_cons_self (by simpa using h)
      have := hrest (remaining - (preferredSize frame).min axis)
      dsimp only at *
      omega

def keptAt (ds : List DynamicFrame) (i : ℕ) : ℕ :=
  ((ds.find? fun d => d.index == i).map fun d => d.extent.toNat).getD 0

theorem keptAt_index (hnodup : (ds.map DynamicFrame.index).Nodup)
    (hd : d ∈ ds) : keptAt ds d.index = d.extent.toNat := by
  rw [keptAt, find_index hnodup hd]
  rfl

theorem sumGiven_eq
    (hshape : (ds.map shape).Perm ((measureFrames axis 0 frames remaining).1.map shape)) :
    sumGiven axis ds 0 frames + sumMin (measureFrames axis 0 frames remaining).1 =
      sumMins axis frames + sumExtent ds := by
  have hnodup := nodup_index hshape
  have hsum := sumGiven_add axis ds (keptAt ds) 0 frames remaining
    (fun p hp hdynamic => by
      obtain ⟨d, hd, hindex, _, _, hextent⟩ := extentOf_dynamic hshape hp hdynamic
      rw [hextent, ← hindex, keptAt_index hnodup hd])
    (fun p hp hstatic => congrArg UInt32.toNat (extentOf_static hshape hp hstatic))
  have hperm := ((perm_index hshape).map (keptAt ds)).sum_nat
  rw [List.map_map, List.map_map] at hperm
  rw [hsum, sumExtent_eq_sum, ← List.map_congr_left fun d hd => keptAt_index hnodup hd]
  exact congrArg _ hperm.symm

/-- What the loop should leave behind. -/
structure Divides (axis : Axis) (frames : List Frame) (extent : UInt32) (ds : List DynamicFrame) :
    Prop where
  least : ∀ p ∈ frames.zipIdx, minOf axis p.1 ≤ (extentOf axis ds p.2 p.1).toNat
  most : ∀ p ∈ frames.zipIdx, isDynamic axis p.1 = true →
    (extentOf axis ds p.2 p.1).toNat ≤ maxOf axis p.1
  sum_le : sumGiven axis ds 0 frames ≤ extent.toNat
  full : sumGiven axis ds 0 frames < extent.toNat → ∀ p ∈ frames.zipIdx,
    isDynamic axis p.1 = true → (extentOf axis ds p.2 p.1).toNat = maxOf axis p.1

/-- No maximum is below its minimum, as sums that overflow can be, and what the minima leave is an
`int`. -/
def Divisible (axis : Axis) (frames : List Frame) (extent : UInt32) : Prop :=
  (∀ frame ∈ frames, isDynamic axis frame = true → minOf axis frame ≤ maxOf axis frame) ∧
  (extent.toNat - sumMins axis frames < 2 ^ 31 ∨
    ∀ frame ∈ frames, isDynamic axis frame = true → minOf axis frame = maxOf axis frame)

theorem divides_of_filled (hmins : sumMins axis frames ≤ extent.toNat)
    (hshape : (r.1.map shape).Perm ((measureFrames axis 0 frames extent).1.map shape))
    (h : Filled (measureFrames axis 0 frames extent).2.toNat r.1 r.2) :
    Divides axis frames extent r.1 := by
  have hsum := sumGiven_eq hshape
  have hremaining := measureFrames_remaining (i := 0) hmins
  have htotal := h.sum
  refine ⟨?_, ?_, by omega, ?_⟩
  · intro p hp
    cases hdynamic : isDynamic axis p.1 with
    | false =>
      rw [extentOf_static hshape hp hdynamic]
      exact Nat.le_refl _
    | true =>
      obtain ⟨d, hd, _, hmin, _, hextent⟩ := extentOf_dynamic hshape hp hdynamic
      rw [hextent, ← hmin]
      exact (h.bounds d hd).1
  · intro p hp hdynamic
    obtain ⟨d, hd, _, _, hmax, hextent⟩ := extentOf_dynamic hshape hp hdynamic
    rw [hextent, ← hmax]
    exact (h.bounds d hd).2
  · intro hless p hp hdynamic
    obtain ⟨d, hd, _, _, hmax, hextent⟩ := extentOf_dynamic hshape hp hdynamic
    rw [hextent, ← hmax]
    exact h.full (by omega) d hd

theorem exists_mem_zipIdx {frame : Frame} (h : frame ∈ frames) :
    ∃ p ∈ frames.zipIdx, p.1 = frame := by
  obtain ⟨i, hi⟩ := List.mem_iff_getElem?.mp h
  exact ⟨(frame, i), List.mem_zipIdx_iff_getElem?.mpr hi, rfl⟩

theorem fst_mem_of_mem_zipIdx {p : Frame × ℕ} (h : p ∈ frames.zipIdx) : p.1 ∈ frames :=
  List.mem_of_getElem? (List.mem_zipIdx_iff_getElem?.mp h)

theorem allot_shape {turns : ℕ} (h : allot turns axis frames extent = some r) :
    (r.1.map shape).Perm ((measureFrames axis 0 frames extent).1.map shape) := by
  rw [distribute_shape h]
  exact (List.perm_insertionSort _ _).map shape

theorem bounds_of_shape (h : (ds.map shape).Perm ((measureFrames axis 0 frames extent).1.map shape))
    (hd : d ∈ ds) : ∃ frame ∈ frames, isDynamic axis frame = true ∧
      d.min.toNat = minOf axis frame ∧ d.max.toNat = maxOf axis frame := by
  obtain ⟨e, he, hshape⟩ := List.mem_map.mp (h.mem_iff.mp (List.mem_map_of_mem hd))
  obtain ⟨p, hp, hdynamic, rfl⟩ := mem_measureFrames.mp he
  obtain ⟨_, hmin, hmax⟩ : p.2 = d.index ∧ (preferredSize p.1).min axis = d.min ∧
      (preferredSize p.1).max axis = d.max := by
    simpa [shape] using hshape
  exact ⟨p.1, fst_mem_of_mem_zipIdx hp, hdynamic, by rw [← hmin]; rfl, by rw [← hmax]; rfl⟩

section Allot

variable {axis : Axis} {frames : List Frame} {extent : UInt32}
  (hmins : sumMins axis frames ≤ extent.toNat)
  (hle : ∀ frame ∈ frames, isDynamic axis frame = true → minOf axis frame ≤ maxOf axis frame)
include hmins hle

theorem sorted_frames (ds : List DynamicFrame)
    (h : ds = (measureFrames axis 0 frames extent).1.insertionSort fun a b => b.min ≤ a.min) :
    (∀ d ∈ ds, d.extent = 0) ∧ (∀ d ∈ ds, d.min.toNat ≤ d.max.toNat) ∧
    (ds.Pairwise fun a b => b.min ≤ a.min) ∧
      sumMin ds ≤ (measureFrames axis 0 frames extent).2.toNat ∧
    (measureFrames axis 0 frames extent).2.toNat - sumMin ds =
      extent.toNat - sumMins axis frames := by
  subst h
  have hperm := List.perm_insertionSort (fun a b : DynamicFrame => b.min ≤ a.min)
    (measureFrames axis 0 frames extent).1
  have hsum := sumMin_perm hperm
  have hremaining := measureFrames_remaining (i := 0) hmins
  refine ⟨?_, ?_, ?_, by omega, by omega⟩
  · intro d hd
    obtain ⟨p, _, _, rfl⟩ := mem_measureFrames.mp (hperm.mem_iff.mp hd)
    rfl
  · intro d hd
    obtain ⟨frame, hframe, hdynamic, hmin, hmax⟩ := bounds_of_shape (hperm.map shape) hd
    rw [hmin, hmax]
    exact hle frame hframe hdynamic
  · have htotal : Std.Total fun a b : DynamicFrame => b.min ≤ a.min :=
      ⟨fun a b => UInt32.le_total b.min a.min⟩
    have htrans : IsTrans DynamicFrame fun a b => b.min ≤ a.min :=
      ⟨fun _ _ _ hab hbc => UInt32.le_trans hbc hab⟩
    exact List.pairwise_insertionSort _ _

theorem allot_small (hsmall : extent.toNat - sumMins axis frames < 2 ^ 31) :
    ∃ turns r, allot turns axis frames extent = some r ∧
      Filled (measureFrames axis 0 frames extent).2.toNat r.1 r.2 := by
  obtain ⟨hz, hbounds, hsorted, hr, hexcess⟩ := sorted_frames hmins hle _ rfl
  exact distribute_small hz hbounds hsorted hr (hexcess ▸ hsmall)

theorem allot_large (hlarge : 2 ^ 31 ≤ extent.toNat - sumMins axis frames) (turns : ℕ) :
    ∃ r, allot (turns + 1) axis frames extent = some r ∧
      (∀ d ∈ r.1, d.extent.toNat = d.min.toNat) ∧
      r.2.toNat + sumExtent r.1 = (measureFrames axis 0 frames extent).2.toNat ∧
      2 ^ 31 ≤ r.2.toNat := by
  obtain ⟨hz, hbounds, hsorted, hr, hexcess⟩ := sorted_frames hmins hle _ rfl
  exact distribute_large hz hbounds hsorted hr (hexcess ▸ hlarge) turns

end Allot

/-- The loop ends with every frame between its bounds and nothing left that one could take,
exactly for such frames. -/
theorem divides_iff (axis : Axis) (frames : List Frame) (extent : UInt32)
    (hmins : sumMins axis frames ≤ extent.toNat) :
    (∃ turns r, allot turns axis frames extent = some r ∧ Divides axis frames extent r.1) ↔
      Divisible axis frames extent := by
  have hremaining := measureFrames_remaining (i := 0) hmins
  constructor
  · rintro ⟨turns, r, hr, hdivides⟩
    have hle : ∀ frame ∈ frames, isDynamic axis frame = true →
        minOf axis frame ≤ maxOf axis frame := by
      intro frame hframe hdynamic
      obtain ⟨p, hp, rfl⟩ := exists_mem_zipIdx hframe
      exact Nat.le_trans (hdivides.least p hp) (hdivides.most p hp hdynamic)
    refine ⟨hle, ?_⟩
    rcases Nat.lt_or_ge (extent.toNat - sumMins axis frames) (2 ^ 31) with hsmall | hlarge
    · exact .inl hsmall
    refine .inr fun frame hframe hdynamic => ?_
    obtain ⟨p, hp, rfl⟩ := exists_mem_zipIdx hframe
    cases turns with
    | zero => cases hr
    | succ turns =>
      obtain ⟨r', hr', hmin, htotal, hleft⟩ := allot_large hmins hle hlarge turns
      obtain rfl : r' = r := Option.some.inj (hr'.symm.trans hr)
      have hgiven := sumGiven_eq (allot_shape hr)
      obtain ⟨d, hd, _, hdmin, _, hextent⟩ := extentOf_dynamic (allot_shape hr) hp hdynamic
      have hfull := hdivides.full (by omega) p hp hdynamic
      rw [hextent, hmin d hd, hdmin] at hfull
      exact hfull
  · rintro ⟨hle, hexcess⟩
    rcases Nat.lt_or_ge (extent.toNat - sumMins axis frames) (2 ^ 31) with hsmall | hlarge
    · obtain ⟨turns, r, hr, hfilled⟩ := allot_small hmins hle hsmall
      exact ⟨turns, r, hr, divides_of_filled hmins (allot_shape hr) hfilled⟩
    · have hsame := hexcess.resolve_left (Nat.not_lt.mpr hlarge)
      obtain ⟨r, hr, hmin, htotal, _⟩ := allot_large hmins hle hlarge 0
      have hmax : ∀ d ∈ r.1, d.min.toNat = d.max.toNat := by
        intro d hd
        obtain ⟨frame, hframe, hdynamic, hdmin, hdmax⟩ := bounds_of_shape (allot_shape hr) hd
        rw [hdmin, hdmax]
        exact hsame frame hframe hdynamic
      refine ⟨1, r, hr, divides_of_filled hmins (allot_shape hr) ⟨?_, htotal, ?_⟩⟩
      · intro d hd
        exact ⟨Nat.le_of_eq (hmin d hd).symm, Nat.le_of_eq ((hmin d hd).trans (hmax d hd))⟩
      · exact fun _ d hd => (hmin d hd).trans (hmax d hd)

def listFrame : Frame := .window ⟨true, false, false, 0, 1, 0, 3⟩

theorem divides_iff_two_lists :
    sumMins .row [listFrame, listFrame] ≤ UInt32.toNat 5 ∧
    Divisible .row [listFrame, listFrame] 5 ∧
    ∃ turns r, allot turns .row [listFrame, listFrame] 5 = some r ∧
      Divides .row [listFrame, listFrame] 5 r.1 := by
  have hmins : sumMins .row [listFrame, listFrame] ≤ UInt32.toNat 5 := by decide
  have hdivisible : Divisible .row [listFrame, listFrame] 5 := by
    refine ⟨?_, .inl (by decide)⟩
    intro frame hframe _
    obtain rfl : frame = listFrame := by simpa using hframe
    decide
  exact ⟨hmins, hdivisible, (divides_iff .row [listFrame, listFrame] 5 hmins).mpr hdivisible⟩

/-- An extent with the highest bit set leaves a negative `int`, and the frame stays at its
minimum. -/
theorem large_extent_left :
    sumMins .row [listFrame] ≤ UInt32.toNat 0x80000001 ∧
    allot 1 .row [listFrame] 0x80000001 = some ([⟨0, 1, 3, 1⟩], 0x80000000) ∧
    ¬∃ turns r, allot turns .row [listFrame] 0x80000001 = some r ∧
      Divides .row [listFrame] 0x80000001 r.1 := by
  refine ⟨by decide, by decide, ?_⟩
  rintro ⟨turns, r, hr, hdivides⟩
  cases turns with
  | zero => cases hr
  | succ turns =>
    have hone : allot (turns + 1) .row [listFrame] 0x80000001 = some ([⟨0, 1, 3, 1⟩], 0x80000000) :=
      rfl
    obtain rfl : ([⟨0, 1, 3, 1⟩], 0x80000000) = r := Option.some.inj (hone.symm.trans hr)
    exact absurd (hdivides.full (by decide) (listFrame, 0) (by simp) (by decide)) (by decide)

end FrameShares
