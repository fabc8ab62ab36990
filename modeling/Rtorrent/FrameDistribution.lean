import Mathlib.Algebra.Group.Int.Defs
import Rtorrent.DisplayFrames

/-! # The loop that divides an extent

The loop ends when the least extents of all windows together can be named by an `int`. After the
first turn no extent gets smaller. -/
namespace FrameDistribution

open DisplayFrames
open FallibleRuns (except_bind_ok)

def signed (v : UInt32) : ℤ := if v.toNat < 2 ^ 31 then v.toNat else v.toNat - 2 ^ 32

theorem signed_lt (v : UInt32) : signed v < 2 ^ 31 := by
  have := v.toNat_lt
  rw [signed]
  split <;> omega

theorem isPositive_iff_signed (v : UInt32) : isPositive v = true ↔ 0 < signed v := by
  have := v.toNat_lt
  have hz : UInt32.toNat 0 = 0 := rfl
  have hm : UInt32.toNat 0x80000000 = 2 ^ 31 := rfl
  rw [isPositive, decide_eq_true_iff, UInt32.lt_iff_toNat_lt, UInt32.lt_iff_toNat_lt, hz, hm,
    signed]
  split <;> omega

theorem toNat_of_signed {v : UInt32} (h : 0 < signed v) : (v.toNat : ℤ) = signed v := by
  have := v.toNat_lt
  rw [signed] at h ⊢
  split at h <;> split <;> omega

theorem signed_sub {v e : UInt32} (h : -2 ^ 31 ≤ signed v - e.toNat) :
    signed (v - e) = signed v - e.toNat := by
  have hv := v.toNat_lt
  have he := e.toNat_lt
  simp only [signed, UInt32.toNat_sub] at h ⊢
  split at h <;> split <;> omega

theorem toNat_ite (a b c d : UInt32) :
    (if a < b then c else d).toNat = d.toNat ∧ b.toNat ≤ a.toNat ∨
    (if a < b then c else d).toNat = c.toNat ∧ a.toNat ≤ b.toNat := by
  split
  · next h => exact .inr ⟨rfl, Nat.le_of_lt (UInt32.lt_iff_toNat_lt.mp h)⟩
  · next h => exact .inl ⟨rfl, Nat.le_of_not_lt fun hlt => h (UInt32.lt_iff_toNat_lt.mpr hlt)⟩

theorem toNat_larger (a b : UInt32) : (larger a b).toNat = a.toNat ∧ b.toNat ≤ a.toNat ∨
    (larger a b).toNat = b.toNat ∧ a.toNat ≤ b.toNat := toNat_ite a b b a

theorem toNat_smaller (a b : UInt32) : (smaller a b).toNat = a.toNat ∧ a.toNat ≤ b.toNat ∨
    (smaller a b).toNat = b.toNat ∧ b.toNat ≤ a.toNat := toNat_ite b a b a

theorem share_le (space count : ℕ) (h : 0 < count) : (space + count - 1) / count ≤ space := by
  cases space with
  | zero => rw [Nat.div_eq_of_lt (by omega)]
  | succ n =>
    have := Nat.le_mul_of_pos_left n h
    apply Nat.div_le_of_le_mul
    rw [Nat.mul_succ]
    omega

theorem space_eq (remaining : UInt32) :
    (if isPositive remaining then remaining.toNat else 0) = (signed remaining).toNat := by
  have := remaining.toNat_lt
  split
  · next h =>
    rw [isPositive_iff_signed, signed] at h
    rw [signed]
    split at h <;> omega
  · next h =>
    rw [isPositive_iff_signed] at h
    omega

theorem adjust_clamps (remaining : UInt32) {count : ℕ} (d : DynamicFrame) (hcount : 0 < count)
    (h : d.extent.toNat + (signed remaining).toNat < 2 ^ 32) : ∃ wanted,
      wanted = max (d.extent.toNat + ((signed remaining).toNat + count - 1) / count) d.min.toNat ∧
      ((adjust remaining count d).toNat = wanted ∧ wanted ≤ d.max.toNat ∨
        (adjust remaining count d).toNat = d.max.toNat ∧ d.max.toNat ≤ wanted) := by
  have hshare := share_le (signed remaining).toNat count hcount
  rw [adjust, space_eq]
  generalize ((signed remaining).toNat + count - 1) / count = share at hshare ⊢
  have hsum : (UInt32.ofNat share + d.extent).toNat = d.extent.toNat + share := by
    rw [UInt32.toNat_add, UInt32.toNat_ofNat']
    omega
  have hlarger := toNat_larger (UInt32.ofNat share + d.extent) d.min
  have hsmaller := toNat_smaller (larger (UInt32.ofNat share + d.extent) d.min) d.max
  exact ⟨_, by omega, hsmaller⟩

theorem space_small {remaining : UInt32} (h : remaining.toNat < 2 ^ 31) :
    (signed remaining).toNat = remaining.toNat := by
  rw [signed, if_pos h, Int.toNat_natCast]

theorem toNat_sub_extent {remaining extent : UInt32} (h : extent.toNat ≤ remaining.toNat) :
    (remaining - extent).toNat = remaining.toNat - extent.toNat :=
  UInt32.toNat_sub_of_le _ _ (UInt32.le_iff_toNat_le.mpr h)

def sumMin : List DynamicFrame → ℕ
  | [] => 0
  | d :: ds => d.min.toNat + sumMin ds

def sumExtent : List DynamicFrame → ℕ
  | [] => 0
  | d :: ds => d.extent.toNat + sumExtent ds

/-- The extent is within its bounds, or is the maximum that is below the minimum. -/
def Steady (d : DynamicFrame) : Prop :=
  d.extent.toNat ≤ d.max.toNat ∧ (d.min.toNat ≤ d.extent.toNat ∨ d.extent.toNat = d.max.toNat)

variable {ds : List DynamicFrame} {remaining : UInt32}

theorem adjustAll_first (hz : ∀ d ∈ ds, d.extent = 0)
    (hr : -2 ^ 31 ≤ signed remaining - sumMin ds) (hm : sumMin ds ≤ 2 ^ 31) :
    (∀ d ∈ (adjustAll ds remaining).1, Steady d) ∧
      signed (adjustAll ds remaining).2.1 + sumExtent (adjustAll ds remaining).1 =
        signed remaining := by
  induction ds generalizing remaining with
  | nil => simp [adjustAll, sumExtent]
  | cons d ds ih =>
    have hextent : d.extent = 0 := hz d List.mem_cons_self
    have hlt := signed_lt remaining
    rw [sumMin] at hr hm
    have hshare := share_le (signed remaining).toNat (ds.length + 1) (Nat.succ_pos _)
    obtain ⟨wanted, hwanted, hadjust⟩ := adjust_clamps remaining d
      (show 0 < ds.length + 1 by omega) (by rw [hextent, UInt32.toNat_zero]; omega)
    rw [hextent, UInt32.toNat_zero] at hwanted
    have hfall : signed (remaining - adjust remaining (ds.length + 1) d) =
        signed remaining - (adjust remaining (ds.length + 1) d).toNat :=
      signed_sub (by omega)
    have hrest := @ih (remaining - adjust remaining (ds.length + 1) d)
      (fun e he => hz e (List.mem_cons_of_mem _ he)) (by omega) (by omega)
    rw [adjustAll, hextent, UInt32.sub_zero]
    constructor
    · intro e he
      rcases List.mem_cons.mp he with rfl | he
      · simp only [Steady]
        omega
      · exact hrest.1 e he
    · rw [sumExtent]
      dsimp only
      omega

/-- A later turn, for what is kept when an extent grows up to its maximum. -/
theorem adjustAll_grows {P : DynamicFrame → Prop} (hsteady : ∀ d, P d → Steady d)
    (hgrow : ∀ d extent, P d → d.extent.toNat ≤ extent.toNat → extent.toNat ≤ d.max.toNat →
      P { d with extent := extent })
    (hin : ∀ d ∈ ds, P d) (hr : remaining.toNat < 2 ^ 31)
    (hsum : remaining.toNat + sumExtent ds < 2 ^ 32) :
    (∀ d ∈ (adjustAll ds remaining).1, P d) ∧
    (adjustAll ds remaining).2.1.toNat + sumExtent (adjustAll ds remaining).1 =
      remaining.toNat + sumExtent ds ∧
    (adjustAll ds remaining).2.1.toNat ≤ remaining.toNat ∧
    ((adjustAll ds remaining).2.2 = true →
      (adjustAll ds remaining).2.1.toNat < remaining.toNat) := by
  induction ds generalizing remaining with
  | nil => exact ⟨by simp [adjustAll], rfl, Nat.le_refl _, by simp [adjustAll]⟩
  | cons d ds ih =>
    have hd := hsteady d (hin d List.mem_cons_self)
    unfold Steady at hd
    rw [sumExtent] at hsum
    have hshare := share_le remaining.toNat (ds.length + 1) (Nat.succ_pos _)
    obtain ⟨wanted, hwanted, hadjust⟩ := adjust_clamps remaining d
      (show 0 < ds.length + 1 from Nat.succ_pos _) (by rw [space_small hr]; omega)
    rw [space_small hr] at hwanted
    generalize (remaining.toNat + (ds.length + 1) - 1) / (ds.length + 1) = share at hshare hwanted
    generalize hgiven : adjust remaining (ds.length + 1) d = given at *
    have hmore : (given - d.extent).toNat = given.toNat - d.extent.toNat :=
      toNat_sub_extent (by omega)
    have hnext : (remaining - (given - d.extent)).toNat =
        remaining.toNat - (given.toNat - d.extent.toNat) := by
      rw [toNat_sub_extent (by omega), hmore]
    obtain ⟨hrest, htotal, hle, hlt⟩ := @ih (remaining - (given - d.extent))
      (fun e he => hin e (List.mem_cons_of_mem _ he)) (by omega) (by omega)
    have hfirst := hgrow d given (hin d List.mem_cons_self) (by omega) (by omega)
    simp only [adjustAll, hgiven, sumExtent, List.mem_cons, forall_eq_or_imp, Bool.or_eq_true,
      bne_iff_ne]
    refine ⟨⟨hfirst, hrest⟩, by omega, by omega, ?_⟩
    rintro (hne | hchanged)
    · have := mt UInt32.toNat_inj.mp hne
      omega
    · have := hlt hchanged
      omega

theorem steady_grows {d : DynamicFrame} {extent : UInt32} (h : Steady d)
    (hleast : d.extent.toNat ≤ extent.toNat) (hmost : extent.toNat ≤ d.max.toNat) :
    Steady { d with extent := extent } := by
  unfold Steady at *
  dsimp only
  omega

theorem distribute_steady {turns : ℕ} (hs : ∀ d ∈ ds, Steady d) (hr : remaining.toNat < 2 ^ 31)
    (hm : remaining.toNat + sumExtent ds < 2 ^ 32) (ht : remaining.toNat < turns) :
    ∃ r, distribute turns ds remaining = some r := by
  induction turns generalizing ds remaining with
  | zero => omega
  | succ turns ih =>
    obtain ⟨hsteady, hsum, hle, hlt⟩ :=
      adjustAll_grows (fun _ h => h) (fun _ _ => steady_grows) hs hr hm
    rw [distribute]
    split
    · next hretry =>
      rw [Bool.and_eq_true] at hretry
      have := hlt hretry.1
      exact ih hsteady (by omega) (by omega) (by omega)
    · exact ⟨_, rfl⟩

theorem distribute_ends {turns : ℕ}
    (hz : ∀ d ∈ ds, d.extent = 0) (hr : -2 ^ 31 ≤ signed remaining - sumMin ds)
    (hm : sumMin ds ≤ 2 ^ 31) (ht : 2 ^ 31 < turns) :
    ∃ r, distribute turns ds remaining = some r := by
  obtain ⟨hsteady, hsum⟩ := adjustAll_first hz hr hm
  have hlt := signed_lt remaining
  cases turns with
  | zero => omega
  | succ turns =>
    rw [distribute]
    split
    · next hretry =>
      rw [Bool.and_eq_true, isPositive_iff_signed] at hretry
      have hless := signed_lt (adjustAll ds remaining).2.1
      have hsmall := toNat_of_signed hretry.2
      exact distribute_steady hsteady (by omega) (by omega) (by omega)
    · exact ⟨_, rfl⟩

def Window.min : Axis → Window → ℕ
  | .row, w => w.mMinHeight.toNat
  | .column, w => w.mMinWidth.toNat

mutual

def total (axis : Axis) : Frame → ℕ
  | .none => 0
  | .window w => if w.active then Window.min axis w else 0
  | .container _ frames => totals axis frames

def totals (axis : Axis) : List Frame → ℕ
  | [] => 0
  | frame :: frames => total axis frame + totals axis frames

end

theorem add_min (axis : Axis) (accum p : Bounds) :
    ((accum.add p).min axis).toNat ≤ (accum.min axis).toNat + (p.min axis).toNat := by
  cases axis with
  | row =>
    simp only [Bounds.min, Bounds.add, UInt32.toNat_add]
    exact Nat.mod_le _ _
  | column =>
    simp only [Bounds.min, Bounds.add, UInt32.toNat_add]
    exact Nat.mod_le _ _

mutual

theorem preferredSize_le (axis : Axis) : ∀ frame : Frame,
    ((preferredSize frame).min axis).toNat ≤ total axis frame
  | .none => by
    cases axis <;> simp [preferredSize, Bounds.min]
  | .window w => by
    rw [preferredSize, total]
    split
    · cases axis <;> exact Nat.le_refl _
    · cases axis <;> simp [Bounds.min]
  | .container _ frames => by
    have h := preferredSizes_le axis ⟨0, 0, 0, 0⟩ frames
    rw [preferredSize, total]
    cases axis <;> simpa [Bounds.min] using h

theorem preferredSizes_le (axis : Axis) : ∀ (accum : Bounds) (frames : List Frame),
    ((preferredSizes accum frames).min axis).toNat ≤ (accum.min axis).toNat + totals axis frames
  | accum, [] => by
    rw [preferredSizes, totals]
    exact Nat.le_refl _
  | accum, frame :: frames => by
    have hrest := preferredSizes_le axis (accum.add (preferredSize frame)) frames
    have hfirst := preferredSize_le axis frame
    have hadd := add_min axis accum (preferredSize frame)
    rw [preferredSizes, totals]
    omega

end

theorem measureFrames_spec (axis : Axis) (i : ℕ) (frames : List Frame) (remaining : UInt32)
    (h : -2 ^ 31 ≤ signed remaining - totals axis frames) :
    (∀ d ∈ (measureFrames axis i frames remaining).1, d.extent = 0) ∧
      sumMin (measureFrames axis i frames remaining).1 ≤ totals axis frames ∧
      signed remaining - totals axis frames ≤
        signed (measureFrames axis i frames remaining).2 -
          sumMin (measureFrames axis i frames remaining).1 := by
  induction frames generalizing i remaining with
  | nil => simp [measureFrames, sumMin, totals]
  | cons frame frames ih =>
    have hmin := preferredSize_le axis frame
    rw [totals] at h ⊢
    rw [measureFrames]
    dsimp only
    split
    · obtain ⟨hz, hsum, hrest⟩ := ih (i + 1) remaining (by omega)
      refine ⟨?_, ?_, ?_⟩
      · intro d hd
        rcases List.mem_cons.mp hd with rfl | hd
        · rfl
        · exact hz d hd
      · rw [sumMin]
        dsimp only
        omega
      · rw [sumMin]
        dsimp only
        omega
    · have hfall : signed (remaining - (preferredSize frame).min axis) =
          signed remaining - ((preferredSize frame).min axis).toNat := signed_sub (by omega)
      obtain ⟨hz, hsum, hrest⟩ := ih (i + 1) (remaining - (preferredSize frame).min axis)
        (by omega)
      exact ⟨hz, by omega, by omega⟩

theorem sumMin_perm {ds' : List DynamicFrame} (h : ds.Perm ds') : sumMin ds = sumMin ds' := by
  induction h with
  | nil => rfl
  | cons d _ ih => rw [sumMin, sumMin, ih]
  | swap d d' ds => simp only [sumMin]; omega
  | trans _ _ ih ih' => exact ih.trans ih'

theorem allot_ends {turns : ℕ} {axis : Axis} {frames : List Frame} {extent : UInt32}
    (he : extent.toNat < 2 ^ 31) (hm : totals axis frames ≤ 2 ^ 31) (ht : 2 ^ 31 < turns) :
    ∃ r, allot turns axis frames extent = some r := by
  have hsigned : signed extent = extent.toNat := by
    rw [signed, if_pos he]
  obtain ⟨hz, hsum, hrest⟩ := measureFrames_spec axis 0 frames extent (by omega)
  have hperm := List.perm_insertionSort (fun a b => b.min ≤ a.min)
    (measureFrames axis 0 frames extent).1
  rw [allot]
  have hsorted := sumMin_perm hperm
  exact distribute_ends (fun d hd => hz d (hperm.mem_iff.mp hd)) (by omega) (by omega) ht

theorem extent_lt (axis : Axis) {a : Area} (h : a.Fits) : (a.extent axis).toNat < 2 ^ 31 := by
  obtain ⟨hx, hy⟩ := h
  cases axis with
  | row =>
    rw [Area.extent]
    omega
  | column =>
    rw [Area.extent]
    omega

mutual

theorem areas_end {turns : ℕ} (ht : 2 ^ 31 < turns) {q : Window → Bool} : ∀ {frame : Frame}
    {a : Area}, a.Fits → (∀ axis, total axis frame ≤ 2 ^ 31) → anyActive q frame = false →
    ∃ ps, areas turns frame a = .ok ps ∧ ∀ p ∈ ps, p.1.active = true → q p.1 = false
  | .none, a, _, _, _ => ⟨[], by rw [areas, walk], by simp⟩
  | .window w, a, _, _, hq => by
    refine ⟨[(w, a)], by rw [areas, walk]; rfl, fun p hp hactive => ?_⟩
    rw [List.mem_singleton.mp hp] at hactive ⊢
    rwa [anyActive, hactive, Bool.true_and] at hq
  | .container axis frames, a, ha, hm, hq => by
    simp only [total] at hm
    rw [anyActive] at hq
    obtain ⟨r, hr⟩ := allot_ends (extent_lt axis ha) (hm axis) ht
    rw [areas, walk, hr]
    exact walkFrames_end ht ha hm hq

theorem walkFrames_end {turns : ℕ} (ht : 2 ^ 31 < turns) {q : Window → Bool} : ∀ {axis : Axis}
    {ds : List DynamicFrame} {i : ℕ} {frames : List Frame} {remaining : UInt32} {a : Area},
    a.Fits → (∀ axis, totals axis frames ≤ 2 ^ 31) → anyFrame q frames = false →
    ∃ ps, walkFrames (fun w a => .ok (w, a)) turns axis ds i frames remaining a = .ok ps ∧
      ∀ p ∈ ps, p.1.active = true → q p.1 = false
  | axis, ds, i, [], remaining, a, _, _, _ => ⟨[], by rw [walkFrames], by simp⟩
  | axis, ds, i, frame :: frames, remaining, a, ha, hm, hq => by
    simp only [totals] at hm
    rw [anyFrame, Bool.or_eq_false_iff] at hq
    obtain ⟨⟨hfirst, -⟩, ⟨hrest, -⟩, -⟩ := divide_spec _ axis ha
    obtain ⟨ps₁, h₁, hq₁⟩ := areas_end ht hfirst (fun axis => Nat.le_of_add_right_le (hm axis)) hq.1
    obtain ⟨ps₂, h₂, hq₂⟩ :=
      walkFrames_end ht hrest (fun axis => Nat.le_of_add_left_le (hm axis)) hq.2
    refine ⟨ps₁ ++ ps₂, ?_, fun p hp => ?_⟩
    · simp only [walkFrames, except_bind_ok]
      exact ⟨ps₁, h₁, ps₂, h₂, rfl⟩
    · rcases List.mem_append.mp hp with hp | hp
      · exact hq₁ p hp
      · exact hq₂ p hp

end

def Window.isEmpty (w : Window) : Bool := w.maxWidth == 0 || w.maxHeight == 0

theorem isEmpty_eq_false_iff (w : Window) :
    Window.isEmpty w = false ↔ 0 < w.maxWidth ∧ 0 < w.maxHeight := by
  rw [Window.isEmpty, Bool.or_eq_false_iff, beq_eq_false_iff_ne, beq_eq_false_iff_ne,
    pos_iff_ne_zero, pos_iff_ne_zero]

theorem laidOut_of_nonempty {frame : Frame} {screen : Area} {q : Window → Bool}
    (hf : screen.Fits) (hm : ∀ axis, total axis frame ≤ 2 ^ 31) (hq : anyActive q frame = false)
    (hw : ∀ w : Window, w.active = true → q w = false → Window.isEmpty w = false) :
    ∃ turns rectangles, balance turns frame screen = .ok rectangles ∧
      LaidOut screen rectangles := by
  obtain ⟨ps, hps, hshown⟩ := areas_end (Nat.lt_succ_self (2 ^ 31)) hf hm hq
  have hshow : ∀ p ∈ ps, Showable p.1 p.2 := fun p hp hactive _ _ =>
    (isEmpty_eq_false_iff p.1).mp (hw p.1 hactive (hshown p hp hactive))
  obtain ⟨rectangles, hb, hlaid⟩ := balance_of_showable hf hps hshow
  exact ⟨_, rectangles, hb, hlaid⟩

/-- A frame whose windows ask for less than an `int` can name and can all be shown is always
laid out. -/
theorem balance_modest {frame : Frame} {width height : UInt32} (hw : width.toNat < 2 ^ 31)
    (hh : height.toNat < 2 ^ 31) (hm : ∀ axis, total axis frame ≤ 2 ^ 31)
    (he : anyActive Window.isEmpty frame = false) :
    ∃ turns rectangles, balance turns frame ⟨0, 0, width, height⟩ = .ok rectangles ∧
      LaidOut ⟨0, 0, width, height⟩ rectangles :=
  laidOut_of_nonempty (fits_screen hw hh) hm he fun _ _ h => h

theorem nested_modest : ∃ turns rectangles,
    balance turns (.container .column [titleAndList, .window (plainWindow 9 1 9 1)])
      ⟨0, 0, 80, 24⟩ = .ok rectangles ∧ LaidOut ⟨0, 0, 80, 24⟩ rectangles :=
  balance_modest (by decide) (by decide) (by rintro (_ | _) <;> decide) (by decide)

end FrameDistribution
