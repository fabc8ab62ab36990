import Mathlib.Algebra.Group.Nat.Defs
import Mathlib.Data.List.Sort
import Mathlib.Dynamics.PeriodicPts.Defs
import Rtorrent.FallibleRuns
import Rtorrent.SetPackings

/-! # The frames of the display

A row divides the height of its area among its frames and a column the width. Extents and
positions have 32 bits, and what remains is the same bits read as an `int`. -/
namespace DisplayFrames

open SetPackings
open FallibleRuns (except_bind_ok)

def extentFull : UInt32 := 0xffffffff

/-- `std::min`. -/
def smaller (a b : UInt32) : UInt32 := if b < a then b else a

/-- `std::max`. -/
def larger (a b : UInt32) : UInt32 := if a < b then b else a

structure Window where
  active : Bool
  left : Bool
  bottom : Bool
  mMinWidth : UInt32
  mMinHeight : UInt32
  mMaxWidth : UInt32
  mMaxHeight : UInt32
  deriving DecidableEq, Repr

namespace Window

def isWidthDynamic (w : Window) : Bool := decide (w.mMinWidth < w.mMaxWidth)
def isHeightDynamic (w : Window) : Bool := decide (w.mMinHeight < w.mMaxHeight)

def maxWidth (w : Window) : UInt32 := larger w.mMaxWidth w.mMinWidth
def maxHeight (w : Window) : UInt32 := larger w.mMaxHeight w.mMinHeight

end Window

inductive Axis where
  | row
  | column
  deriving DecidableEq, Repr

inductive Frame where
  | none
  | window (w : Window)
  | container (axis : Axis) (frames : List Frame)
  deriving Repr

mutual

def anyActive (p : Window → Bool) : Frame → Bool
  | .none => false
  | .window w => w.active && p w
  | .container _ frames => anyFrame p frames

def anyFrame (p : Window → Bool) : List Frame → Bool
  | [] => false
  | frame :: frames => anyActive p frame || anyFrame p frames

end

def isWidthDynamic : Frame → Bool := anyActive Window.isWidthDynamic
def isHeightDynamic : Frame → Bool := anyActive Window.isHeightDynamic

mutual

/-- The containers that divide the other extent are not searched. -/
def hasAlong (axis : Axis) (p : Window → Bool) : Frame → Bool
  | .none => false
  | .window w => w.active && p w
  | .container axis' frames => axis' = axis && anyAlong axis p frames

def anyAlong (axis : Axis) (p : Window → Bool) : List Frame → Bool
  | [] => false
  | frame :: frames => hasAlong axis p frame || anyAlong axis p frames

end

def hasLeftFrame : Frame → Bool := hasAlong .column Window.left
def hasBottomFrame : Frame → Bool := hasAlong .row Window.bottom

structure Bounds where
  minWidth : UInt32
  minHeight : UInt32
  maxWidth : UInt32
  maxHeight : UInt32
  deriving DecidableEq, Repr

def addMax (accum p : UInt32) : UInt32 :=
  if p = extentFull ∨ accum = extentFull then extentFull else accum + p

def Bounds.add (accum p : Bounds) : Bounds where
  minWidth := accum.minWidth + p.minWidth
  minHeight := accum.minHeight + p.minHeight
  maxWidth := addMax accum.maxWidth p.maxWidth
  maxHeight := addMax accum.maxHeight p.maxHeight

mutual

def preferredSize : Frame → Bounds
  | .none => ⟨0, 0, 0, 0⟩
  | .window w =>
    if w.active then ⟨w.mMinWidth, w.mMinHeight, w.maxWidth, w.maxHeight⟩ else ⟨0, 0, 0, 0⟩
  | .container _ frames => preferredSizes ⟨0, 0, 0, 0⟩ frames

def preferredSizes (accum : Bounds) : List Frame → Bounds
  | [] => accum
  | frame :: frames => preferredSizes (accum.add (preferredSize frame)) frames

end

/-- The bits are those of an `int` above zero. -/
def isPositive (remaining : UInt32) : Bool := decide (0 < remaining ∧ remaining < 0x80000000)

def isDynamic : Axis → Frame → Bool
  | .row => isHeightDynamic
  | .column => isWidthDynamic

def hasShifted : Axis → Frame → Bool
  | .row => hasBottomFrame
  | .column => hasLeftFrame

def Bounds.min : Axis → Bounds → UInt32
  | .row, b => b.minHeight
  | .column, b => b.minWidth

def Bounds.max : Axis → Bounds → UInt32
  | .row, b => b.maxHeight
  | .column, b => b.maxWidth

/-- An element of `dynamicFrames`, with the extent that is kept in the frame at this index. -/
structure DynamicFrame where
  index : ℕ
  min : UInt32
  max : UInt32
  extent : UInt32
  deriving DecidableEq, Repr

def measureFrames (axis : Axis) : ℕ → List Frame → UInt32 → List DynamicFrame × UInt32
  | _, [], remaining => ([], remaining)
  | i, frame :: frames, remaining =>
    let bounds := preferredSize frame
    if isDynamic axis frame then
      let rest := measureFrames axis (i + 1) frames remaining
      (⟨i, bounds.min axis, bounds.max axis, 0⟩ :: rest.1, rest.2)
    else measureFrames axis (i + 1) frames (remaining - bounds.min axis)

/-- `count` is the number of dynamic frames from this one on. -/
def adjust (remaining : UInt32) (count : ℕ) (d : DynamicFrame) : UInt32 :=
  let space := if isPositive remaining then remaining.toNat else 0
  let adjust := UInt32.ofNat ((space + count - 1) / count) + d.extent
  smaller (larger adjust d.min) d.max

/-- The `for` loop: the dynamic frames, what remains and whether an extent has changed. -/
def adjustAll : List DynamicFrame → UInt32 → List DynamicFrame × UInt32 × Bool
  | [], remaining => ([], remaining, false)
  | d :: ds, remaining =>
    let extent := adjust remaining (ds.length + 1) d
    let rest := adjustAll ds (remaining - (extent - d.extent))
    ({ d with extent } :: rest.1, rest.2.1, d.extent != extent || rest.2.2)

/-- The `do` loop, with at most this many turns. -/
def distribute : ℕ → List DynamicFrame → UInt32 → Option (List DynamicFrame × UInt32)
  | 0, _, _ => none
  | turns + 1, ds, remaining =>
    let next := adjustAll ds remaining
    if next.2.2 && isPositive next.2.1 then distribute turns next.1 next.2.1
    else some (next.1, next.2.1)

def allot (turns : ℕ) (axis : Axis) (frames : List Frame) (extent : UInt32) :
    Option (List DynamicFrame × UInt32) :=
  let first := measureFrames axis 0 frames extent
  distribute turns (first.1.insertionSort fun a b => b.min ≤ a.min) first.2

def extentOf (axis : Axis) (ds : List DynamicFrame) (i : ℕ) (frame : Frame) : UInt32 :=
  match ds.find? fun d => d.index == i with
  | some d => d.extent
  | none => (preferredSize frame).min axis

structure Area where
  x : UInt32
  y : UInt32
  width : UInt32
  height : UInt32
  deriving DecidableEq, Repr

def Area.extent : Axis → Area → UInt32
  | .row, a => a.height
  | .column, a => a.width

def Area.first (extent : UInt32) : Axis → Area → Area
  | .row, a => { a with height := smaller extent a.height }
  | .column, a => { a with width := smaller extent a.width }

/-- What is left, where `balance` has cut the extent of the frame down to what it took. -/
def Area.rest (extent : UInt32) : Axis → Area → Area
  | .row, a =>
    let taken := smaller extent a.height
    { a with y := a.y + taken, height := a.height - smaller a.height taken }
  | .column, a =>
    let taken := smaller extent a.width
    { a with x := a.x + taken, width := a.width - smaller a.width taken }

inductive Failure where
  | logicError (what : String)
  | outOfTurns
  deriving DecidableEq, Repr

def resize (a : Area) : Except Failure Area :=
  if 0x80000000 ≤ a.x ∨ 0x80000000 ≤ a.y then
    .error (.logicError "Window::resize(...) bad x or y position")
  else if ¬isPositive a.width ∨ ¬isPositive a.height then
    .error (.logicError "Window::resize(...) bad size")
  else .ok a

def fit (position extent max : UInt32) (far : Bool) : UInt32 × UInt32 :=
  if max < extent then (if far then position + (extent - max) else position, max)
  else (position, extent)

def rectangle (w : Window) (a : Area) : Area :=
  let horizontal := fit a.x a.width w.maxWidth w.left
  let vertical := fit a.y a.height w.maxHeight w.bottom
  ⟨horizontal.1, vertical.1, horizontal.2, vertical.2⟩

/-- There is no rectangle for a window that is offscreen. -/
def balanceWindow (w : Window) (a : Area) : Except Failure (Option Area) :=
  if a.width = 0 ∨ a.height = 0 ∨ ¬w.active then .ok none
  else (resize (rectangle w a)).map some

section

variable {β : Type} (leaf : Window → Area → Except Failure β) (turns : ℕ)

mutual

def walk : Frame → Area → Except Failure (List β)
  | .none, _ => .ok []
  | .window w, a => do
    let b ← leaf w a
    .ok [b]
  | .container axis frames, a =>
    match allot turns axis frames (a.extent axis) with
    | none => .error .outOfTurns
    | some (ds, remaining) => walkFrames axis ds 0 frames remaining a

def walkFrames (axis : Axis) (ds : List DynamicFrame) :
    ℕ → List Frame → UInt32 → Area → Except Failure (List β)
  | _, [], _, _ => .ok []
  | i, frame :: frames, remaining, a => do
    -- The space that remains may be put before the windows of this frame.
    let shifts := isPositive remaining && hasShifted axis frame
    let extent := extentOf axis ds i frame + if shifts then remaining else 0
    let first ← walk frame (a.first extent axis)
    let rest ← walkFrames axis ds (i + 1) frames (if shifts then 0 else remaining)
      (a.rest extent axis)
    .ok (first ++ rest)

end

end

def balance : ℕ → Frame → Area → Except Failure (List (Option Area)) := walk balanceWindow

def areas : ℕ → Frame → Area → Except Failure (List (Window × Area)) := walk fun w a => .ok (w, a)

def Area.cells (a : Area) : Set (ℕ × ℕ) :=
  { c | (a.x.toNat ≤ c.1 ∧ c.1 < a.x.toNat + a.width.toNat) ∧
    a.y.toNat ≤ c.2 ∧ c.2 < a.y.toNat + a.height.toNat }

/-- The area ends where an `int` can still name the position. -/
def Area.Fits (a : Area) : Prop :=
  a.x.toNat + a.width.toNat < 2 ^ 31 ∧ a.y.toNat + a.height.toNat < 2 ^ 31

theorem smaller_le_right (a b : UInt32) : (smaller a b).toNat ≤ b.toNat := by
  rw [smaller]
  split
  · exact Nat.le_refl _
  · next h => exact Nat.le_of_not_lt fun hlt => h (UInt32.lt_iff_toNat_lt.mpr hlt)

theorem smaller_of_ge {a b : UInt32} (h : b.toNat ≤ a.toNat) : smaller a b = b := by
  rw [smaller]
  split
  · rfl
  · next hlt =>
    exact UInt32.toNat_inj.mp (Nat.le_antisymm
      (Nat.le_of_not_lt fun hb => hlt (UInt32.lt_iff_toNat_lt.mpr hb)) h)

variable {position extent : UInt32}

theorem cut_toNat {part : UInt32} (hp : part.toNat ≤ extent.toNat)
    (hf : position.toNat + extent.toNat < 2 ^ 31) :
    (position + part).toNat = position.toNat + part.toNat ∧
      (extent - part).toNat = extent.toNat - part.toNat := by
  constructor
  · rw [UInt32.toNat_add, Nat.mod_eq_of_lt (by omega)]
  · rw [UInt32.toNat_sub_of_le _ _ (UInt32.le_iff_toNat_le.mpr hp)]

variable {a : Area}

theorem mem_cells {c : ℕ × ℕ} :
    c ∈ a.cells ↔ (a.x.toNat ≤ c.1 ∧ c.1 < a.x.toNat + a.width.toNat) ∧
      a.y.toNat ≤ c.2 ∧ c.2 < a.y.toNat + a.height.toNat := Iff.rfl

theorem divide_spec (extent : UInt32) (axis : Axis) (h : a.Fits) :
    ((a.first extent axis).Fits ∧ (a.first extent axis).cells ⊆ a.cells) ∧
      ((a.rest extent axis).Fits ∧ (a.rest extent axis).cells ⊆ a.cells) ∧
      Disjoint (a.first extent axis).cells (a.rest extent axis).cells := by
  cases axis with
  | row =>
    have hle := smaller_le_right extent a.height
    obtain ⟨hposition, hextent⟩ := cut_toNat hle h.2
    simp only [Area.first, Area.rest, smaller_of_ge hle, Area.Fits, Set.subset_def,
      Set.disjoint_left, mem_cells, hposition, hextent] at h ⊢
    refine ⟨⟨⟨h.1, by omega⟩, ?_⟩, ⟨⟨h.1, by omega⟩, ?_⟩, ?_⟩ <;> intro c hc <;> omega
  | column =>
    have hle := smaller_le_right extent a.width
    obtain ⟨hposition, hextent⟩ := cut_toNat hle h.1
    simp only [Area.first, Area.rest, smaller_of_ge hle, Area.Fits, Set.subset_def,
      Set.disjoint_left, mem_cells, hposition, hextent] at h ⊢
    refine ⟨⟨⟨by omega, h.2⟩, ?_⟩, ⟨⟨by omega, h.2⟩, ?_⟩, ?_⟩ <;> intro c hc <;> omega

section

variable {β : Type} {leaf : Window → Area → Except Failure β} {turns : ℕ}

mutual

theorem walk_ok_iff : ∀ {frame : Frame} {a : Area} {bs : List β},
    walk leaf turns frame a = .ok bs ↔
      ∃ ps, areas turns frame a = .ok ps ∧ List.Forall₂ (fun p b => leaf p.1 p.2 = .ok b) ps bs
  | .none, a, bs => by
    simp [areas, walk, eq_comm]
  | .window w, a, bs => by
    simp only [areas, walk, except_bind_ok, Except.ok.injEq]
    constructor
    · rintro ⟨b, hb, rfl⟩
      exact ⟨[(w, a)], ⟨_, rfl, rfl⟩, .cons hb .nil⟩
    · rintro ⟨_, ⟨_, rfl, rfl⟩, hbs⟩
      cases hbs with
      | cons hb hnil =>
        cases hnil
        exact ⟨_, hb, rfl⟩
  | .container axis frames, a, bs => by
    simp only [areas, walk]
    cases allot turns axis frames (a.extent axis) with
    | none => simp
    | some r => exact walkFrames_ok_iff

theorem walkFrames_ok_iff : ∀ {axis : Axis} {ds : List DynamicFrame} {i : ℕ} {frames : List Frame}
    {remaining : UInt32} {a : Area} {bs : List β},
    walkFrames leaf turns axis ds i frames remaining a = .ok bs ↔
      ∃ ps, walkFrames (fun w a => .ok (w, a)) turns axis ds i frames remaining a = .ok ps ∧
        List.Forall₂ (fun p b => leaf p.1 p.2 = .ok b) ps bs
  | axis, ds, i, [], remaining, a, bs => by
    simp [walkFrames, eq_comm]
  | axis, ds, i, frame :: frames, remaining, a, bs => by
    simp only [walkFrames, except_bind_ok, Except.ok.injEq]
    constructor
    · rintro ⟨bs₁, h₁, bs₂, h₂, rfl⟩
      obtain ⟨ps₁, hp₁, hf₁⟩ := walk_ok_iff.mp h₁
      obtain ⟨ps₂, hp₂, hf₂⟩ := walkFrames_ok_iff.mp h₂
      exact ⟨ps₁ ++ ps₂, ⟨ps₁, hp₁, ps₂, hp₂, rfl⟩, List.rel_append hf₁ hf₂⟩
    · rintro ⟨_, ⟨ps₁, hp₁, ps₂, hp₂, rfl⟩, hf⟩
      have hf₁ := List.forall₂_take_append _ _ _ hf.flip
      have hf₂ := List.forall₂_drop_append _ _ _ hf.flip
      exact ⟨_, walk_ok_iff.mpr ⟨ps₁, hp₁, hf₁.flip⟩, _,
        walkFrames_ok_iff.mpr ⟨ps₂, hp₂, hf₂.flip⟩, List.take_append_drop _ _⟩

end

end

mutual

theorem areas_packs {turns : ℕ} : ∀ {frame : Frame} {a : Area} {ps : List (Window × Area)},
    a.Fits → areas turns frame a = .ok ps →
      (∀ p ∈ ps, p.2.Fits) ∧ Packs a.cells (ps.map fun p => p.2.cells)
  | .none, a, ps, _, h => by
    simp only [areas, walk, Except.ok.injEq] at h
    rw [← h]
    exact ⟨by simp, packs_nil⟩
  | .window w, a, ps, ha, h => by
    simp only [areas, walk, except_bind_ok, Except.ok.injEq] at h
    obtain ⟨_, rfl, rfl⟩ := h
    exact ⟨by simpa using ha, packs_singleton⟩
  | .container axis frames, a, ps, ha, h => by
    simp only [areas, walk] at h
    cases hr : allot turns axis frames (a.extent axis) with
    | none =>
      rw [hr] at h
      cases h
    | some r =>
      rw [hr] at h
      exact walkFrames_packs ha h

theorem walkFrames_packs {turns : ℕ} : ∀ {axis : Axis} {ds : List DynamicFrame} {i : ℕ}
    {frames : List Frame} {remaining : UInt32} {a : Area} {ps : List (Window × Area)}, a.Fits →
    walkFrames (fun w a => .ok (w, a)) turns axis ds i frames remaining a = .ok ps →
      (∀ p ∈ ps, p.2.Fits) ∧ Packs a.cells (ps.map fun p => p.2.cells)
  | axis, ds, i, [], remaining, a, ps, _, h => by
    simp only [walkFrames, Except.ok.injEq] at h
    rw [← h]
    exact ⟨by simp, packs_nil⟩
  | axis, ds, i, frame :: frames, remaining, a, ps, ha, h => by
    simp only [walkFrames, except_bind_ok, Except.ok.injEq] at h
    obtain ⟨ps₁, h₁, ps₂, h₂, rfl⟩ := h
    obtain ⟨⟨hfits₁, hsub₁⟩, ⟨hfits₂, hsub₂⟩, hapart⟩ := divide_spec _ axis ha
    obtain ⟨hf₁, hp₁⟩ := areas_packs hfits₁ h₁
    obtain ⟨hf₂, hp₂⟩ := walkFrames_packs hfits₂ h₂
    constructor
    · intro p hp
      rcases List.mem_append.mp hp with hp | hp
      · exact hf₁ p hp
      · exact hf₂ p hp
    · rw [List.map_append]
      exact hp₁.append hp₂ hsub₁ hsub₂ hapart

end

def Showable (w : Window) (a : Area) : Prop :=
  w.active = true → 0 < a.width → 0 < a.height → 0 < w.maxWidth ∧ 0 < w.maxHeight

theorem fit_spec (max : UInt32) (far : Bool) (h : position.toNat + extent.toNat < 2 ^ 31) :
    position.toNat ≤ (fit position extent max far).1.toNat ∧
      (fit position extent max far).1.toNat + (fit position extent max far).2.toNat ≤
        position.toNat + extent.toNat := by
  rw [fit]
  split
  · next hlt =>
    have hle := Nat.le_of_lt (UInt32.lt_iff_toNat_lt.mp hlt)
    have hdiff : (extent - max).toNat = extent.toNat - max.toNat :=
      UInt32.toNat_sub_of_le _ _ (UInt32.le_iff_toNat_le.mpr hle)
    have hadd : (position + (extent - max)).toNat = position.toNat + (extent - max).toNat := by
      rw [UInt32.toNat_add, Nat.mod_eq_of_lt (by omega)]
    cases far with
    | false =>
      rw [if_neg Bool.false_ne_true]
      dsimp only
      omega
    | true =>
      rw [if_pos rfl]
      dsimp only
      omega
  · exact ⟨Nat.le_refl _, Nat.le_refl _⟩

theorem fit_pos_iff {max : UInt32} {far : Bool} (h : 0 < extent) :
    0 < (fit position extent max far).2 ↔ 0 < max := by
  rw [fit]
  split
  · rfl
  · next hle =>
    rw [UInt32.lt_iff_toNat_lt] at h hle ⊢
    rw [UInt32.lt_iff_toNat_lt]
    dsimp only
    omega

variable {v : UInt32}

theorem isPositive_of_pos (h : 0 < v) (hv : v.toNat < 2 ^ 31) : isPositive v = true :=
  decide_eq_true ⟨h, UInt32.lt_iff_toNat_lt.mpr hv⟩

theorem pos_iff_ne_zero : 0 < v ↔ v ≠ 0 := by
  rw [UInt32.lt_iff_toNat_lt, ne_eq, ← UInt32.toNat_inj]
  exact Nat.pos_iff_ne_zero

variable {w : Window}

theorem rectangle_spec (h : a.Fits) : (rectangle w a).Fits ∧ (rectangle w a).cells ⊆ a.cells := by
  have hx := fit_spec w.maxWidth w.left h.1
  have hy := fit_spec w.maxHeight w.bottom h.2
  simp only [Area.Fits, Set.subset_def, mem_cells, rectangle] at h ⊢
  refine ⟨⟨by omega, by omega⟩, ?_⟩
  intro c hc
  omega

theorem resize_of_pos (h : a.Fits) (hw : 0 < a.width) (hh : 0 < a.height) : resize a = .ok a := by
  obtain ⟨hx, hy⟩ := h
  have hposition : ¬(0x80000000 ≤ a.x ∨ 0x80000000 ≤ a.y) := by
    rw [UInt32.le_iff_toNat_le, UInt32.le_iff_toNat_le]
    show ¬(2 ^ 31 ≤ a.x.toNat ∨ 2 ^ 31 ≤ a.y.toNat)
    omega
  have hsize : ¬(¬isPositive a.width = true ∨ ¬isPositive a.height = true) := by
    simp only [not_or, Decidable.not_not]
    exact ⟨isPositive_of_pos hw (by omega), isPositive_of_pos hh (by omega)⟩
  rw [resize, if_neg hposition, if_neg hsize]

theorem balanceWindow_cases (w : Window) (a : Area) :
    (w.active = true ∧ 0 < a.width ∧ 0 < a.height) ∧
        balanceWindow w a = (resize (rectangle w a)).map some ∨
      ¬(w.active = true ∧ 0 < a.width ∧ 0 < a.height) ∧ balanceWindow w a = .ok none := by
  rw [balanceWindow]
  split
  · next h =>
    refine .inr ⟨?_, rfl⟩
    simp only [pos_iff_ne_zero]
    tauto
  · next h =>
    refine .inl ⟨?_, rfl⟩
    simp only [pos_iff_ne_zero]
    tauto

theorem ok_of_showable (h : a.Fits) (hs : Showable w a) :
    ∃ b, balanceWindow w a = .ok b ∧ ∀ r ∈ b, 0 < r.width ∧ 0 < r.height ∧ r.cells ⊆ a.cells := by
  rcases balanceWindow_cases w a with ⟨⟨hactive, hw, hh⟩, he⟩ | ⟨-, he⟩
  · obtain ⟨hmaxWidth, hmaxHeight⟩ := hs hactive hw hh
    obtain ⟨hfits, hsub⟩ := rectangle_spec (w := w) h
    have hwidth : 0 < (rectangle w a).width := (fit_pos_iff hw).mpr hmaxWidth
    have hheight : 0 < (rectangle w a).height := (fit_pos_iff hh).mpr hmaxHeight
    refine ⟨some (rectangle w a), ?_, ?_⟩
    · rw [he, resize_of_pos hfits hwidth hheight]
      rfl
    · intro r hr
      cases hr
      exact ⟨hwidth, hheight, hsub⟩
  · refine ⟨none, he, ?_⟩
    intro r hr
    cases hr

/-- The rectangles of the windows that are not offscreen are not empty, lie in the screen and are
disjoint. -/
structure LaidOut (screen : Area) (rectangles : List (Option Area)) : Prop where
  inside : ∀ r, some r ∈ rectangles → 0 < r.width ∧ 0 < r.height ∧ r.cells ⊆ screen.cells
  apart : rectangles.Pairwise fun p q => ∀ r ∈ p, ∀ r' ∈ q, Disjoint r.cells r'.cells

def shown : Option Area → Set (ℕ × ℕ)
  | none => ∅
  | some r => r.cells

def Places (p : Window × Area) (b : Option Area) : Prop :=
  balanceWindow p.1 p.2 = .ok b ∧ ∀ r ∈ b, 0 < r.width ∧ 0 < r.height ∧ r.cells ⊆ p.2.cells

theorem shown_subset {p : Window × Area} {b : Option Area} (h : Places p b) :
    shown b ⊆ p.2.cells := by
  cases b with
  | none => exact Set.empty_subset _
  | some r => exact (h.2 r rfl).2.2

theorem laidOut_of_places {screen : Area} {ps : List (Window × Area)} {bs : List (Option Area)}
    (hp : Packs screen.cells (ps.map fun p => p.2.cells)) (h : List.Forall₂ Places ps bs) :
    LaidOut screen bs := by
  have hsub : List.Forall₂ (· ⊆ ·) (bs.map shown) (ps.map fun p => p.2.cells) := by
    rw [List.forall₂_map_left_iff, List.forall₂_map_right_iff]
    exact (h.imp fun p b => shown_subset).flip
  have hshown := hp.shrink hsub
  constructor
  · intro r hr
    obtain ⟨p, -, hplaces⟩ := exists_of_mem_forall₂ h.flip _ hr
    obtain ⟨hwidth, hheight, -⟩ := hplaces.2 r rfl
    exact ⟨hwidth, hheight, hshown.inside _ (List.mem_map_of_mem hr)⟩
  · have hapart := List.pairwise_map.mp hshown.apart
    apply hapart.imp
    intro p q hd r hr r' hr'
    cases hr
    cases hr'
    exact hd

theorem fits_screen {width height : UInt32} (hw : width.toNat < 2 ^ 31)
    (hh : height.toNat < 2 ^ 31) : Area.Fits ⟨0, 0, width, height⟩ := by
  simp only [Area.Fits, UInt32.toNat_zero, Nat.zero_add]
  exact ⟨hw, hh⟩

theorem balance_of_showable {turns : ℕ} {frame : Frame} {screen : Area}
    {ps : List (Window × Area)} (hf : screen.Fits) (hp : areas turns frame screen = .ok ps)
    (hs : ∀ p ∈ ps, Showable p.1 p.2) :
    ∃ rectangles, balance turns frame screen = .ok rectangles ∧ LaidOut screen rectangles := by
  obtain ⟨hpfits, hpacks⟩ := areas_packs hf hp
  obtain ⟨rectangles, hplaces⟩ := exists_forall₂ (R := Places) fun p hp =>
    ok_of_showable (hpfits p hp) (hs p hp)
  refine ⟨rectangles, ?_, laidOut_of_places hpacks hplaces⟩
  exact walk_ok_iff.mpr ⟨ps, hp, hplaces.imp fun _ _ h => h.1⟩

def plainWindow (minWidth minHeight maxWidth maxHeight : UInt32) : Window :=
  ⟨true, false, false, minWidth, minHeight, maxWidth, maxHeight⟩

def titleAndList : Frame :=
  .container .row [.window (plainWindow 0 1 extentFull 1),
    .window (plainWindow 1 1 extentFull extentFull)]

abbrev LoopState := List DynamicFrame × UInt32

def turn (s : LoopState) : LoopState := ((adjustAll s.1 s.2).1, (adjustAll s.1 s.2).2.1)

end DisplayFrames
