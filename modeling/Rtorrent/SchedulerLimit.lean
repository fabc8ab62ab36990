import Mathlib.Algebra.Group.Int.Defs
import Rtorrent.TransitionSystems
import Rtorrent.ViewModel

/-! # The limit on active downloads

The scheduler commands count the visible downloads of the active view and resume or pause
downloads of the started view. -/
namespace SchedulerLimit

open TransitionSystems ViewModel

def toUInt32 (n : ℕ) : ℕ := n % 2 ^ 32
def toUInt64 (n : ℤ) : ℕ := (n % 2 ^ 64).toNat
def toInt64 (n : ℕ) : ℤ := Int.bmod n (2 ^ 64)

structure State (α : Type*) where
  active : View α
  started : View α
  isActive : α → Bool

/-- The sort command of the active view for new downloads, and whether a resumed download starts
rather than wait for its hash check. -/
structure Surroundings (α : Type*) where
  less : α → α → Bool
  starts : α → Bool

/-- The indices of the active view are in bounds, and its entries are the downloads, each once. -/
structure Ordered {α : Type*} (downloads : List α) (s : State α) : Prop where
  valid : s.active.Valid
  nodup : s.active.entries.Nodup
  perm : s.active.entries.Perm downloads

theorem Ordered.size_le {α : Type*} {l : List α} {s : State α} (h : Ordered l s) :
    s.active.size ≤ l.length :=
  h.perm.length_eq ▸ h.valid.size_le

theorem Ordered.length_lt {α : Type*} {l : List α} {s : State α} {n : ℕ} (h : Ordered l s)
    (hn : s.active.entries.length < n) : l.length < n := by
  rwa [← h.perm.length_eq]

theorem toUInt32_size {α : Type*} {l : List α} {s : State α} {maxActive : ℤ} (h : Ordered l s)
    (hl : maxActive < 2 ^ 32 ∨ l.length < 2 ^ 32) (hs : s.active.size ≤ maxActive) :
    toUInt32 s.active.size = s.active.size := by
  apply Nat.mod_eq_of_lt
  rcases hl with hl | hl
  · omega
  · exact Nat.lt_of_le_of_lt h.size_le hl

variable {α : Type*} [DecidableEq α]

def resume (w : Surroundings α) (d : α) (s : State α) : State α :=
  if s.isActive d then s
  else { s with
    active := (s.active.setVisible w.less d).1
    isActive := Function.update s.isActive d (w.starts d) }

def pause (d : α) (s : State α) : State α :=
  { s with
    active := (s.active.setNotVisible d).1
    isActive := Function.update s.isActive d false }

def schedulerSimpleAdded (maxActive : ℤ) (w : Surroundings α) (d : α) (s : State α) : State α :=
  if toUInt32 s.active.size < toUInt64 maxActive then resume w d s else s

/-- The loop over the started view, which does not look at the limit again. -/
def resumeAll (w : Surroundings α) : List α → State α → State α
  | [], s => s
  | x :: xs, s => if s.isActive x then resumeAll w xs s else resumeAll w xs (resume w x s)

def schedulerSimpleRemoved (maxActive : ℤ) (w : Surroundings α) (d : α) (s : State α) : State α :=
  let t := pause d s
  if maxActive ≤ toInt64 t.active.size then t else resumeAll w t.started.visible t

def resumeUpTo (maxActive : ℕ) (w : Surroundings α) : List α → ℕ → State α → State α
  | [], _, s => s
  | x :: xs, numActive, s =>
    if s.isActive x then resumeUpTo maxActive w xs numActive s
    else if maxActive ≤ toUInt32 (numActive + 1) then resume w x s
    else resumeUpTo maxActive w xs (toUInt32 (numActive + 1)) (resume w x s)

/-- Each turn takes one download out of the visible ones, so the size of the view bounds the
number of turns. -/
def pauseDownTo (maxActive : ℕ) : ℕ → State α → State α
  | 0, s => s
  | fuel + 1, s =>
    if maxActive < s.active.size then
      match s.active.visible with
      | [] => s
      | x :: _ => pauseDownTo maxActive fuel (pause x s)
    else s

def schedulerSimpleUpdate (maxActive : ℤ) (w : Surroundings α) (s : State α) : State α :=
  if s.active.size < toUInt64 maxActive then
    resumeUpTo (toUInt64 maxActive) w s.started.visible (toUInt32 s.active.size) s
  else pauseDownTo (toUInt64 maxActive) s.active.size s

/-- Between two calls downloads may enter and leave the started view and start and stop. -/
inductive Event (α : Type*) where
  | added (w : Surroundings α) (d : α)
  | removed (w : Surroundings α) (d : α)
  | update (w : Surroundings α)
  | other (started : View α) (isActive : α → Bool)

def next (maxActive : ℤ) (s : State α) : Event α → State α
  | .added w d => schedulerSimpleAdded maxActive w d s
  | .removed w d => schedulerSimpleRemoved maxActive w d s
  | .update w => schedulerSimpleUpdate maxActive w s
  | .other started isActive => { s with started := started, isActive := isActive }

def Enabled (s : State α) : Event α → Prop
  | .added _ d | .removed _ d => d ∈ s.started.entries
  | .update _ => True
  | .other started _ => started.Valid ∧ started.entries.Perm s.started.entries

def machine (maxActive : ℤ) : Machine (State α) (Event α) := ⟨Enabled, next maxActive⟩

def waiting (s : State α) (x : α) : Bool := !s.isActive x && x ∉ s.active.visible

def others (d : α) (s : State α) : ℕ := s.active.visible.countP (· ≠ d)

section

variable {l : List α} {w : Surroundings α} {d : α} {s : State α}

theorem setVisible_size (v : View α) (less : α → α → Bool) (d : α) :
    (v.setVisible less d).1.size = v.size + if d ∈ v.filtered then 1 else 0 := by
  rw [View.setVisible]
  split
  · simp [View.insertVisible]
  · rfl

theorem setNotVisible_size (v : View α) (d : α) :
    (v.setNotVisible d).1.size = v.size - if d ∈ v.visible then 1 else 0 := by
  rw [View.setNotVisible]
  split <;> rfl

theorem resume_ordered (h : Ordered l s) : Ordered l (resume w d s) := by
  rw [resume]
  split
  · exact h
  · exact ⟨View.setVisible_valid h.valid w.less d,
      (View.setVisible_perm h.valid w.less d).nodup_iff.mpr h.nodup,
      (View.setVisible_perm h.valid w.less d).trans h.perm⟩

theorem pause_ordered (h : Ordered l s) : Ordered l (pause d s) :=
  ⟨View.setNotVisible_valid h.valid d,
    (View.setNotVisible_perm s.active d).nodup_iff.mpr h.nodup,
    (View.setNotVisible_perm s.active d).trans h.perm⟩

theorem resume_size (h : Ordered l s) (ha : s.isActive d = false) :
    (resume w d s).active.size ≤ s.active.size + if waiting s d then 1 else 0 := by
  simp only [resume, ha, Bool.false_eq_true, ↓reduceIte, setVisible_size]
  by_cases hd : d ∈ s.active.filtered
  · have hv := ((View.mem_filtered_iff h.nodup).mp hd).2
    simp [waiting, ha, hv, hd]
  · simp [hd]

theorem pause_size (h : Ordered l s) : (pause d s).active.size = others d s := by
  have hn : s.active.visible.Nodup := h.nodup.sublist (List.take_sublist _ _)
  have hc : others d s = (s.active.visible.erase d).length := by
    rw [others, List.countP_eq_length_filter, hn.erase_eq_filter]
    simp [bne, beq_eq_decide]
  change (s.active.setNotVisible d).1.size = _
  rw [hc, List.length_erase, View.length_visible h.valid, setNotVisible_size]
  split <;> rfl

theorem waiting_of_resume (h : Ordered l s) (ha : s.isActive d = false) {x : α}
    (hx : waiting (resume w d s) x = true) : waiting s x = true := by
  simp only [resume, ha, Bool.false_eq_true, ↓reduceIte, waiting, Bool.and_eq_true,
    Bool.not_eq_eq_eq_not, Bool.not_true, decide_eq_true_eq,
    View.mem_visible_setVisible h.valid, not_or] at hx ⊢
  refine ⟨?_, hx.2.2⟩
  by_cases he : x = d
  · rw [he, ha]
  · rw [← hx.1, Function.update_of_ne he]

theorem resumeAll_ordered (xs : List α) :
    ∀ {s : State α}, Ordered l s → Ordered l (resumeAll w xs s) := by
  induction xs with
  | nil => exact fun h => h
  | cons x xs ih =>
    intro s h
    rw [resumeAll]
    split
    · exact ih h
    · exact ih (resume_ordered h)

theorem resumeAll_size (xs : List α) :
    ∀ {s : State α}, Ordered l s →
      (resumeAll w xs s).active.size ≤ s.active.size + xs.countP (waiting s) := by
  induction xs with
  | nil => exact fun _ => Nat.le_refl _
  | cons x xs ih =>
    intro s h
    rw [List.countP_cons]
    rw [resumeAll]
    split
    · exact Nat.le_trans (ih h) (by omega)
    · rename_i ha
      have ha := Bool.eq_false_iff.mpr ha
      have hr := resume_size (w := w) h ha
      have hc : xs.countP (waiting (resume w x s)) ≤ xs.countP (waiting s) :=
        List.countP_mono_left fun y _ => waiting_of_resume h ha
      have hi := ih (resume_ordered (w := w) (d := x) h)
      omega

theorem resumeUpTo_ordered (maxActive : ℕ) (xs : List α) :
    ∀ {numActive : ℕ} {s : State α}, Ordered l s →
      Ordered l (resumeUpTo maxActive w xs numActive s) := by
  induction xs with
  | nil => exact fun h => h
  | cons x xs ih =>
    intro k s h
    rw [resumeUpTo]
    split
    · exact ih h
    · split
      · exact resume_ordered h
      · exact ih (resume_ordered h)

/-- `numActive` counts every resumed download, also one that was visible already, so it stays
above the number of visible downloads unless it wraps. -/
theorem resumeUpTo_size {maxActive : ℕ} (hm : maxActive < 2 ^ 32) (xs : List α) :
    ∀ {numActive : ℕ} {s : State α}, Ordered l s → s.active.size ≤ numActive →
      numActive < maxActive → (resumeUpTo maxActive w xs numActive s).active.size ≤ maxActive := by
  induction xs with
  | nil => exact fun _ hk hn => Nat.le_of_lt (Nat.lt_of_le_of_lt hk hn)
  | cons x xs ih =>
    intro k s h hk hn
    have hw : toUInt32 (k + 1) = k + 1 := Nat.mod_eq_of_lt (by omega)
    rw [resumeUpTo]
    rw [hw]
    split
    · exact ih h hk hn
    · rename_i ha
      have hr := resume_size (w := w) h (Bool.eq_false_iff.mpr ha)
      have hr' : (resume w x s).active.size ≤ k + 1 := by split at hr <;> omega
      split
      · omega
      · exact ih (resume_ordered h) hr' (by omega)

theorem pauseDownTo_ordered (maxActive : ℕ) (fuel : ℕ) :
    ∀ {s : State α}, Ordered l s → Ordered l (pauseDownTo maxActive fuel s) := by
  induction fuel with
  | zero => exact fun h => h
  | succ fuel ih =>
    intro s h
    rw [pauseDownTo]
    split
    · split
      · exact h
      · exact ih (pause_ordered h)
    · exact h

theorem pauseDownTo_size (maxActive : ℕ) (fuel : ℕ) :
    ∀ {s : State α}, Ordered l s → s.active.size ≤ fuel →
      (pauseDownTo maxActive fuel s).active.size ≤ maxActive := by
  induction fuel with
  | zero => exact fun _ hf => Nat.le_trans hf (Nat.zero_le _)
  | succ fuel ih =>
    intro s h hf
    rw [pauseDownTo]
    split
    · rename_i hlt
      have hl := View.length_visible h.valid
      split
      · rename_i hv
        rw [hv] at hl
        simp only [List.length_nil] at hl
        omega
      · rename_i x xs hv
        apply ih (pause_ordered h)
        have hx : x ∈ s.active.visible := hv ▸ List.mem_cons_self
        change (s.active.setNotVisible x).1.size ≤ fuel
        rw [setNotVisible_size, if_pos hx]
        omega
    · omega

/-- Without `d` the view is at the limit, or the downloads that the call resumes fit in. -/
def RemovedFits (maxActive : ℤ) (d : α) (s : State α) : Prop :=
  maxActive ≤ others d s ∨
    (others d s + s.started.visible.countP fun x => x = d ∨ waiting s x : ℕ) ≤ maxActive

/-- `numActive` cannot wrap before it is at the limit, and a removed download leaves room. -/
def CallFits (maxActive : ℤ) (s : State α) : Event α → Prop
  | .added _ _ | .update _ => maxActive < 2 ^ 32 ∨ s.active.entries.length < 2 ^ 32
  | .removed _ d => RemovedFits maxActive d s
  | .other _ _ => True

variable {maxActive : ℤ}

theorem toUInt64_of_nonneg (h0 : 0 ≤ maxActive) (h63 : maxActive < 2 ^ 63) :
    (toUInt64 maxActive : ℤ) = maxActive := by
  unfold toUInt64
  omega

theorem toInt64_of_lt {n : ℕ} (h : n < 2 ^ 63) : toInt64 n = n := by
  unfold toInt64
  rw [Int.bmod_eq_of_le] <;> omega

theorem waiting_pause (h : Ordered l s) (x : α) :
    waiting (pause d s) x = decide (x = d ∨ waiting s x = true) := by
  by_cases hx : x = d
  · simp [hx, waiting, pause, View.mem_visible_setNotVisible h.valid h.nodup]
  · simp [hx, waiting, pause, View.mem_visible_setNotVisible h.valid h.nodup]

theorem removed_size (h63 : maxActive < 2 ^ 63) (h : Ordered l s) (hs : s.active.size ≤ maxActive)
    (hf : RemovedFits maxActive d s) :
    (schedulerSimpleRemoved maxActive w d s).active.size ≤ maxActive := by
  have hp := pause_ordered (d := d) h
  have hle : (pause d s).active.size ≤ s.active.size := by
    change (s.active.setNotVisible d).1.size ≤ s.active.size
    rw [setNotVisible_size]
    exact Nat.sub_le _ _
  have hn : toInt64 (pause d s).active.size = (pause d s).active.size := toInt64_of_lt (by omega)
  have hr := resumeAll_size (w := w) s.started.visible hp
  rw [schedulerSimpleRemoved]
  simp only [hn]
  split
  · omega
  · rename_i hlt
    simp only [funext (waiting_pause h)] at hr
    rw [pause_size h] at hlt hr
    have hr' := hf.resolve_left hlt
    exact Int.le_trans (Int.ofNat_le.mpr hr) hr'

theorem next_ordered (e : Event α) (h : Ordered l s) : Ordered l (next maxActive s e) := by
  cases e with
  | added w d =>
    change Ordered l (schedulerSimpleAdded maxActive w d s)
    rw [schedulerSimpleAdded]
    split
    · exact resume_ordered h
    · exact h
  | removed w d =>
    change Ordered l (schedulerSimpleRemoved maxActive w d s)
    simp only [schedulerSimpleRemoved]
    split
    · exact pause_ordered h
    · exact resumeAll_ordered _ (pause_ordered h)
  | update w =>
    change Ordered l (schedulerSimpleUpdate maxActive w s)
    rw [schedulerSimpleUpdate]
    split
    · exact resumeUpTo_ordered _ _ h
    · exact pauseDownTo_ordered _ _ h
  | other => exact ⟨h.valid, h.nodup, h.perm⟩

variable (h0 : 0 ≤ maxActive) (h63 : maxActive < 2 ^ 63) (h : Ordered l s)
  (hs : s.active.size ≤ maxActive)
include h0 h63 h hs

theorem added_size (hl : maxActive < 2 ^ 32 ∨ l.length < 2 ^ 32) :
    (schedulerSimpleAdded maxActive w d s).active.size ≤ maxActive := by
  have hm := toUInt64_of_nonneg h0 h63
  have hn := toUInt32_size h hl hs
  rw [schedulerSimpleAdded, hn]
  split
  · by_cases ha : s.isActive d = true
    · simpa [resume, ha] using hs
    · have hr := resume_size (w := w) h (Bool.eq_false_iff.mpr ha)
      split at hr <;> omega
  · exact hs

theorem update_size (hl : maxActive < 2 ^ 32 ∨ l.length < 2 ^ 32) :
    (schedulerSimpleUpdate maxActive w s).active.size ≤ maxActive := by
  have hm := toUInt64_of_nonneg h0 h63
  have hn := toUInt32_size h hl hs
  suffices hu : (schedulerSimpleUpdate maxActive w s).active.size ≤ toUInt64 maxActive by omega
  rw [schedulerSimpleUpdate, hn]
  split
  · rename_i hlt
    by_cases h32 : toUInt64 maxActive < 2 ^ 32
    · exact resumeUpTo_size h32 _ h (Nat.le_refl _) hlt
    · have ho : Ordered l (resumeUpTo (toUInt64 maxActive) w s.started.visible s.active.size s) :=
        resumeUpTo_ordered _ _ h
      have hsize := ho.size_le
      omega
  · exact pauseDownTo_size _ _ h (Nat.le_refl _)

theorem next_size (e : Event α) (hf : CallFits maxActive s e) :
    (next maxActive s e).active.size ≤ maxActive := by
  cases e with
  | added w d => exact added_size h0 h63 h hs (hf.imp_right h.length_lt)
  | removed w d =>
    simp only [next]
    exact removed_size h63 h hs hf
  | update w => exact update_size h0 h63 h hs (hf.imp_right h.length_lt)
  | other => exact hs

end

/-- In every run whose calls fit, at most `scheduler.max_active` downloads are active. -/
theorem reachable_visible_le {maxActive : ℤ} (h0 : 0 ≤ maxActive) (h63 : maxActive < 2 ^ 63)
    {s t : State α} (hv : s.active.Valid) (hn : s.active.entries.Nodup)
    (hs : s.active.visible.length ≤ maxActive)
    (hr : Reachable ((machine maxActive).guarded (CallFits maxActive)).system s t) :
    t.active.visible.length ≤ maxActive := by
  rw [View.length_visible hv] at hs
  have hi : Ordered s.active.entries t ∧ t.active.size ≤ maxActive := by
    refine hr.invariant (I := fun u => Ordered s.active.entries u ∧ u.active.size ≤ maxActive)
      ⟨⟨hv, hn, .refl _⟩, hs⟩ ?_
    rintro u e _ ⟨ho, hu⟩ ⟨⟨hf, -⟩, rfl⟩
    exact ⟨next_ordered e ho, next_size h0 h63 ho hu e hf⟩
  rw [View.length_visible hi.1.valid]
  exact hi.2

def threeInactive (started : ℕ) : State ℕ where
  active := ⟨"active", [0, 1, 2], 0, 0, false, false⟩
  started := ⟨"started", [0, 1, 2], started, 0, true, true⟩
  isActive := fun _ => false

def noHashCheck : Surroundings ℕ := ⟨fun _ _ => false, fun _ => true⟩

theorem threeInactive_execution :
    Execution ((machine 1).guarded (CallFits 1)).system (threeInactive 1)
      [.removed noHashCheck 2, .update noHashCheck]
      ((machine 1).replay (threeInactive 1) [.removed noHashCheck 2, .update noHashCheck]) := by
  have hr : RemovedFits 1 2 (threeInactive 1) := .inr (by decide)
  have hd : (2 : ℕ) ∈ (threeInactive 1).started.entries := by decide
  exact Machine.Accepts.execution
    ⟨⟨hr, hd⟩, ⟨.inl (by decide), trivial⟩, trivial⟩

theorem threeInactive_visible_le :
    (((machine 1).replay (threeInactive 1)
      [.removed noHashCheck 2, .update noHashCheck]).active.visible.length : ℤ) ≤ 1 :=
  reachable_visible_le (by decide) (by decide) ⟨by decide, by decide⟩ (by decide) (by decide)
    ⟨_, threeInactive_execution⟩

/-- With a limit of one, `scheduler.simple.removed` resumes both downloads that wait. -/
theorem removed_over_limit :
    (threeInactive 2).active.Valid ∧ (threeInactive 2).active.visible.length = 0 ∧
      ∃ t, Reachable (machine 1).system (threeInactive 2) t ∧ t.active.visible.length = 2 := by
  have hd : (2 : ℕ) ∈ (threeInactive 2).started.entries := by decide
  have he : Machine.Accepts (machine 1) (threeInactive 2) [.removed noHashCheck 2] :=
    ⟨hd, trivial⟩
  exact ⟨⟨by decide, by decide⟩, by decide, _, ⟨_, he.execution⟩, by decide +kernel⟩

end SchedulerLimit
