import Rtorrent.ViewModel

/-! # The started and stopped views

The event commands of the two views call back into them, so one call of `view.set_visible`
runs a tree of commands. On an untrusted connection a command that is not marked as safe
raises an error, which ends the event command. -/
namespace ViewStartedStopped

open ViewModel

variable {α : Type*}

inductive Name where
  | started
  | stopped
  deriving DecidableEq, Repr

inductive Command where
  | viewSetVisible (n : Name)
  | viewSetNotVisible (n : Name)
  | viewFilterDownload (n : Name)
  | dStateSet (value : ℤ)
  | schedulerSimpleAdded
  | schedulerSimpleRemoved
  deriving DecidableEq, Repr

/-- The commands with `flag_untrusted_safe`. -/
def Command.untrustedSafe : Command → Bool
  | .viewSetVisible _ | .viewSetNotVisible _ => true
  | _ => false

def eventCommand : Name → EventKind → List Command
  | .started, .added => [.viewSetNotVisible .stopped, .dStateSet 1, .schedulerSimpleAdded]
  | .started, .removed => [.viewSetVisible .stopped, .schedulerSimpleRemoved]
  | .stopped, .added => [.dStateSet 0, .viewSetNotVisible .started]
  | .stopped, .removed => [.viewSetVisible .started]

structure State (α : Type*) where
  view : Name → View α
  dState : α → ℤ

def State.setView (s : State α) (n : Name) (v : View α) : State α :=
  { s with view := Function.update s.view n v }

def Name.other : Name → Name
  | .started => .stopped
  | .stopped => .started

/-- The value of `d.state` that goes with a view. -/
def Name.value : Name → ℤ
  | .started => 1
  | .stopped => 0

def Shows (s : State α) (n : Name) (d : α) : Prop := d ∈ (s.view n).visible

instance [DecidableEq α] (s : State α) (n : Name) (d : α) : Decidable (Shows s n d) :=
  inferInstanceAs (Decidable (d ∈ (s.view n).visible))

/-- Visible in exactly one of the two views, with the state that goes with it. -/
def Consistent (d : α) (s : State α) : Prop :=
  ∃ n, Shows s n d ∧ ¬ Shows s n.other d ∧ s.dState d = n.value

structure Ordered (s : State α) : Prop where
  valid : ∀ n, (s.view n).Valid
  nodup : ∀ n, (s.view n).entries.Nodup

variable {s : State α} {n : Name} {d : α}

theorem filtered_iff (h : Ordered s) (hd : d ∈ (s.view n).entries) :
    d ∈ (s.view n).filtered ↔ ¬ Shows s n d := by
  rw [View.mem_filtered_iff (h.nodup n)]
  exact and_iff_right hd

theorem not_filtered_of_shows (h : Ordered s) (hs : Shows s n d) : d ∉ (s.view n).filtered :=
  fun hf => ((View.mem_filtered_iff (h.nodup n)).mp hf).2 hs

/-- The download is in the list of both views, and shown in neither before it enters one. -/
structure Tracked (d : α) (s : State α) : Prop where
  ordered : Ordered s
  present : ∀ n, d ∈ (s.view n).entries
  settled : (∀ n, ¬ Shows s n d) ∨ Consistent d s

theorem present_shows_or_filtered (h : Tracked d s) (n : Name) :
    Shows s n d ∨ d ∈ (s.view n).filtered := by
  by_cases hs : Shows s n d
  · exact .inl hs
  · exact .inr ((filtered_iff h.ordered (h.present n)).mpr hs)

variable [DecidableEq α]

/-- A state and whether the command came to its end rather than raise an error. -/
abbrev Outcome (α : Type*) := State α × Bool

/-- `call_object` on a list of commands stops at the first error. -/
def callObject (call : State α → Command → Option (Outcome α)) :
    List Command → State α → Option (Outcome α)
  | [], s => some (s, true)
  | c :: cs, s => (call s c).bind fun r => if r.2 then callObject call cs r.1 else some r

/-- `call_object_nothrow` drops the error of each event command. -/
def callEvents (call : State α → Command → Option (Outcome α)) (n : Name) :
    List (EventKind × α) → State α → Option (Outcome α)
  | [], s => some (s, true)
  | e :: es, s => (callObject call (eventCommand n e.1) s).bind fun r => callEvents call n es r.1

/-- One command on a download. `less` is the sort command for new downloads. The two
scheduler commands touch neither the two views nor `d.state`. -/
def callCommand (less : α → α → Bool) (trusted : Bool) (d : α) :
    ℕ → State α → Command → Option (Outcome α)
  | 0, _, _ => none
  | fuel + 1, s, c =>
    if trusted = false ∧ c.untrustedSafe = false then some (s, false)
    else
      let events n (r : View α × List (EventKind × α)) :=
        callEvents (callCommand less trusted d fuel) n r.2 (s.setView n r.1)
      match c with
      | .viewSetVisible n => events n ((s.view n).setVisible less d)
      | .viewSetNotVisible n => events n ((s.view n).setNotVisible d)
      | .viewFilterDownload n =>
        match (s.view n).filterDownload (fun _ => false) less d with
        | .ok r => events n r
        | .error _ => some (s, false)
      | .dStateSet value => some ({ s with dState := Function.update s.dState d value }, true)
      | .schedulerSimpleAdded | .schedulerSimpleRemoved => some (s, true)

inductive Operation where
  | setVisible
  | setNotVisible
  | filterDownload
  deriving DecidableEq, Repr

/-- A call from outside: on an RPC connection or from the program itself, which is trusted. -/
structure Call (α : Type*) where
  operation : Operation
  view : Name
  target : α
  trusted : Bool

def Call.command (c : Call α) : Command :=
  match c.operation with
  | .setVisible => .viewSetVisible c.view
  | .setNotVisible => .viewSetNotVisible c.view
  | .filterDownload => .viewFilterDownload c.view

def runCalls (less : α → α → Bool) (fuel : ℕ) : List (Call α) → State α → Option (State α)
  | [], s => some s
  | c :: cs, s =>
    (callCommand less c.trusted c.target fuel s c.command).bind fun r => runCalls less fuel cs r.1

def shown (less : α → α → Bool) (d : α) (n : Name) (s : State α) : State α :=
  s.setView n ((s.view n).setVisible less d).1

def hidden (d : α) (n : Name) (s : State α) : State α :=
  s.setView n ((s.view n).setNotVisible d).1

def stated (d : α) (value : ℤ) (s : State α) : State α :=
  { s with dState := Function.update s.dState d value }

section

variable {less : α → α → Bool} {d : α} {s : State α} {n m : Name} {fuel : ℕ}

theorem other_ne (n : Name) : n.other ≠ n := by cases n <;> decide

theorem other_other (n : Name) : n.other.other = n := by cases n <;> rfl

theorem shown_view_self : (shown less d n s).view n = ((s.view n).setVisible less d).1 := by
  simp [shown, State.setView]

theorem shown_view_ne (h : m ≠ n) : (shown less d n s).view m = s.view m := by
  simp [shown, State.setView, h]

theorem hidden_view_self : (hidden d n s).view n = ((s.view n).setNotVisible d).1 := by
  simp [hidden, State.setView]

theorem hidden_view_ne (h : m ≠ n) : (hidden d n s).view m = s.view m := by
  simp [hidden, State.setView, h]

theorem hidden_of_not_shows (h : ¬ Shows s n d) : hidden d n s = s := by
  have hv : (s.view n).setNotVisible d = (s.view n, []) := if_neg h
  simp [hidden, State.setView, hv]

theorem call_dStateSet (value : ℤ) :
    callCommand less true d (fuel + 1) s (.dStateSet value) = some (stated d value s, true) := rfl

theorem call_schedulerSimpleAdded :
    callCommand less true d (fuel + 1) s .schedulerSimpleAdded = some (s, true) := rfl

theorem call_schedulerSimpleRemoved :
    callCommand less true d (fuel + 1) s .schedulerSimpleRemoved = some (s, true) := rfl

theorem call_viewSetVisible :
    callCommand less true d (fuel + 1) s (.viewSetVisible n) =
      callEvents (callCommand less true d fuel) n ((s.view n).setVisible less d).2
        (shown less d n s) := rfl

theorem call_viewSetNotVisible :
    callCommand less true d (fuel + 1) s (.viewSetNotVisible n) =
      callEvents (callCommand less true d fuel) n ((s.view n).setNotVisible d).2
        (hidden d n s) := rfl

theorem call_viewFilterDownload :
    callCommand less true d (fuel + 1) s (.viewFilterDownload n) =
      match (s.view n).filterDownload (fun _ => false) less d with
      | .ok r => callEvents (callCommand less true d fuel) n r.2 (s.setView n r.1)
      | .error _ => some (s, false) := rfl

omit [DecidableEq α] in
theorem callEvents_one (call : State α → Command → Option (Outcome α)) (e : EventKind) :
    callEvents call n [(e, d)] s =
      (callObject call (eventCommand n e) s).map fun r => (r.1, true) := by
  cases h : callObject call (eventCommand n e) s with
  | none => simp only [callEvents, h, Option.bind_none, Option.map_none]
  | some r => simp only [callEvents, h, Option.bind_some, Option.map_some]

theorem shown_of_not_filtered (h : d ∉ (s.view n).filtered) : shown less d n s = s := by
  have hv : (s.view n).setVisible less d = (s.view n, []) := if_neg h
  simp [shown, State.setView, hv]

theorem call_setVisible_idle (h : d ∉ (s.view n).filtered) :
    callCommand less true d (fuel + 1) s (.viewSetVisible n) = some (s, true) := by
  have hv : (s.view n).setVisible less d = (s.view n, []) := if_neg h
  rw [call_viewSetVisible, shown_of_not_filtered h, hv, callEvents]

theorem call_setVisible (h : d ∈ (s.view n).filtered) :
    callCommand less true d (fuel + 1) s (.viewSetVisible n) =
      (callObject (callCommand less true d fuel) (eventCommand n .added) (shown less d n s)).map
        fun r => (r.1, true) := by
  have hv : ((s.view n).setVisible less d).2 = [(.added, d)] := by simp [View.setVisible, h]
  rw [call_viewSetVisible, hv, callEvents_one]

theorem call_setNotVisible_idle (h : ¬ Shows s n d) :
    callCommand less true d (fuel + 1) s (.viewSetNotVisible n) = some (s, true) := by
  have hv : (s.view n).setNotVisible d = (s.view n, []) := if_neg h
  rw [call_viewSetNotVisible, hidden_of_not_shows h, hv, callEvents]

theorem call_setNotVisible (h : Shows s n d) :
    callCommand less true d (fuel + 1) s (.viewSetNotVisible n) =
      (callObject (callCommand less true d fuel) (eventCommand n .removed) (hidden d n s)).map
        fun r => (r.1, true) := by
  have hv : ((s.view n).setNotVisible d).2 = [(.removed, d)] := by
    simp [View.setNotVisible, show d ∈ (s.view n).visible from h]
  rw [call_viewSetNotVisible, hv, callEvents_one]

theorem call_filterDownload (h : d ∈ (s.view n).entries) :
    callCommand less true d (fuel + 1) s (.viewFilterDownload n) =
      callCommand less true d (fuel + 1) s (.viewSetNotVisible n) := by
  rw [call_viewFilterDownload, View.filterDownload_false h]
  rfl

theorem call_filterDownload_missing (h : d ∉ (s.view n).entries) :
    callCommand less true d (fuel + 1) s (.viewFilterDownload n) = some (s, false) := by
  rw [call_viewFilterDownload, View.filterDownload_missing h]

theorem call_setNotVisible_hide (h : d ∉ (s.view n.other).filtered) :
    callCommand less true d (fuel + 2) s (.viewSetNotVisible n) = some (hidden d n s, true) := by
  by_cases hs : Shows s n d
  · have ho : d ∉ ((hidden d n s).view n.other).filtered := by
      rwa [hidden_view_ne (other_ne n)]
    rw [call_setNotVisible hs]
    cases n with
    | started =>
      simp [eventCommand, callObject, call_setVisible_idle (n := .stopped) ho,
        call_schedulerSimpleRemoved]
    | stopped =>
      simp [eventCommand, callObject, call_setVisible_idle (n := .started) ho]
  · rw [call_setNotVisible_idle hs, hidden_of_not_shows hs]

theorem shown_entries (h : Ordered s) :
    ((shown less d n s).view m).entries.Perm (s.view m).entries := by
  by_cases hm : m = n
  · rw [hm, shown_view_self]
    exact View.setVisible_perm (h.valid n) less d
  · rw [shown_view_ne hm]

theorem hidden_entries : ((hidden d n s).view m).entries.Perm (s.view m).entries := by
  by_cases hm : m = n
  · rw [hm, hidden_view_self]
    exact View.setNotVisible_perm (s.view n) d
  · rw [hidden_view_ne hm]

theorem shown_ordered (h : Ordered s) : Ordered (shown less d n s) := by
  constructor
  · intro m
    by_cases hm : m = n
    · rw [hm, shown_view_self]
      exact View.setVisible_valid (h.valid n) less d
    · rw [shown_view_ne hm]
      exact h.valid m
  · intro m
    exact (shown_entries h).nodup_iff.mpr (h.nodup m)

theorem hidden_ordered (h : Ordered s) : Ordered (hidden d n s) := by
  constructor
  · intro m
    by_cases hm : m = n
    · rw [hm, hidden_view_self]
      exact View.setNotVisible_valid (h.valid n) d
    · rw [hidden_view_ne hm]
      exact h.valid m
  · intro m
    exact hidden_entries.nodup_iff.mpr (h.nodup m)

variable {x : α}

theorem shown_shows (h : Ordered s) :
    Shows (shown less d n s) m x ↔ (m = n ∧ x = d ∧ d ∈ (s.view n).filtered) ∨ Shows s m x := by
  by_cases hm : m = n
  · rw [Shows, hm, shown_view_self, View.mem_visible_setVisible (h.valid n)]
    simp [Shows]
  · rw [Shows, shown_view_ne hm]
    simp [Shows, hm]

theorem hidden_shows (h : Ordered s) :
    Shows (hidden d n s) m x ↔ ¬ (m = n ∧ x = d) ∧ Shows s m x := by
  by_cases hm : m = n
  · rw [Shows, hm, hidden_view_self, View.mem_visible_setNotVisible (h.valid n) (h.nodup n)]
    simp [Shows]
  · rw [Shows, hidden_view_ne hm]
    simp [Shows, hm]

theorem call_setVisible_show (h : Ordered s) (hd : d ∈ (s.view n).filtered) :
    callCommand less true d (fuel + 3) s (.viewSetVisible n) =
      some (stated d n.value (hidden d n.other (shown less d n s)), true) := by
  have hs : Shows (shown less d n s) n d := (shown_shows h).mpr (.inl ⟨rfl, rfl, hd⟩)
  have hf := not_filtered_of_shows (shown_ordered h) hs
  rw [call_setVisible hd]
  cases n with
  | started =>
    simp [eventCommand, callObject, call_setNotVisible_hide (n := .stopped) hf, call_dStateSet,
      call_schedulerSimpleAdded, Name.other, Name.value]
  | stopped =>
    have hf : d ∉ ((stated d 0 (shown less d .stopped s)).view .stopped).filtered := hf
    simp [eventCommand, callObject, call_setNotVisible_hide (n := .started) hf, call_dStateSet,
      Name.other, Name.value]
    rfl

theorem call_setNotVisible_show (h : Ordered s) (hs : Shows s n d)
    (hd : d ∈ (s.view n.other).filtered) :
    callCommand less true d (fuel + 3) s (.viewSetNotVisible n) =
      some (stated d n.other.value (shown less d n.other (hidden d n s)), true) := by
  have ho : d ∈ ((hidden d n s).view n.other).filtered := by rwa [hidden_view_ne (other_ne n)]
  have hn : ¬ Shows (shown less d n.other (hidden d n s)) n d := by
    rw [shown_shows (hidden_ordered h), hidden_shows h]
    simp [(other_ne n).symm]
  rw [call_setNotVisible hs]
  cases n with
  | started =>
    have hn : ¬ Shows (stated d 0 (shown less d .stopped (hidden d .started s))) .started d := hn
    simp [eventCommand, callObject, call_setVisible (n := .stopped) ho, call_dStateSet,
      call_setNotVisible_idle hn, call_schedulerSimpleRemoved, Name.other, Name.value]
  | stopped =>
    have hn : ¬ Shows (shown less d .started (hidden d .stopped s)) .stopped d := hn
    simp [eventCommand, callObject, call_setVisible (n := .started) ho, call_dStateSet,
      call_setNotVisible_idle hn, call_schedulerSimpleAdded, Name.other, Name.value]

theorem shown_hidden (h : n ≠ m) :
    shown less d n (hidden d m s) = hidden d m (shown less d n s) := by
  simp [shown, hidden, State.setView, Function.update_comm h, Function.update_of_ne h,
    Function.update_of_ne h.symm]

end

/-- What a call on `x` can do while commands are trusted. -/
inductive CallStep (less : α → α → Bool) (x : α) (s : State α) : State α → Prop
  | idle : CallStep less x s s
  | move (n : Name) (hf : x ∈ (s.view n).filtered) :
      CallStep less x s (stated x n.value (hidden x n.other (shown less x n s)))
  | hide (n : Name) (hs : Shows s n x) (hf : x ∉ (s.view n.other).filtered) :
      CallStep less x s (hidden x n s)

section

variable {less : α → α → Bool} {s t : State α} {x d : α}

theorem setVisible_step (less : α → α → Bool) (h : Ordered s) (fuel : ℕ) (n : Name) :
    ∃ t, callCommand less true x (fuel + 3) s (.viewSetVisible n) = some (t, true) ∧
      CallStep less x s t := by
  by_cases hf : x ∈ (s.view n).filtered
  · exact ⟨_, call_setVisible_show h hf, .move n hf⟩
  · exact ⟨s, call_setVisible_idle hf, .idle⟩

theorem setNotVisible_step (less : α → α → Bool) (h : Ordered s) (fuel : ℕ) (n : Name) :
    ∃ t, callCommand less true x (fuel + 3) s (.viewSetNotVisible n) = some (t, true) ∧
      CallStep less x s t := by
  by_cases hs : Shows s n x
  · by_cases hf : x ∈ (s.view n.other).filtered
    · have hm : CallStep less x s _ := .move n.other hf
      rw [other_other, ← shown_hidden (other_ne n)] at hm
      exact ⟨_, call_setNotVisible_show h hs hf, hm⟩
    · exact ⟨_, call_setNotVisible_hide hf, .hide n hs hf⟩
  · exact ⟨s, call_setNotVisible_idle hs, .idle⟩

theorem call_step (less : α → α → Bool) (h : Ordered s) (fuel : ℕ) (c : Call α)
    (hc : c.trusted = true) :
    ∃ t ok, callCommand less c.trusted c.target (fuel + 3) s c.command = some (t, ok) ∧
      CallStep less c.target s t := by
  rw [hc]
  rcases c with ⟨operation, n, x, trusted⟩
  cases operation with
  | setVisible =>
    obtain ⟨t, ht, hst⟩ := setVisible_step (x := x) less h fuel n
    exact ⟨t, true, ht, hst⟩
  | setNotVisible =>
    obtain ⟨t, ht, hst⟩ := setNotVisible_step (x := x) less h fuel n
    exact ⟨t, true, ht, hst⟩
  | filterDownload =>
    by_cases hx : x ∈ (s.view n).entries
    · obtain ⟨t, ht, hst⟩ := setNotVisible_step (x := x) less h fuel n
      exact ⟨t, true, (call_filterDownload hx).trans ht, hst⟩
    · exact ⟨s, false, call_filterDownload_missing hx, .idle⟩

theorem CallStep.ordered (hst : CallStep less x s t) (h : Ordered s) : Ordered t := by
  cases hst with
  | idle => exact h
  | move n =>
    have hh : Ordered (hidden x n.other (shown less x n s)) := hidden_ordered (shown_ordered h)
    exact ⟨hh.valid, hh.nodup⟩
  | hide n => exact hidden_ordered h

theorem CallStep.entries (hst : CallStep less x s t) (h : Ordered s) (n : Name) :
    (t.view n).entries.Perm (s.view n).entries := by
  cases hst with
  | idle => exact .refl _
  | move m =>
    exact (hidden_entries (d := x) (n := m.other)).trans (shown_entries h)
  | hide m => exact hidden_entries

/-- A call on another download leaves this one as it is. -/
theorem CallStep.frame (hst : CallStep less x s t) (h : Ordered s) (hx : d ≠ x) :
    (∀ n, Shows t n d ↔ Shows s n d) ∧ t.dState d = s.dState d := by
  cases hst with
  | idle => exact ⟨fun _ => .rfl, rfl⟩
  | move m =>
    refine ⟨?_, Function.update_of_ne hx _ _⟩
    intro n
    change Shows (hidden x m.other (shown less x m s)) n d ↔ _
    rw [hidden_shows (shown_ordered h), shown_shows h]
    simp [hx]
  | hide m =>
    refine ⟨?_, rfl⟩
    intro n
    rw [hidden_shows h]
    simp [hx]

theorem move_consistent (h : Ordered s) {n : Name} (hf : d ∈ (s.view n).filtered) :
    Consistent d (stated d n.value (hidden d n.other (shown less d n s))) := by
  have ho : Ordered (shown less d n s) := shown_ordered h
  refine ⟨n, ?_, ?_, Function.update_self _ _ _⟩
  · change Shows (hidden d n.other (shown less d n s)) n d
    rw [hidden_shows ho, shown_shows h]
    exact ⟨fun hn => other_ne n hn.1.symm, .inl ⟨rfl, rfl, hf⟩⟩
  · change ¬ Shows (hidden d n.other (shown less d n s)) n.other d
    rw [hidden_shows ho]
    intro hn
    exact hn.1 ⟨rfl, rfl⟩

/-- A call on this download makes it consistent, or does nothing. -/
theorem CallStep.settle (hst : CallStep less d s t) (h : Tracked d s) :
    t = s ∨ Consistent d t := by
  cases hst with
  | idle => exact .inl rfl
  | move n hf => exact .inr (move_consistent h.ordered hf)
  | hide n hs hf =>
    have ho := (present_shows_or_filtered h n.other).resolve_right hf
    rcases h.settled with hn | ⟨m, hm, hm', -⟩
    · exact absurd hs (hn n)
    · cases n <;> cases m <;> contradiction

theorem CallStep.consistent (hst : CallStep less x s t) (h : Tracked d s)
    (hc : Consistent d s) : Consistent d t := by
  by_cases hx : d = x
  · subst hx
    rcases hst.settle h with rfl | ht
    · exact hc
    · exact ht
  · obtain ⟨hv, hd⟩ := hst.frame h.ordered hx
    simpa only [Consistent, hv, hd] using hc

theorem CallStep.tracked (hst : CallStep less x s t) (h : Tracked d s) : Tracked d t := by
  refine ⟨hst.ordered h.ordered, ?_, ?_⟩
  · intro n
    exact (hst.entries h.ordered n).mem_iff.mpr (h.present n)
  · rcases h.settled with hn | hc
    · by_cases hx : d = x
      · subst hx
        rcases hst.settle h with rfl | ht
        · exact .inl hn
        · exact .inr ht
      · obtain ⟨hv, -⟩ := hst.frame h.ordered hx
        exact .inl fun n => by rw [hv]; exact hn n
    · exact .inr (hst.consistent h hc)

theorem setVisible_enters (less : α → α → Bool) (h : Tracked d s) (fuel : ℕ) (n : Name) :
    ∃ t, callCommand less true d (fuel + 3) s (.viewSetVisible n) = some (t, true) ∧
      Consistent d t := by
  rcases present_shows_or_filtered h n with hs | hf
  · have hc := h.settled.resolve_left fun hn => hn n hs
    exact ⟨s, call_setVisible_idle (not_filtered_of_shows h.ordered hs), hc⟩
  · exact ⟨_, call_setVisible_show h.ordered hf, move_consistent h.ordered hf⟩

def Call.Enters (d : α) (c : Call α) : Prop := c.operation = .setVisible ∧ c.target = d

theorem runCalls_tracked (less : α → α → Bool) (fuel : ℕ) (calls : List (Call α)) :
    ∀ s, Tracked d s → (∀ c ∈ calls, c.trusted = true) →
      ∃ t, runCalls less (fuel + 3) calls s = some t ∧
        (Consistent d s ∨ (∃ c ∈ calls, c.Enters d) → Consistent d t) := by
  induction calls with
  | nil => exact fun s _ _ => ⟨s, rfl, by simp⟩
  | cons c cs ih =>
    intro s hs ht
    obtain ⟨hc, hcs⟩ := List.forall_mem_cons.mp ht
    obtain ⟨t, ok, hr, hst⟩ := call_step less hs.ordered fuel c hc
    obtain ⟨u, hu, hcu⟩ := ih t (hst.tracked hs) hcs
    refine ⟨u, by simp [runCalls, hr, hu], fun h => hcu ?_⟩
    rcases h with h | ⟨c', hm, he⟩
    · exact .inl (hst.consistent hs h)
    rcases List.mem_cons.mp hm with rfl | hm
    · left
      rcases c' with ⟨operation, n, x, trusted⟩
      rcases he with ⟨rfl, rfl⟩
      obtain ⟨t', ht', hc'⟩ := setVisible_enters less hs fuel n
      cases hc
      cases hr.symm.trans ht'
      exact hc'
    · exact .inr ⟨c', hm, he⟩

end

/-- After any trusted calls on the two views, a download that has entered one of them is visible
in exactly one and has its state. -/
theorem entered_consistent {d : α} (less : α → α → Bool) (fuel : ℕ) (s : State α)
    (calls : List (Call α)) (hs : Tracked d s) (ht : ∀ c ∈ calls, c.trusted = true)
    (he : Consistent d s ∨ ∃ c ∈ calls, c.Enters d) :
    ∃ t, runCalls less (fuel + 3) calls s = some t ∧ Consistent d t := by
  obtain ⟨t, hr, hc⟩ := runCalls_tracked less fuel calls s hs ht
  exact ⟨t, hr, hc he⟩

def oneInserted : State ℕ where
  view n := ((View.initialized (match n with | .started => "started" | .stopped => "stopped")
    ([] : List ℕ)).insert 0)
  dState := fun _ => 0

theorem oneInserted_tracked : Tracked 0 oneInserted := by
  refine ⟨⟨fun n => View.insert_valid (View.initialized_valid _ _) 0, ?_⟩, ?_, .inl ?_⟩ <;>
    intro n <;> cases n <;> simp [oneInserted, Shows, View.insert, View.initialized, View.visible]

def startThenStop : List (Call ℕ) :=
  [⟨.setVisible, .started, 0, true⟩, ⟨.filterDownload, .stopped, 0, true⟩,
    ⟨.setNotVisible, .started, 0, true⟩]

theorem startThenStop_consistent :
    ∃ t, runCalls (fun _ _ => false) 3 startThenStop oneInserted = some t ∧ Consistent 0 t :=
  entered_consistent _ 0 oneInserted startThenStop oneInserted_tracked (by decide)
    (.inr ⟨⟨.setVisible, .started, 0, true⟩, by simp [startThenStop], rfl, rfl⟩)

def startThenUntrusted : List (Call ℕ) :=
  [⟨.setVisible, .started, 0, true⟩, ⟨.setVisible, .stopped, 0, false⟩]

/-- On an untrusted connection the event command of the stopped view ends at `d.state.set`, so the
download stays visible in the started view. -/
theorem untrusted_visible_in_both :
    Tracked 0 oneInserted ∧ (∃ c ∈ startThenUntrusted, c.Enters 0) ∧
      ∃ t, (∀ fuel, runCalls (fun _ _ => false) (fuel + 3) startThenUntrusted oneInserted =
        some t) ∧
        Shows t .started 0 ∧ Shows t .stopped 0 ∧ ¬ Consistent 0 t := by
  refine ⟨oneInserted_tracked, ⟨_, List.mem_cons_self, rfl, rfl⟩, _, fun _ => rfl, ?_⟩
  refine ⟨by decide, by decide, ?_⟩
  rintro ⟨n, -, ho, -⟩
  cases n
  · exact ho (by decide)
  · exact ho (by decide)

end ViewStartedStopped
