import Mathlib.Order.Bounds.Defs
import Rtorrent.SchedulerItems
import Rtorrent.TransitionSystems

/-! # Items that recur

An item that runs late is put back at a later time of its own sequence. -/
namespace ItemRecurrence

open FallibleRuns TransitionSystems RpcTextParser CommandScheduler CommandSchedulerCalls
  SchedulerItems

inductive Event where
  | call (clock : Clock) (c : Command)
  | run (id : ItemId) (clock : Clock) (report : Bool) (command : Behaviour)

def Due (s : Scheduler) (id : ItemId) (clock : Clock) : Prop :=
  ∃ it, s.item id = some it ∧ it.isQueued = true ∧ it.timeScheduled ≤ clock.cachedTime

def machine : Machine Scheduler Event where
  Enabled s
    | .call _ _ => True
    | .run id clock _ _ => Due s id clock
  next s
    | .call clock c => perform clock s c
    | .run id clock report command => (callItem clock report id command (s.fire id)).2

def Spares (key : Text) (_ : Scheduler) : Event → Prop
  | .call clock c => ¬Evicts clock key c
  | .run _ clock _ command => ∀ c ∈ command.calls, ¬Evicts clock key c

variable {clock : Clock} {s : Scheduler} {id : ItemId} {it : Item}

theorem perform_keeps {c : Command} (h : (id, it) ∈ s.items) (he : ¬Evicts clock it.key c) :
    (id, it) ∈ (perform clock s c).items := by
  by_cases hk : namedKey c = some it.key
  · have hf : s.find it.key ≠ none := find_ne_none (List.mem_map.mpr ⟨_, h, rfl⟩)
    have hn := s.named _ h
    -- The call names the item: it is refused, or it finds the item there.
    suffices hs : perform clock s c = s by rwa [hs]
    cases c with
    | scheduleRemove key =>
      cases hk
      exact absurd rfl he
    | schedule ifAbsent args =>
      change (applySchedule clock ifAbsent args s).2 = s
      by_cases ha : ∃ k a i c, args = [.string k, .string a, .string i, c]
      · obtain ⟨key, bufAbsolute, bufInterval, command, rfl⟩ := ha
        cases hk
        rw [applySchedule_strings]
        split
        · rfl
        · rename_i hc
          have hp : ¬(Parses clock bufAbsolute bufInterval command ∧ it.key ≠ []) := by
            rintro ⟨hp, -⟩
            cases ifAbsent with
            | true => exact hc ⟨rfl, hf⟩
            | false => exact he ⟨rfl, rfl, hp⟩
          obtain ⟨e, hr⟩ := parse_refused hp s
          rw [hr]
      · obtain ⟨e, hr⟩ := applySchedule_refused ha clock ifAbsent s
        rw [hr]
  · have hm : (id, it) ∈ itemsOf s it.key := mem_itemsOf.mpr ⟨h, rfl⟩
    rw [← perform_others clock hk s] at hm
    exact (mem_itemsOf.mp hm).1

variable {b : Behaviour}

theorem state_keeps (h : (id, it) ∈ s.items) (he : ∀ c ∈ b.calls, ¬Evicts clock it.key c) :
    (id, it) ∈ (b.state clock s).items := by
  rw [Behaviour.state]
  generalize b.calls = calls at he
  induction calls generalizing s with
  | nil => exact h
  | cons c calls ih =>
    rw [List.forall_mem_cons] at he
    exact ih (perform_keeps h he.1) he.2

def OthersKept (id : ItemId) (s t : Scheduler) : Prop :=
  ∀ p ∈ s.items, p.1 ≠ id → p ∈ t.items

theorem othersKept_refl (id : ItemId) (s : Scheduler) : OthersKept id s s := fun _ hp _ => hp

theorem othersKept_trans (id : ItemId) (s t u : Scheduler) (h : OthersKept id s t)
    (k : OthersKept id t u) : OthersKept id s u := fun p hp hne => k p (h p hp hne) hne

theorem othersKept_change (id : ItemId) (c : Change) (s : Scheduler) :
    OthersKept id s (s.change id c) := by
  intro p hp hne
  refine List.mem_map.mpr ⟨p, hp, ?_⟩
  rw [changed, if_neg hne]

theorem enable_keeps (id : ItemId) (t : ℕ) : Keeps (OthersKept id) (enable id t) := by
  intro s
  rcases enable_state id t s with he | ⟨c, he⟩
  · rw [he]
    exact othersKept_refl id s
  · rw [he]
    exact othersKept_change id c s

theorem deref_state (access : Access) (id : ItemId) (s : Scheduler) :
    (deref access id s).2 = s := by
  rw [deref]
  split <;> rfl

theorem reschedule_keeps (clock : Clock) (id : ItemId) :
    Keeps (OthersKept id) (reschedule clock id) := by
  have hk := keeps_compositional (ε := Fault) (othersKept_refl id) (othersKept_trans id)
    fun _ => True
  have hd : ∀ access, Keeps (OthersKept id) (deref access id) := by
    intro access s
    rw [deref_state]
    exact othersKept_refl id s
  apply hk.bind
  · apply hk.bind (hd _)
    intro it
    split
    · exact hk.pure _
    split
    · exact hk.fail trivial
    · exact hk.pure _
  · intro next
    split
    · exact hk.pure _
    split
    · exact hk.fail trivial
    · exact enable_keeps id next

theorem onError_keeps (report : Bool) (id : ItemId) (e : Fault) :
    Keeps (fun s t => t = s) (onError report id e) := by
  intro s
  rcases e with ⟨kind, what⟩ | access
  · rw [onError]
    split
    · split
      · rw [Run.bind_apply]
        cases hd : deref .key id s with
        | mk r t =>
          have ht := deref_state .key id s
          rw [hd] at ht
          cases r <;> exact ht
      · rfl
    · rfl
  · rfl
  · rfl

theorem handle_state (clock : Clock) (report : Bool) (id : ItemId) (b : Behaviour)
    (s : Scheduler) :
    (Run.handle (b.run clock) (onError report id) s).2 = b.state clock s := by
  rw [Run.handle, Behaviour.run]
  cases b.result with
  | ok a => rfl
  | error e => exact onError_keeps report id e _

theorem fire_item (h : s.item id = some it) :
    (s.fire id).item id = some { it with isQueued := false } := by
  apply item_of_mem
  refine List.mem_map.mpr ⟨_, s.item_mem h, ?_⟩
  rw [changed, if_pos rfl]

theorem run_other {report : Bool}
    {other : ItemId} (hd : Due s other clock) (hi : s.item id = some it)
    (hne : id ≠ other) (he : ∀ c ∈ b.calls, ¬Evicts clock it.key c) :
    (callItem clock report other b (s.fire other)).2.item id = some it := by
  obtain ⟨due, hdue, -⟩ := hd
  have hm := othersKept_change other ⟨fun it => { it with isQueued := false }, fun _ => rfl⟩ s
    _ (s.item_mem hi) hne
  have hs := state_keeps hm he
  apply item_of_mem
  rw [callItem_eq (fire_item hdue) rfl, Run.bind_apply]
  have hh := handle_state clock report other b (s.fire other)
  cases hr : Run.handle (b.run clock) (onError report other) (s.fire other) with
  | mk r t =>
    rw [hr] at hh
    cases hh
    cases r with
    | ok a => exact reschedule_keeps clock other _ _ hs hne
    | error e => exact hs

/-- The loop stops behind the limit, at most one interval behind it unless it started there. -/
theorem advance_spec {step : ℕ} (hs : 0 < step) (limit next : ℕ) :
    ∃ m, advance step limit next = next + (m + 1) * step ∧
      limit < advance step limit next ∧ (0 < m → next + m * step ≤ limit) := by
  fun_induction advance step limit next with
  | case1 next h ih =>
    obtain ⟨m, he, hl, hm⟩ := ih
    have hstep : (m + 1) * step = m * step + step := Nat.succ_mul m step
    refine ⟨m + 1, ?_, hl, fun _ => ?_⟩
    · rw [he, Nat.succ_mul (m + 1)]
      omega
    · rcases Nat.eq_zero_or_pos m with rfl | hp
      · simpa using h.2
      · have := hm hp
        omega
  | case2 next h =>
    refine ⟨0, by simp, ?_, fun h => absurd h (Nat.lt_irrefl 0)⟩
    omega

def sequence (start interval : ℕ) : Set ℕ := {x | ∃ k, x = start + k * (interval * second)}

theorem le_ceilSeconds (t : ℕ) : t ≤ ceilSeconds t := by
  rw [ceilSeconds, second]
  omega

theorem advance_isLeast {start interval now time : ℕ} (hp : 0 < interval)
    (ht : time ∈ sequence start interval) (hd : time ≤ now) :
    IsLeast {x | x ∈ sequence start interval ∧ ceilSeconds now < x}
      (advance (interval * second) (ceilSeconds now) time) := by
  have hs : 0 < interval * second := Nat.mul_pos hp (by decide)
  have hc := le_ceilSeconds now
  obtain ⟨k, rfl⟩ := ht
  obtain ⟨m, he, hl, hm⟩ := advance_spec hs (ceilSeconds now) (start + k * (interval * second))
  have hlast : start + (k + m) * (interval * second) ≤ ceilSeconds now := by
    rw [Nat.add_mul]
    rcases Nat.eq_zero_or_pos m with rfl | hpos
    · rw [Nat.zero_mul]
      omega
    · have := hm hpos
      omega
  constructor
  · refine ⟨⟨k + (m + 1), ?_⟩, hl⟩
    rw [he, Nat.add_mul k]
    omega
  · rintro x ⟨⟨j, rfl⟩, hx⟩
    -- The time one interval earlier is not later than the run, so `x` comes after it.
    have hlt : (k + m) * (interval * second) < j * (interval * second) := by omega
    have hj : k + m + 1 ≤ j := Nat.lt_of_mul_lt_mul_right hlt
    have hle := Nat.mul_le_mul_right (interval * second) hj
    rw [he, Nat.add_assoc, ← Nat.add_mul, ← Nat.add_assoc k]
    omega

theorem reschedule_ok (hi : s.item id = some it) (hp : 0 < it.interval)
    (ht : 0 < it.timeScheduled) :
    ∃ t, reschedule clock id s = (.ok (), t) ∧ t.item id = some { it with
      timeScheduled :=
        advance (it.interval * second) (ceilSeconds clock.cachedTime) it.timeScheduled
      isQueued := true } := by
  have hs : 0 < it.interval * second := Nat.mul_pos hp (by decide)
  obtain ⟨-, -, hl, -⟩ := advance_spec hs (ceilSeconds clock.cachedTime) it.timeScheduled
  have hc := le_ceilSeconds clock.cachedTime
  generalize hnext : advance (it.interval * second) (ceilSeconds clock.cachedTime)
    it.timeScheduled = next at hl ⊢
  have hd : deref .nextTimeScheduled id s = (.ok it, s) := by rw [deref, hi]
  have hn : nextTimeScheduled clock id s = (.ok next, s) := by
    rw [nextTimeScheduled, Run.bind_of_ok hd, if_neg (Nat.ne_of_gt hp), if_neg (Nat.ne_of_gt ht),
      hnext]
    rfl
  rw [reschedule, Run.bind_of_ok hn, if_neg (by omega), if_neg (by omega),
    enable_ok (by omega) hi]
  refine ⟨_, rfl, item_of_mem (List.mem_map.mpr ⟨_, s.item_mem hi, ?_⟩)⟩
  rw [changed, if_pos rfl]

theorem run_own
    (report : Bool) (hi : s.item id = some it) (hp : 0 < it.interval) (ht : 0 < it.timeScheduled)
    (he : ∀ c ∈ b.calls, ¬Evicts clock it.key c) :
    (∃ t, callItem clock report id b (s.fire id) = (.ok (), t) ∧ t.item id = some { it with
      timeScheduled :=
        advance (it.interval * second) (ceilSeconds clock.cachedTime) it.timeScheduled
      isQueued := true }) ∨
    Uncaught b ∧ ∃ t, callItem clock report id b (s.fire id) = (b.result, t) ∧
      t.item id = some { it with isQueued := false } := by
  have hf := fire_item hi
  have hs := item_of_mem (state_keeps (Scheduler.item_mem hf) he)
  by_cases hu : Uncaught b
  · obtain ⟨kind, what, hk, hkind⟩ := hu
    refine .inr ⟨⟨kind, what, hk, hkind⟩, _, ?_, hs⟩
    rw [callItem_eq hf rfl]
    have hr : b.result = .error (.thrown (.error kind what)) := by rw [Behaviour.result, hk]
    rw [hr]
    refine Run.bind_of_error ?_ _
    simp [Run.handle, Behaviour.run, hr, onError, hkind, throwing, Run.fail]
  · left
    have hh : Run.handle (b.run clock) (onError report id) (s.fire id) =
        (.ok (), b.state clock (s.fire id)) := by
      cases hk : b.ending with
      | none => simp [Run.handle, Behaviour.run, Behaviour.result, hk]
      | some e =>
        rcases e with ⟨kind, what⟩
        have hkind : isInputError kind = true := by
          by_contra hkind
          exact hu ⟨kind, what, hk, by simpa using hkind⟩
        have hd : deref .key id (b.state clock (s.fire id)) =
            (.ok { it with isQueued := false }, b.state clock (s.fire id)) := by rw [deref, hs]
        cases report with
        | true =>
          simp [Run.handle, Behaviour.run, Behaviour.result, hk, onError, hkind,
            Run.bind_of_ok hd, Run.pure_apply]
        | false =>
          simp [Run.handle, Behaviour.run, Behaviour.result, hk, onError, hkind, Run.pure_apply]
    obtain ⟨t, hr, hn⟩ := @reschedule_ok clock _ id { it with isQueued := false } hs hp ht
    rw [callItem_eq hf rfl, Run.bind_of_ok hh]
    exact ⟨t, hr, hn⟩

def timeOf (s : Scheduler) (id : ItemId) : ℕ := ((s.item id).map (·.timeScheduled)).getD 0

/-- The times at which the item is run and put back, each with the time it is then scheduled
for. -/
def newTimes (id : ItemId) (s : Scheduler) : List Event → List (ℕ × ℕ)
  | [] => []
  | .call clock c :: es => newTimes id (perform clock s c) es
  | .run other clock report b :: es =>
    let r := callItem clock report other b (s.fire other)
    (if other = id ∧ r.1.isOk = true then [(clock.cachedTime, timeOf r.2 id)] else []) ++
      newTimes id r.2 es

/-- The item is still there and at a time of its sequence. -/
structure Recurs (id : ItemId) (key : Text) (start interval time : ℕ) (s : Scheduler) : Prop where
  present : ∃ it, s.item id = some it ∧ it.key = key ∧ it.interval = interval ∧
    it.timeScheduled = time
  positive : 0 < time
  member : time ∈ sequence start interval

section

variable {id : ItemId} {key : Text} {start interval time : ℕ} {s : Scheduler} {clock : Clock}

theorem recurs_call (h : Recurs id key start interval time s) {c : Command}
    (hs : ¬Evicts clock key c) : Recurs id key start interval time (perform clock s c) := by
  obtain ⟨it, hi, rfl, hr⟩ := h.present
  exact ⟨⟨it, item_of_mem (perform_keeps (s.item_mem hi) hs), rfl, hr⟩, h.positive, h.member⟩

variable {b : Behaviour} {other : ItemId} {report : Bool}

theorem recurs_run_other (h : Recurs id key start interval time s)
    (hd : Due s other clock) (hne : other ≠ id)
    (hs : ∀ c ∈ b.calls, ¬Evicts clock key c) :
    Recurs id key start interval time (callItem clock report other b (s.fire other)).2 := by
  obtain ⟨it, hi, rfl, hr⟩ := h.present
  exact ⟨⟨it, run_other hd hi hne.symm hs, rfl, hr⟩, h.positive, h.member⟩

theorem recurs_run_own (h : Recurs id key start interval time s) (hp : 0 < interval)
    (report : Bool) (hd : Due s id clock)
    (hs : ∀ c ∈ b.calls, ¬Evicts clock key c) :
    (∃ t next, callItem clock report id b (s.fire id) = (.ok (), t) ∧
      Recurs id key start interval next t ∧ time < next ∧
      IsLeast {x | x ∈ sequence start interval ∧ ceilSeconds clock.cachedTime < x} next) ∨
    ∃ t e, Uncaught b ∧ b.result = .error e ∧
      callItem clock report id b (s.fire id) = (.error e, t) ∧
      Recurs id key start interval time t := by
  obtain ⟨⟨it, hi, rfl, rfl, rfl⟩, hpos, hm⟩ := h
  obtain ⟨due, hdue, -, hle⟩ := hd
  rw [hi] at hdue
  cases hdue
  have hleast := advance_isLeast hp hm hle
  have hc := le_ceilSeconds clock.cachedTime
  rcases run_own report hi hp hpos hs with ⟨t, hr, hn⟩ | ⟨hu, t, hr, hn⟩
  · have hlt : it.timeScheduled < advance (it.interval * second) (ceilSeconds clock.cachedTime)
        it.timeScheduled := Nat.lt_of_le_of_lt (Nat.le_trans hle hc) hleast.1.2
    exact .inl ⟨t, _, hr, ⟨⟨_, hn, rfl, rfl, rfl⟩, Nat.lt_trans hpos hlt, hleast.1.1⟩, hlt, hleast⟩
  · have ⟨kind, what, hk, _⟩ := hu
    have he : b.result = .error (.thrown (.error kind what)) := by rw [Behaviour.result, hk]
    rw [he] at hr
    exact .inr ⟨t, _, hu, he, hr, ⟨⟨_, hn, rfl, rfl, rfl⟩, hpos, hm⟩⟩

theorem timeOf_eq (h : Recurs id key start interval time s) : timeOf s id = time := by
  obtain ⟨it, hi, -, -, rfl⟩ := h.present
  rw [timeOf, hi]
  rfl

variable {t : Scheduler}

theorem newTimes_ok (hr : callItem clock report id b (s.fire id) = (.ok (), t)) (es : List Event) :
    newTimes id s (.run id clock report b :: es) =
      (clock.cachedTime, timeOf t id) :: newTimes id t es := by
  rw [newTimes, hr, if_pos ⟨rfl, rfl⟩]
  rfl

theorem newTimes_error {e : Fault}
    (hr : callItem clock report id b (s.fire id) = (.error e, t)) (es : List Event) :
    newTimes id s (.run id clock report b :: es) = newTimes id t es := by
  rw [newTimes, hr, if_neg (by simp [Except.isOk, Except.toBool])]
  rfl

theorem newTimes_other (h : other ≠ id) (clock : Clock) (report : Bool)
    (b : Behaviour) (es : List Event) : newTimes id s (.run other clock report b :: es) =
      newTimes id (callItem clock report other b (s.fire other)).2 es := by
  rw [newTimes, if_neg fun hc => h hc.1]
  rfl

theorem newTimes_recurs (hp : 0 < interval) (es : List Event) : ∀ {s : Scheduler} {time : ℕ},
    Recurs id key start interval time s → (machine.guarded (Spares key)).Accepts s es →
    (time :: (newTimes id s es).map Prod.snd).Pairwise (· < ·) ∧
    (∀ p ∈ newTimes id s es,
      IsLeast {x | x ∈ sequence start interval ∧ ceilSeconds p.1 < x} p.2) ∧
    ∃ last, Recurs id key start interval last (machine.replay s es) := by
  induction es with
  | nil =>
    intro s time h _
    exact ⟨List.pairwise_singleton _ _, fun p hp => absurd hp List.not_mem_nil, time, h⟩
  | cons e es ih =>
    rintro s time h ⟨⟨hs, hd⟩, ha⟩
    cases e with
    | call clock c => exact ih (recurs_call h hs) ha
    | run other clock report b =>
      by_cases hne : other = id
      · subst hne
        rcases recurs_run_own h hp report hd hs with
          ⟨t, next, hr, hn, hlt, hl⟩ | ⟨t, e, -, -, hr, hn⟩
        · have hnext : machine.next s (.run other clock report b) = t := congrArg Prod.snd hr
          obtain ⟨hpair, hleast, hlast⟩ := ih hn (hnext ▸ ha)
          rw [newTimes_ok hr, timeOf_eq hn]
          refine ⟨?_, ?_, ?_⟩
          · rw [List.map_cons, List.pairwise_cons]
            refine ⟨?_, hpair⟩
            intro x hx
            rcases List.mem_cons.mp hx with rfl | hx
            · exact hlt
            · exact Nat.lt_trans hlt (List.rel_of_pairwise_cons hpair hx)
          · rw [List.forall_mem_cons]
            exact ⟨hl, hleast⟩
          · rwa [Machine.replay, List.foldl_cons, hnext]
        · have hnext : machine.next s (.run other clock report b) = t := congrArg Prod.snd hr
          rw [newTimes_error hr, Machine.replay, List.foldl_cons, hnext]
          exact ih hn (hnext ▸ ha)
      · rw [newTimes_other hne]
        exact ih (recurs_run_other h hd hne hs) ha

end

/-- However late it is run, an item that recurs is scheduled for growing times of its own
sequence, each the first one later than the run before it, and `call_item` throws only what the
command throws. -/
theorem item_recurs {s : Scheduler} {id : ItemId} {it : Item} (hi : s.item id = some it)
    (hp : 0 < it.interval) (ht : 0 < it.timeScheduled) {es : List Event}
    (ha : (machine.guarded (Spares it.key)).Accepts s es) :
    (it.timeScheduled :: (newTimes id s es).map Prod.snd).Pairwise (· < ·) ∧
    (∀ p ∈ newTimes id s es,
      IsLeast {x | x ∈ sequence it.timeScheduled it.interval ∧ ceilSeconds p.1 < x} p.2) ∧
    ∀ clock report b, Due (machine.replay s es) id clock →
      (∀ c ∈ b.calls, ¬Evicts clock it.key c) →
      (callItem clock report id b ((machine.replay s es).fire id)).1 = .ok () ∨
      Uncaught b ∧ (callItem clock report id b ((machine.replay s es).fire id)).1 = b.result := by
  have hr : Recurs id it.key it.timeScheduled it.interval it.timeScheduled s :=
    ⟨⟨it, hi, rfl, rfl, rfl⟩, ht, 0, by simp⟩
  obtain ⟨hpair, hleast, last, hlast⟩ := newTimes_recurs hp es hr ha
  refine ⟨hpair, hleast, ?_⟩
  intro clock report b hd hs
  rcases recurs_run_own hlast hp report hd hs with ⟨t, next, hc, -⟩ | ⟨t, e, hu, he, hc, -⟩
  · exact .inl (congrArg Prod.fst hc)
  · rw [he]
    exact .inr ⟨hu, congrArg Prod.fst hc⟩

def everyMinute : Scheduler := (parse dueClock ['a'] ['0'] ['6', '0'] (.string ['b']) .empty).2

def lateRun : Event := .run 0 ⟨130000000, none⟩ false ⟨[], none⟩

theorem item_recurs_everyMinute :
    (5000000 :: (newTimes 0 everyMinute [lateRun]).map Prod.snd).Pairwise (· < ·) := by
  have hi : everyMinute.item 0 =
    some ⟨['a'], .string ['b'], 60, 5000000, true⟩ := rfl
  have hd : Due everyMinute 0 ⟨130000000, none⟩ := ⟨_, hi, rfl, by decide⟩
  have ha : (machine.guarded (Spares ['a'])).Accepts everyMinute [lateRun] :=
    ⟨⟨fun c hc => absurd hc List.not_mem_nil, hd⟩, trivial⟩
  exact (item_recurs hi (by decide) (by decide) ha).1

end ItemRecurrence
