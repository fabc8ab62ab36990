import Mathlib.Algebra.Group.Nat.Defs
import Mathlib.Data.Fintype.Card
import Mathlib.Data.List.Sort
import Rtorrent.TransitionSystems

/-! # The queue of processes to wait for

A worker polls the pids it is given until they have ended. A pid is in the queue before the flag
that wakes the worker is stored, and the worker also looks at the queue when its time has passed.
-/
namespace WaitpidQueue

open TransitionSystems

abbrev Pid := Fin (2 ^ 31)

/-- The steps of `close_pid` and of the destructor. -/
inductive Caller where
  | idle
  | incremented (pid : Pid)
  | inserted (pid : Pid)
  | stopping
  | gone
  deriving DecidableEq, Repr

/-- Where the worker is. It holds the mutex from the copy to the reset of the flag. -/
inductive Worker where
  | check
  | timing
  | slept
  | waiting
  | settling
  | copied (queue : List Pid)
  | polling (queue : List Pid)
  | exited (pid : Pid) (queue : List Pid)
  | erased (queue : List Pid)
  | returned
  | raised (what : String)
  deriving DecidableEq, Repr

structure State where
  remaining : UInt32
  queue : List Pid
  wakeupWorker : Bool
  shouldShutdown : Bool
  caller : Caller
  worker : Worker
  deriving DecidableEq, Repr

def initial : State := ⟨0, [], false, false, .idle, .check⟩

inductive Event where
  | closePid (pid : Pid)
  | insert (pid : Pid)
  | wakeUp (pid : Pid)
  | shutdown
  | wakeUpLast
  | readQueue
  | elapse
  | sleep
  | loadFlag
  | wait
  | copy
  | resetFlag (queue : List Pid)
  | poll (pid : Pid) (rest : List Pid) (ended : Bool)
  | finish
  | erase (pid : Pid) (rest : List Pid)
  | decrement (rest : List Pid)
  deriving DecidableEq, Repr

def emptyError : String := "WaitpidQueue worker thread woke up but queue is empty."
def missingError : String := "WaitpidQueue worker thread could not find pid in queue."

def mutexFree : Worker → Bool
  | .copied _ => false
  | _ => true

def Enabled (s : State) : Event → Prop
  | .closePid pid => s.caller = .idle ∧ pid ∉ s.queue
  | .insert pid => s.caller = .incremented pid ∧ mutexFree s.worker = true
  | .wakeUp pid => s.caller = .inserted pid
  | .shutdown => s.caller = .idle ∧ mutexFree s.worker = true
  | .wakeUpLast => s.caller = .stopping
  | .readQueue => s.worker = .check
  | .elapse => s.worker = .timing
  | .sleep => s.worker = .timing
  | .loadFlag => s.worker = .slept
  | .wait => s.worker = .waiting ∧ s.wakeupWorker = true
  | .copy => s.worker = .settling
  | .resetFlag queue => s.worker = .copied queue
  | .poll pid rest _ => s.worker = .polling (pid :: rest)
  | .finish => s.worker = .polling []
  | .erase pid rest => s.worker = .exited pid rest
  | .decrement rest => s.worker = .erased rest

instance (s : State) (e : Event) : Decidable (Enabled s e) := by
  cases e <;> simp only [Enabled] <;> infer_instance

/-- `std::set::insert`; the worker polls its copy in this order. -/
def insertPid (queue : List Pid) (pid : Pid) : List Pid :=
  if pid ∈ queue then queue else queue.orderedInsert (· ≤ ·) pid

theorem insertPid_perm {queue : List Pid} {pid : Pid} (h : pid ∉ queue) :
    (insertPid queue pid).Perm (pid :: queue) := by
  rw [insertPid, if_neg h]
  exact List.perm_orderedInsert _ _ _

def next (s : State) : Event → State
  | .closePid pid =>
    { s with remaining := s.remaining + 1, caller := .incremented pid }
  | .insert pid => { s with queue := insertPid s.queue pid, caller := .inserted pid }
  | .wakeUp _ => { s with wakeupWorker := true, caller := .idle }
  | .shutdown => { s with shouldShutdown := true, caller := .stopping }
  | .wakeUpLast => { s with wakeupWorker := true, caller := .gone }
  | .readQueue => { s with worker := if s.queue = [] then .waiting else .timing }
  | .elapse => { s with worker := .settling }
  | .sleep => { s with worker := if s.shouldShutdown then .returned else .slept }
  | .loadFlag => { s with worker := if s.wakeupWorker then .settling else .timing }
  | .wait => { s with worker := .settling }
  | .copy =>
    { s with
      worker := if s.shouldShutdown then .returned
        else if s.queue = [] then .raised emptyError
        else .copied s.queue }
  | .resetFlag queue => { s with wakeupWorker := false, worker := .polling queue }
  | .poll pid rest ended => { s with worker := if ended then .exited pid rest else .polling rest }
  | .finish => { s with worker := .check }
  | .erase pid rest =>
    { s with
      queue := s.queue.erase pid
      worker := if pid ∈ s.queue then .erased rest else .raised missingError }
  | .decrement rest =>
    { s with remaining := s.remaining - 1, worker := .polling rest }

def machine : Machine State Event := ⟨Enabled, next⟩

instance (s : State) (e : Event) : Decidable (machine.Enabled s e) :=
  inferInstanceAs (Decidable (Enabled s e))

def Caller.isClosing : Caller → Bool
  | .incremented _ | .inserted _ => true
  | _ => false

def Caller.isInserted : Caller → Bool
  | .inserted _ => true
  | _ => false

def Worker.isCounting : Worker → Bool
  | .erased _ => true
  | _ => false

/-- The worker has raised no error, and the counter is the size of the queue unless someone is
between. -/
structure Safe (s : State) : Prop where
  quiet : ∀ what, s.worker ≠ .raised what
  counted : s.caller.isClosing = false → s.worker.isCounting = false →
    s.remaining.toNat = s.queue.length

/-- The flag is not reset while a call of `close_pid` has a pid in the queue and has not stored
it. -/
def ResetsAlone (s : State) : Event → Prop
  | .resetFlag _ => s.caller.isInserted = false
  | _ => True

instance (s : State) (e : Event) : Decidable (ResetsAlone s e) := by
  cases e <;> simp only [ResetsAlone] <;> infer_instance

def alone : Machine State Event := machine.guarded ResetsAlone

instance (s : State) (e : Event) : Decidable (alone.Enabled s e) :=
  inferInstanceAs (Decidable (ResetsAlone s e ∧ Enabled s e))

/-- The pids that the worker is still going to poll or to erase. -/
def Worker.held : Worker → List Pid
  | .polling queue | .erased queue => queue
  | .exited pid queue => pid :: queue
  | _ => []

/-- The worker has seen that there is something in the queue. -/
def Worker.expecting : Worker → Bool
  | .timing | .slept | .settling | .copied _ => true
  | _ => false

def Caller.isStopping : Caller → Bool
  | .stopping | .gone => true
  | _ => false

/-- Something is in the queue that the worker does not erase before it copies the queue again. -/
def Fresh (s : State) : Prop := ∃ pid ∈ s.queue, pid ∉ s.worker.held

/-- A pid that is counted and not in the queue yet. -/
def Caller.ahead : Caller → ℕ
  | .incremented _ => 1
  | _ => 0

/-- A pid that is counted and not in the queue any more. -/
def Worker.behind : Worker → ℕ
  | .erased _ => 1
  | _ => 0

structure Counts (s : State) : Prop where
  nodup : s.queue.Nodup
  remaining : s.remaining = UInt32.ofNat (s.queue.length + s.caller.ahead + s.worker.behind)
  incremented : ∀ pid, s.caller = .incremented pid → pid ∉ s.queue
  held_nodup : s.worker.held.Nodup
  held_subset : s.worker.held ⊆ s.queue
  copied : ∀ queue, s.worker = .copied queue → queue = s.queue
  stopping : s.shouldShutdown = s.caller.isStopping

structure Wakes (s : State) : Prop where
  inserted : ∀ pid, s.caller = .inserted pid → pid ∈ s.queue ∧ pid ∉ s.worker.held
  flagged : s.wakeupWorker = true → s.shouldShutdown = true ∨ Fresh s
  expecting : s.worker.expecting = true → s.shouldShutdown = true ∨ s.queue ≠ []
  quiet : ∀ what, s.worker ≠ .raised what

theorem length_queue_le {queue : List Pid} (h : queue.Nodup) : queue.length ≤ 2 ^ 31 := by
  have hc := h.length_le_card
  rwa [Fintype.card_fin] at hc

theorem ofNat_add_one (n : ℕ) : UInt32.ofNat n + 1 = UInt32.ofNat (n + 1) :=
  (UInt32.ofNat_add n 1).symm

theorem ofNat_sub_one (n : ℕ) : UInt32.ofNat (n + 1) - 1 = UInt32.ofNat n := by
  rw [← ofNat_add_one, UInt32.add_sub_cancel]

theorem initial_counts : Counts initial := by
  constructor
  · exact List.nodup_nil
  · rfl
  · intro pid h
    cases h
  · exact List.nodup_nil
  · exact List.Subset.refl _
  · intro queue h
    cases h
  · rfl

theorem initial_wakes : Wakes initial := by
  constructor
  · intro pid h
    cases h
  · intro h
    cases h
  · intro h
    cases h
  · intro what h
    cases h

section

variable {s : State} {v w : Worker}

theorem Counts.moveWorker (h : Counts s) {flag : Bool} (hv : s.worker = v)
    (hcount : w.behind = v.behind) (hn : w.held.Nodup) (hs : w.held ⊆ s.queue)
    (hq : ∀ queue, w = .copied queue → queue = s.queue) :
    Counts { s with wakeupWorker := flag, worker := w } := by
  refine ⟨h.nodup, ?_, h.incremented, hn, hs, hq, h.stopping⟩
  simp only [hcount, ← hv]
  exact h.remaining

theorem Counts.moveIdle (h : Counts s) (hv : s.worker = v)
    (hcount : w.behind = v.behind) (hw : w.held = [])
    (hq : ∀ queue, w = .copied queue → queue = s.queue) : Counts { s with worker := w } := by
  apply h.moveWorker hv hcount _ _ hq
  · rw [hw]
    exact List.nodup_nil
  · rw [hw]
    exact List.nil_subset _

theorem Counts.moveCaller (h : Counts s) {b c : Caller} {flag stop : Bool} (hb : s.caller = b)
    (hs : b.ahead = 0) (hc : c.ahead = 0) (hstop : stop = c.isStopping) :
    Counts { s with wakeupWorker := flag, shouldShutdown := stop, caller := c } := by
  refine ⟨h.nodup, ?_, ?_, h.held_nodup, h.held_subset, h.copied, hstop⟩
  · have hr := h.remaining
    rw [hb, hs] at hr
    simp only [hc]
    exact hr
  · intro pid hp
    simp only at hp
    rw [hp] at hc
    cases hc

variable {pid : Pid}

theorem Counts.closePid (h : Counts s) (he : Enabled s (.closePid pid)) :
    Counts (next s (.closePid pid)) := by
  have hr := h.remaining
  rw [he.1] at hr
  refine ⟨h.nodup, ?_, ?_, h.held_nodup, h.held_subset, h.copied, ?_⟩
  · simp only [next, hr, Caller.ahead, ofNat_add_one]
    congr 1
    omega
  · intro pid' hp
    cases hp
    exact he.2
  · rw [next, h.stopping, he.1]
    rfl

theorem Counts.insert (h : Counts s) (he : Enabled s (.insert pid)) :
    Counts (next s (.insert pid)) := by
  have hr := h.remaining
  have hp := h.incremented pid he.1
  rw [he.1] at hr
  have hperm := insertPid_perm hp
  refine ⟨hperm.nodup_iff.mpr (List.nodup_cons.mpr ⟨hp, h.nodup⟩), ?_, ?_, h.held_nodup, ?_, ?_, ?_⟩
  · simp only [next, hperm.length_eq, List.length_cons, Caller.ahead] at hr ⊢
    exact hr
  · intro pid' hp'
    cases hp'
  · exact fun p hp' => hperm.mem_iff.mpr (List.mem_cons_of_mem _ (h.held_subset hp'))
  · -- the worker has no copy, since the mutex is free
    intro queue hq
    have hm := he.2
    simp only [next] at hq
    rw [hq] at hm
    cases hm
  · rw [next, h.stopping, he.1]
    rfl

variable {rest : List Pid}

theorem Counts.mem_exited (h : Counts s) (hw : s.worker = .exited pid rest) : pid ∈ s.queue := by
  apply h.held_subset
  rw [hw]
  exact List.mem_cons_self

theorem Counts.erase (h : Counts s)
    (hw : s.worker = .exited pid rest) : Counts (next s (.erase pid rest)) := by
  have hr := h.remaining
  have hn := h.held_nodup
  have hs := h.held_subset
  have hmem := h.mem_exited hw
  rw [hw] at hn hs hr
  obtain ⟨hp, hn⟩ := List.nodup_cons.mp hn
  have hlen := List.length_erase_of_mem hmem
  have hpos := List.length_pos_of_mem hmem
  rw [next, if_pos hmem]
  refine ⟨h.nodup.erase _, ?_, ?_, hn, ?_, by simp, h.stopping⟩
  · simp only [Worker.behind, hlen] at hr ⊢
    rw [hr]
    congr 1
    omega
  · intro p hc hm
    exact h.incremented p hc (List.mem_of_mem_erase hm)
  · intro p hm
    apply (List.mem_erase_of_ne _).mpr (hs (List.mem_cons_of_mem _ hm))
    rintro rfl
    exact hp hm

theorem Counts.decrement (h : Counts s) (hw : s.worker = .erased rest) :
    Counts (next s (.decrement rest)) := by
  have hr := h.remaining
  have hn := h.held_nodup
  have hs := h.held_subset
  rw [hw] at hn hs hr
  refine ⟨h.nodup, ?_, h.incremented, hn, hs, by simp [next], h.stopping⟩
  simp only [next, hr, Worker.behind, ofNat_sub_one]
  rfl

theorem counts_step {e : Event} (h : Counts s) (he : Enabled s e) : Counts (next s e) := by
  cases e with
  | closePid pid => exact h.closePid he
  | insert pid => exact h.insert he
  | wakeUp pid =>
    have hc : s.caller = .inserted pid := he
    apply h.moveCaller hc rfl rfl
    rw [h.stopping, hc]
    rfl
  | shutdown => exact h.moveCaller he.1 rfl rfl rfl
  | wakeUpLast =>
    have hc : s.caller = .stopping := he
    apply h.moveCaller hc rfl rfl
    rw [h.stopping, hc]
    rfl
  | readQueue | sleep | loadFlag =>
    rw [next]
    split
    · exact h.moveIdle he rfl rfl (by simp)
    · exact h.moveIdle he rfl rfl (by simp)
  | elapse | finish => exact h.moveIdle he rfl rfl (by simp)
  | wait => exact h.moveIdle he.1 rfl rfl (by simp)
  | copy =>
    rw [next]
    split
    · exact h.moveIdle he rfl rfl (by simp)
    · split
      · exact h.moveIdle he rfl rfl (by simp)
      · exact h.moveIdle he rfl rfl (by simp)
  | resetFlag queue =>
    have hq := h.copied queue he
    refine h.moveWorker he rfl ?_ ?_ (by simp)
    · rw [hq]
      exact h.nodup
    · rw [hq]
      exact List.Subset.refl _
  | poll pid rest ended =>
    have hw : s.worker = .polling (pid :: rest) := he
    have hn := h.held_nodup
    have hs := h.held_subset
    rw [hw] at hn hs
    cases ended with
    | true => exact h.moveWorker hw rfl hn hs (by simp)
    | false =>
      exact h.moveWorker (w := .polling rest) hw rfl (List.nodup_cons.mp hn).2
        (List.subset_of_cons_subset hs) (by simp)
  | erase pid rest => exact h.erase he
  | decrement rest => exact h.decrement he

theorem Wakes.moveWorker (h : Wakes s) (hh : w.held ⊆ s.worker.held)
    (hx : w.expecting = true → s.shouldShutdown = true ∨ s.queue ≠ [])
    (hq : ∀ what, w ≠ .raised what) : Wakes { s with worker := w } := by
  refine ⟨?_, ?_, hx, hq⟩
  · intro pid hp
    obtain ⟨hm, hn⟩ := h.inserted pid hp
    exact ⟨hm, fun hw => hn (hh hw)⟩
  · intro hf
    rcases h.flagged hf with hs | ⟨pid, hm, hn⟩
    · exact .inl hs
    · exact .inr ⟨pid, hm, fun hw => hn (hh hw)⟩

theorem Wakes.moveOff (h : Wakes s) (hv : s.worker = v) (hh : w.held ⊆ v.held)
    (hx : w.expecting = false) (hq : ∀ what, w ≠ .raised what) : Wakes { s with worker := w } := by
  refine h.moveWorker (by rwa [hv]) ?_ hq
  rw [hx]
  intro hf
  cases hf

theorem Wakes.moveOn (h : Wakes s) (hv : s.worker = v) (hx : v.expecting = true)
    (hw : w.held = []) (hq : ∀ what, w ≠ .raised what) : Wakes { s with worker := w } := by
  refine h.moveWorker ?_ ?_ hq
  · rw [hw]
    exact List.nil_subset _
  · intro _
    apply h.expecting
    rw [hv, hx]

theorem Wakes.moveCaller (h : Wakes s) {c : Caller} {flag stop : Bool}
    (hc : ∀ pid, c ≠ .inserted pid) (hs : s.shouldShutdown = true → stop = true)
    (hf : flag = true → s.wakeupWorker = true ∨ stop = true ∨ Fresh s) :
    Wakes { s with wakeupWorker := flag, shouldShutdown := stop, caller := c } := by
  refine ⟨?_, ?_, ?_, h.quiet⟩
  · intro pid hp
    exact absurd hp (hc pid)
  · intro hflag
    rcases hf hflag with hw | hst | hfr
    · rcases h.flagged hw with hst | hfr
      · exact .inl (hs hst)
      · exact .inr hfr
    · exact .inl hst
    · exact .inr hfr
  · intro hx
    rcases h.expecting hx with hst | hq
    · exact .inl (hs hst)
    · exact .inr hq

theorem Fresh.nonempty (h : Fresh s) : s.queue ≠ [] := by
  obtain ⟨pid, hm, -⟩ := h
  exact List.ne_nil_of_mem hm

theorem Wakes.insert (hc : Counts s) (h : Wakes s) (he : Enabled s (.insert pid)) :
    Wakes (next s (.insert pid)) := by
  have hp := hc.incremented pid he.1
  have hperm := insertPid_perm hp
  have hmem : pid ∈ insertPid s.queue pid := hperm.mem_iff.mpr List.mem_cons_self
  refine ⟨?_, ?_, ?_, h.quiet⟩
  · intro pid' hp'
    cases hp'
    exact ⟨hmem, fun hm => hp (hc.held_subset hm)⟩
  · intro hf
    rcases h.flagged hf with hs | ⟨q, hm, hn⟩
    · exact .inl hs
    · exact .inr ⟨q, hperm.mem_iff.mpr (List.mem_cons_of_mem _ hm), hn⟩
  · intro _
    exact .inr (List.ne_nil_of_mem hmem)

theorem Wakes.copy (h : Wakes s) (hw : s.worker = .settling) : Wakes (next s .copy) := by
  have hx := h.expecting (by rw [hw]; rfl)
  rw [next]
  by_cases hs : s.shouldShutdown = true
  · rw [if_pos hs]
    exact h.moveOff hw (List.nil_subset _) rfl (by simp)
  · have hq : s.queue ≠ [] := hx.resolve_left hs
    rw [if_neg hs, if_neg hq]
    exact h.moveOn hw rfl rfl (by simp)

theorem Wakes.erase (hc : Counts s) (h : Wakes s)
    (hw : s.worker = .exited pid rest) : Wakes (next s (.erase pid rest)) := by
  have hkeep : ∀ p, p ∈ s.queue ∧ p ∉ s.worker.held → p ∈ s.queue.erase pid ∧ p ∉ rest := by
    rintro p ⟨hp, hn⟩
    rw [hw, Worker.held, List.mem_cons, not_or] at hn
    exact ⟨(List.mem_erase_of_ne hn.1).mpr hp, hn.2⟩
  rw [next, if_pos (hc.mem_exited hw)]
  refine ⟨fun p hp => hkeep p (h.inserted p hp), ?_, ?_, by simp⟩
  · intro hf
    rcases h.flagged hf with hs | ⟨p, hp⟩
    · exact .inl hs
    · exact .inr ⟨p, hkeep p hp⟩
  · intro hx
    cases hx

theorem Wakes.decrement (h : Wakes s) (hw : s.worker = .erased rest) :
    Wakes (next s (.decrement rest)) := by
  have hh : s.worker.held = rest := by
    rw [hw]
    rfl
  refine ⟨?_, ?_, ?_, by simp [next]⟩
  · intro p hp
    have hi := h.inserted p hp
    rwa [hh] at hi
  · intro hf
    have hfr := h.flagged hf
    rwa [Fresh, hh] at hfr
  · intro hx
    cases hx

theorem wakes_step {e : Event} (hc : Counts s) (h : Wakes s) (he : Enabled s e)
    (ha : ResetsAlone s e) : Wakes (next s e) := by
  cases e with
  | closePid pid =>
    refine ⟨?_, h.flagged, h.expecting, h.quiet⟩
    intro pid' hp
    cases hp
  | insert pid => exact h.insert hc he
  | wakeUp pid =>
    refine h.moveCaller (by simp) id ?_
    intro _
    exact .inr (.inr ⟨pid, h.inserted pid he⟩)
  | shutdown => exact h.moveCaller (by simp) (fun _ => rfl) .inl
  | wakeUpLast =>
    have hi : s.caller = .stopping := he
    refine h.moveCaller (by simp) id ?_
    intro _
    rw [hc.stopping, hi]
    exact .inr (.inl rfl)
  | readQueue =>
    rw [next]
    by_cases hq : s.queue = []
    · rw [if_pos hq]
      exact h.moveOff he (List.nil_subset _) rfl (by simp)
    · rw [if_neg hq]
      exact h.moveWorker (List.nil_subset _) (fun _ => .inr hq) (by simp)
  | elapse => exact h.moveOn he rfl rfl (by simp)
  | sleep =>
    rw [next]
    split
    · exact h.moveOff he (List.nil_subset _) rfl (by simp)
    · exact h.moveOn he rfl rfl (by simp)
  | loadFlag =>
    rw [next]
    split
    · exact h.moveOn he rfl rfl (by simp)
    · exact h.moveOn he rfl rfl (by simp)
  | wait =>
    -- the flag is what the worker relies on here: it has seen an empty queue
    refine h.moveWorker (List.nil_subset _) ?_ (by simp)
    intro _
    rcases h.flagged he.2 with hs | hfr
    · exact .inl hs
    · exact .inr hfr.nonempty
  | copy => exact h.copy he
  | resetFlag queue =>
    refine ⟨?_, ?_, ?_, by simp [next]⟩
    · intro pid hp
      have hi : s.caller.isInserted = false := ha
      rw [show s.caller = .inserted pid from hp] at hi
      cases hi
    · intro hf
      cases hf
    · intro hx
      cases hx
  | poll pid rest ended =>
    cases ended with
    | true => exact h.moveOff (w := .exited pid rest) he (List.Subset.refl _) rfl (by simp)
    | false => exact h.moveOff (w := .polling rest) he (List.subset_cons_self _ _) rfl (by simp)
  | finish => exact h.moveOff he (List.nil_subset _) rfl (by simp)
  | erase pid rest => exact h.erase hc he
  | decrement rest => exact h.decrement he

theorem reach_polled (queue : List Pid) : ∀ s : State, s.worker = .polling queue →
    s.queue = queue → queue.Nodup → ∃ t, Reachable alone.system s t ∧ t.worker = .polling [] ∧
      t.queue = [] ∧ t.caller = s.caller ∧ t.shouldShutdown = s.shouldShutdown := by
  induction queue with
  | nil =>
    intro s hw hq _
    exact ⟨s, ⟨[], .nil s⟩, hw, hq, rfl, rfl⟩
  | cons pid rest ih =>
    intro s hw hq hn
    have hmem : pid ∈ s.queue := by
      rw [hq]
      exact List.mem_cons_self
    have hpoll : alone.Enabled s (.poll pid rest true) := ⟨trivial, hw⟩
    have herase : alone.Enabled (next s (.poll pid rest true)) (.erase pid rest) := ⟨trivial, rfl⟩
    have hdec : alone.Enabled (next (next s (.poll pid rest true)) (.erase pid rest))
        (.decrement rest) := by
      refine ⟨trivial, ?_⟩
      simp only [next, hmem, ↓reduceIte]
      rfl
    obtain ⟨t, ht, h⟩ := ih (next (next (next s (.poll pid rest true)) (.erase pid rest))
      (.decrement rest)) rfl (by simp only [next, hq, List.erase_cons_head])
      (List.nodup_cons.mp hn).2
    refine ⟨t, ?_, h⟩
    apply Machine.reachable_next hpoll
    apply Machine.reachable_next herase
    apply Machine.reachable_next hdec
    exact ht

/-- A flag that is reset before a call has stored it wakes the worker up for nothing, when all
processes have ended. -/
theorem reset_canRaise {queue : List Pid} (hc : Counts s)
    (hw : s.worker = .copied queue) (hp : s.caller = .inserted pid) :
    ∃ t, Reachable alone.system (next s (.resetFlag queue)) t ∧ t.worker = .raised emptyError := by
  have hq := hc.copied queue hw
  obtain ⟨t, ht, hpolled, hempty, hcaller, hstop⟩ :=
    reach_polled queue (next s (.resetFlag queue)) rfl hq.symm (hq ▸ hc.nodup)
  have hcaller : t.caller = .inserted pid := hcaller.trans hp
  have hstop : t.shouldShutdown = false := by
    rw [hstop, next, hc.stopping, hp]
    rfl
  have hfinish : alone.Enabled t .finish := ⟨trivial, hpolled⟩
  have hread : alone.Enabled (next t .finish) .readQueue := ⟨trivial, rfl⟩
  have hwake : alone.Enabled (next (next t .finish) .readQueue) (.wakeUp pid) :=
    ⟨trivial, hcaller⟩
  have hwait : alone.Enabled (next (next (next t .finish) .readQueue) (.wakeUp pid)) .wait := by
    refine ⟨trivial, ?_, rfl⟩
    simp only [next, hempty, ↓reduceIte]
  have hcopy : alone.Enabled (next (next (next (next t .finish) .readQueue) (.wakeUp pid)) .wait)
      .copy := ⟨trivial, rfl⟩
  obtain ⟨es, hes⟩ := ht
  obtain ⟨fs, hfs⟩ : Reachable alone.system t
      (next (next (next (next (next t .finish) .readQueue) (.wakeUp pid)) .wait) .copy) := by
    apply Machine.reachable_next hfinish
    apply Machine.reachable_next hread
    apply Machine.reachable_next hwake
    apply Machine.reachable_next hwait
    apply Machine.reachable_next hcopy
    exact ⟨[], .nil _⟩
  refine ⟨_, ⟨es ++ fs, hes.trans hfs⟩, ?_⟩
  simp only [next, hempty, hstop, Bool.false_eq_true, ↓reduceIte]

theorem invariant_step {e : Event} (h : Counts s ∧ Wakes s) (he : Enabled s e)
    (ha : ResetsAlone s e) : Counts (next s e) ∧ Wakes (next s e) :=
  ⟨counts_step h.1 he, wakes_step h.1 h.2 he ha⟩

theorem alone_invariant {t : State} (h : Counts s ∧ Wakes s) (hr : Reachable alone.system s t) :
    Counts t ∧ Wakes t := by
  apply hr.invariant (I := fun u => Counts u ∧ Wakes u) h
  rintro u e _ hu ⟨he, rfl⟩
  exact invariant_step hu he.2 he.1

theorem safe_of_invariant (h : Counts s ∧ Wakes s) : Safe s := by
  refine ⟨h.2.quiet, ?_⟩
  intro hc hw
  have hr := h.1.remaining
  have ha : s.caller.ahead = 0 := by
    cases hs : s.caller <;> simp_all [Caller.ahead, Caller.isClosing]
  have hb : s.worker.behind = 0 := by
    cases hs : s.worker <;> simp_all [Worker.behind, Worker.isCounting]
  have hl := length_queue_le h.1.nodup
  rw [hr, ha, hb, UInt32.toNat_ofNat_of_lt']
  · rfl
  · simp only [UInt32.size]
    omega

end

/-- In a run in which the flag is never reset while a call of `close_pid` still has to store it,
no error is raised and the counter is right. A step keeps it so exactly when it is of this kind.
-/
theorem safe_iff {s : State} (h : Reachable alone.system initial s) :
    Safe s ∧ ∀ e, Enabled s e →
      ((∀ t, Reachable alone.system (next s e) t → Safe t) ↔ ResetsAlone s e) := by
  have hi := alone_invariant ⟨initial_counts, initial_wakes⟩ h
  refine ⟨safe_of_invariant hi, fun e he => ⟨?_, ?_⟩⟩
  · intro ht
    cases e with
    | resetFlag queue =>
      cases hp : s.caller with
      | inserted pid =>
        obtain ⟨t, hr, hw⟩ := reset_canRaise hi.1 he hp
        exact absurd hw ((ht t hr).quiet _)
      | _ =>
        rw [ResetsAlone, hp]
        rfl
    | _ => trivial
  · intro ha t ht
    exact safe_of_invariant (alone_invariant (invariant_step hi he ha) ht)

def quietRun : List Event :=
  [.readQueue, .closePid 1, .insert 1, .wakeUp 1, .wait, .closePid 2, .insert 2, .copy, .wakeUp 2,
    .resetFlag [1, 2], .poll 1 [2] true, .erase 1 [2], .decrement [2], .poll 2 [] false, .finish,
    .readQueue]

theorem quietRun_safe :
    (alone.replay initial quietRun).remaining = 1 ∧ Safe (alone.replay initial quietRun) := by
  have ha : alone.Accepts initial quietRun := by decide +kernel
  exact ⟨by decide +kernel, (safe_iff ⟨_, ha.execution⟩).1⟩

/-- The second call stores the flag after it was reset and after both processes have ended. -/
def lateRun : List Event :=
  [.readQueue, .closePid 1, .insert 1, .wakeUp 1, .wait, .closePid 2, .insert 2, .copy,
    .resetFlag [1, 2], .poll 1 [2] true, .erase 1 [2], .decrement [2], .poll 2 [] true, .erase 2 [],
    .decrement [], .finish, .readQueue, .wakeUp 2, .wait, .copy]

theorem lateRun_raises :
    machine.Accepts initial lateRun ∧
      (machine.replay initial lateRun).worker = .raised emptyError := by
  decide +kernel

end WaitpidQueue
