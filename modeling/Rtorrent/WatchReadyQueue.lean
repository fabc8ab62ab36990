import Mathlib.Data.Int.Notation
import Mathlib.Data.List.Basic
import Rtorrent.TransitionSystems

/-! # Files that are loaded when they are complete

The command of a path is called once its file has not changed for some time. `process` first
looks at all entries whose time has come and then calls the commands, which may change files.
Pushes come from the poll loop and `shutdown` from the main loop, never from a command. -/
namespace WatchReadyQueue

open TransitionSystems

abbrev Path := String

/-- What `FileStat` says of a file that exists. -/
structure Status where
  regular : Bool
  size : ℤ
  mtime : ℤ
  deriving DecidableEq, Repr

/-- The file that `expand_path` names for a path. -/
abbrev Files := Path → Option Status

/-! Times are in microseconds. -/

def quietTime : ℕ := 500000
def retryTime : ℕ := 250000
def staleTime : ℕ := 10000000

structure Entry where
  command : String
  status : Status
  firstSeen : ℕ
  lastChanged : ℕ
  nextTime : ℕ
  deriving DecidableEq, Repr

/-- The status of an entry whose file could not be found, which is also that of a new one. -/
def missing : Status := ⟨false, -1, 0⟩

def NonemptyRegular (status : Status) : Prop := status.regular = true ∧ 0 < status.size

instance (status : Status) : Decidable (NonemptyRegular status) :=
  inferInstanceAs (Decidable (status.regular = true ∧ 0 < status.size))

/-- What has happened, the latest first. -/
inductive Record where
  | pushed (path : Path) (time : ℕ)
  | seen (path : Path) (time : ℕ)
  | dispatched (command : String) (path : Path) (time : ℕ)
  | stopped
  deriving DecidableEq, Repr

inductive Phase where
  | idle
  | checking
  | dispatching
  deriving DecidableEq, Repr

/-- The queue holds the paths in the order of some heap. The status of an entry that `process`
took is kept. -/
structure State where
  files : Files
  now : ℕ
  active : Bool
  entries : Path → Option Entry
  queue : List Path
  phase : Phase
  ready : List (String × Path)
  checked : Path → Status
  log : List Record

def initial (files : Files) : State :=
  ⟨files, 0, true, fun _ => none, [], .idle, [], fun _ => missing, []⟩

def updateNextTime (now : ℕ) (e : Entry) : Entry :=
  { e with
    nextTime := if NonemptyRegular e.status then e.lastChanged + quietTime
      else min (now + retryTime) (e.firstSeen + staleTime) }

def currentStatus (files : Files) (path : Path) : Status := (files path).getD missing

def updateStatus (files : Files) (now : ℕ) (path : Path) (e : Entry) : Entry :=
  if e.status ≠ currentStatus files path then
    { e with status := currentStatus files path, lastChanged := now }
  else e

/-- A change that `update_status` has seen. -/
def seenChange (files : Files) (now : ℕ) (path : Path) (e : Entry) : List Record :=
  if e.status ≠ currentStatus files path then [.seen path now] else []

def pushedEntry (s : State) (command : String) (path : Path) : Entry :=
  let e := (s.entries path).getD ⟨"", missing, s.now, 0, 0⟩
  { e with command := command, lastChanged := s.now }

def push (s : State) (command : String) (path : Path) : State :=
  if s.active then
    let e := pushedEntry s command path
    { s with
      entries := Function.update s.entries path
        (some (updateNextTime s.now (updateStatus s.files s.now path e)))
      queue := if s.entries path = none then path :: s.queue else s.queue
      log := seenChange s.files s.now path e ++ .pushed path s.now :: s.log }
  else { s with log := .pushed path s.now :: s.log }

def shutdown (s : State) : State :=
  { s with active := false, entries := fun _ => none, queue := [], log := .stopped :: s.log }

/-- One turn of the loop of `process`, for the entry at the front of the heap. -/
def pop (s : State) (path : Path) : State :=
  match s.entries path with
  | none => { s with queue := s.queue.erase path }
  | some old =>
    let e := updateStatus s.files s.now path old
    let s :=
      { s with
        queue := s.queue.erase path
        checked := Function.update s.checked path e.status
        log := seenChange s.files s.now path old ++ s.log }
    if NonemptyRegular e.status ∧ quietTime ≤ s.now - e.lastChanged then
      { s with
        ready := s.ready ++ [(e.command, path)]
        entries := Function.update s.entries path none }
    else if ¬ NonemptyRegular e.status ∧ staleTime ≤ s.now - e.firstSeen then
      { s with entries := Function.update s.entries path none }
    else
      { s with
        entries := Function.update s.entries path (some (updateNextTime s.now e))
        queue := path :: s.queue }

def nextTimeOf (s : State) (path : Path) : ℕ := ((s.entries path).map Entry.nextTime).getD 0

def Due (s : State) (path : Path) : Prop := nextTimeOf s path ≤ s.now

instance (s : State) (path : Path) : Decidable (Due s path) :=
  inferInstanceAs (Decidable (nextTimeOf s path ≤ s.now))

/-- The front of a heap is an entry with the least time. -/
def AtFront (s : State) (path : Path) : Prop :=
  path ∈ s.queue ∧ ∀ q ∈ s.queue, nextTimeOf s path ≤ nextTimeOf s q

instance (s : State) (path : Path) : Decidable (AtFront s path) :=
  inferInstanceAs (Decidable (path ∈ s.queue ∧ ∀ q ∈ s.queue, nextTimeOf s path ≤ nextTimeOf s q))

inductive Event where
  | push (command : String) (path : Path)
  | change (files : Files)
  | advance (time : ℕ)
  | process
  | pop (path : Path)
  | endLoop
  | dispatch (command : String) (path : Path)
  | endProcess
  | shutdown

def Enabled (s : State) : Event → Prop
  | .push _ _ | .advance _ | .process | .shutdown => s.phase = .idle
  | .change _ => True
  | .pop path => s.phase = .checking ∧ AtFront s path ∧ Due s path
  | .endLoop => s.phase = .checking ∧ ∀ q ∈ s.queue, ¬ Due s q
  | .dispatch command path => s.phase = .dispatching ∧ s.ready.head? = some (command, path)
  | .endProcess => s.phase = .dispatching ∧ s.ready = []

instance (s : State) (e : Event) : Decidable (Enabled s e) := by
  cases e <;> simp only [Enabled] <;> infer_instance

def next (s : State) : Event → State
  | .push command path => push s command path
  | .change files => { s with files := files }
  | .advance time => { s with now := s.now + time }
  | .process => { s with phase := .checking }
  | .pop path => pop s path
  | .endLoop => { s with phase := .dispatching }
  | .dispatch command path =>
    { s with ready := s.ready.tail, log := .dispatched command path s.now :: s.log }
  | .endProcess => { s with phase := .idle }
  | .shutdown => shutdown s

def machine : Machine State Event := ⟨Enabled, next⟩

instance (s : State) (e : Event) : Decidable (machine.Enabled s e) :=
  inferInstanceAs (Decidable (Enabled s e))

/-- Neither a push for this path nor a change of its file was recorded after this time. -/
def QuietSince (log : List Record) (path : Path) (time : ℕ) : Prop :=
  ∀ t, .pushed path t ∈ log ∨ .seen path t ∈ log → t ≤ time

/-- There was a push for this path and no dispatch after it. -/
def Awaits (path : Path) : List Record → Prop
  | [] => False
  | .pushed q _ :: log => q = path ∨ Awaits path log
  | .dispatched _ q _ :: log => q ≠ path ∧ Awaits path log
  | .seen _ _ :: log | .stopped :: log => Awaits path log

section

variable {log : List Record} {path p : Path} {time t now : ℕ} {r : Record} {files : Files}
  {e : Entry}

theorem QuietSince.cons (h : QuietSince log p time)
    (hr : ∀ u, r = .pushed p u ∨ r = .seen p u → u ≤ time) : QuietSince (r :: log) p time := by
  intro u hu
  rcases hu with hu | hu
  · rcases List.mem_cons.mp hu with hu | hu
    · exact hr u (.inl hu.symm)
    · exact h u (.inl hu)
  · rcases List.mem_cons.mp hu with hu | hu
    · exact hr u (.inr hu.symm)
    · exact h u (.inr hu)

theorem QuietSince.mono (h : QuietSince log p time) (ht : time ≤ t) : QuietSince log p t := by
  intro u hu
  have hle := h u hu
  omega

theorem QuietSince.pushed (h : QuietSince log p time) (ht : path = p → t ≤ time) :
    QuietSince (.pushed path t :: log) p time := by
  apply h.cons
  rintro u (hu | hu)
  · cases hu
    exact ht rfl
  · cases hu

theorem QuietSince.dispatched {command : String} (h : QuietSince log p time) :
    QuietSince (.dispatched command path t :: log) p time := by
  apply h.cons
  rintro u (hu | hu)
  · cases hu
  · cases hu

theorem QuietSince.seenChange (h : QuietSince log p time) (ht : path = p → now ≤ time) :
    QuietSince (seenChange files now path e ++ log) p time := by
  rw [WatchReadyQueue.seenChange]
  split
  · apply h.cons
    rintro u (hu | hu)
    · cases hu
    · cases hu
      exact ht rfl
  · exact h

theorem awaits_seenChange : Awaits p (seenChange files now path e ++ log) ↔ Awaits p log := by
  rw [seenChange]
  split
  · exact Iff.rfl
  · exact Iff.rfl

theorem stopped_seenChange : .stopped ∈ seenChange files now path e ++ log ↔ .stopped ∈ log := by
  rw [seenChange]
  split <;> simp

theorem updateStatus_status :
    (updateStatus files now path e).status = currentStatus files path := by
  rw [updateStatus]
  split
  · rfl
  · rename_i h
    exact Decidable.not_not.mp h

/-- An entry knows when its path was last pushed or its file last seen to change. -/
structure Tracked (log : List Record) (now : ℕ) (path : Path) (e : Entry) : Prop where
  quiet : QuietSince log path e.lastChanged
  awaits : Awaits path log
  past : e.lastChanged ≤ now

theorem Tracked.updateStatus (h : Tracked log now path e) (files : Files) :
    Tracked (WatchReadyQueue.seenChange files now path e ++ log) now path
      (WatchReadyQueue.updateStatus files now path e) := by
  have hpast := h.past
  refine ⟨?_, awaits_seenChange.mpr h.awaits, ?_⟩
  · rw [WatchReadyQueue.updateStatus, WatchReadyQueue.seenChange]
    split
    · apply (h.quiet.mono hpast).cons
      rintro u (hu | hu)
      · cases hu
      · cases hu
        exact Nat.le_refl _
    · exact h.quiet
  · rw [WatchReadyQueue.updateStatus]
    split
    · exact Nat.le_refl _
    · exact hpast

theorem Tracked.seenChange (h : Tracked log now p e) (hp : path ≠ p) {old : Entry} :
    Tracked (WatchReadyQueue.seenChange files now path old ++ log) now p e :=
  ⟨h.quiet.seenChange fun hq => absurd hq hp, awaits_seenChange.mpr h.awaits, h.past⟩

/-- What a command that is about to be called can rely on. -/
structure Ready (log : List Record) (now : ℕ) (checked : Status) (path : Path) : Prop where
  complete : NonemptyRegular checked
  quiet : ∃ time, QuietSince log path time ∧ time + quietTime ≤ now
  awaits : Awaits path log

theorem Ready.seenChange {checked : Status} (h : Ready log now checked p) (hp : path ≠ p) :
    Ready (WatchReadyQueue.seenChange files now path e ++ log) now checked p := by
  obtain ⟨u, hu, hle⟩ := h.quiet
  exact ⟨h.complete, ⟨u, hu.seenChange fun hq => absurd hq hp, hle⟩,
    awaits_seenChange.mpr h.awaits⟩

theorem Ready.dispatched {checked : Status} {command : String} (h : Ready log now checked p)
    (hp : path ≠ p) : Ready (.dispatched command path t :: log) now checked p := by
  obtain ⟨u, hu, hle⟩ := h.quiet
  exact ⟨h.complete, ⟨u, hu.dispatched, hle⟩, hp, h.awaits⟩

end

structure Invariant (s : State) : Prop where
  past : ∀ path, QuietSince s.log path s.now
  tracked : ∀ path e, s.entries path = some e → Tracked s.log s.now path e
  ready : ∀ item ∈ s.ready, Ready s.log s.now (s.checked item.2) item.2
  gone : ∀ item ∈ s.ready, s.entries item.2 = none
  nodup : (s.ready.map Prod.snd).Nodup
  waiting : s.phase = .idle → s.ready = []
  active : s.active = true → .stopped ∉ s.log
  inactive : s.active = false → (∀ path, s.entries path = none) ∧ s.ready = []

theorem initial_invariant (files : Files) : Invariant (initial files) := by
  constructor
  · rintro path t (h | h) <;> cases h
  · intro path e h
    cases h
  · intro item h
    cases h
  · intro item h
    cases h
  · exact List.nodup_nil
  · intro _
    rfl
  · intro _ h
    cases h
  · intro h
    cases h

section

variable {s : State} {path : Path} {command : String}

theorem push_invariant (h : Invariant s) (hi : s.phase = .idle) :
    Invariant (push s command path) := by
  have hr := h.waiting hi
  have hpushed : ∀ p, QuietSince (.pushed path s.now :: s.log) p s.now := fun p =>
    (h.past p).pushed fun _ => Nat.le_refl _
  have hother : ∀ p e, path ≠ p → s.entries p = some e →
      Tracked (.pushed path s.now :: s.log) s.now p e := by
    intro p e hp he
    have ht := h.tracked p e he
    exact ⟨ht.quiet.pushed fun hq => absurd hq hp, .inr ht.awaits, ht.past⟩
  rw [push]
  by_cases ha : s.active = true
  · rw [if_pos ha]
    have hentry : Tracked (.pushed path s.now :: s.log) s.now path (pushedEntry s command path) :=
      ⟨hpushed path, .inl rfl, Nat.le_refl _⟩
    constructor
    · intro p
      exact (hpushed p).seenChange fun _ => Nat.le_refl _
    · intro p e he
      by_cases hp : path = p
      · subst hp
        simp only [Function.update_self] at he
        cases he
        have hu := hentry.updateStatus s.files
        exact ⟨hu.quiet, hu.awaits, hu.past⟩
      · simp only [Function.update_of_ne (Ne.symm hp)] at he
        exact (hother p e hp he).seenChange hp
    · intro item hm
      rw [hr] at hm
      cases hm
    · intro item hm
      rw [hr] at hm
      cases hm
    · exact h.nodup
    · exact h.waiting
    · intro _ hs
      rcases List.mem_cons.mp (stopped_seenChange.mp hs) with hs | hs
      · cases hs
      · exact h.active ha hs
    · intro hf
      simp only [ha] at hf
      cases hf
  · rw [if_neg ha]
    constructor
    · exact hpushed
    · intro p e he
      have hn := (h.inactive (Bool.eq_false_iff.mpr ha)).1 p
      simp only at he
      rw [hn] at he
      cases he
    · intro item hm
      rw [hr] at hm
      cases hm
    · exact h.gone
    · exact h.nodup
    · exact h.waiting
    · intro hf
      exact absurd hf ha
    · exact h.inactive

theorem Invariant.ne_of_mem_ready {old : Entry} (h : Invariant s)
    (ho : s.entries path = some old) : ∀ item ∈ s.ready, path ≠ item.2 := by
  intro item hm hp
  have hg := h.gone item hm
  rw [← hp, ho] at hg
  cases hg

theorem Invariant.active_of_entry {old : Entry} (h : Invariant s)
    (ho : s.entries path = some old) : s.active = true := by
  by_contra hf
  rw [(h.inactive (Bool.eq_false_iff.mpr hf)).1 path] at ho
  cases ho

theorem Invariant.replace {old : Entry} (h : Invariant s) (ho : s.entries path = some old)
    (new : Option Entry) (queue : List Path) (status : Status)
    (hnew : ∀ e, new = some e →
      Tracked (seenChange s.files s.now path old ++ s.log) s.now path e) :
    Invariant { s with
      entries := Function.update s.entries path new
      queue := queue
      checked := Function.update s.checked path status
      log := seenChange s.files s.now path old ++ s.log } := by
  have hactive := h.active_of_entry ho
  refine ⟨?_, ?_, ?_, ?_, h.nodup, h.waiting, ?_, ?_⟩
  · exact fun p => (h.past p).seenChange fun _ => Nat.le_refl _
  · intro p e he
    by_cases hp : path = p
    · subst hp
      simp only [Function.update_self] at he
      exact hnew e he
    · simp only [Function.update_of_ne (Ne.symm hp)] at he
      exact (h.tracked p e he).seenChange hp
  · intro item hm
    have hne := h.ne_of_mem_ready ho item hm
    simp only [Function.update_of_ne (Ne.symm hne)]
    exact (h.ready item hm).seenChange hne
  · intro item hm
    simp only [Function.update_of_ne (Ne.symm (h.ne_of_mem_ready ho item hm))]
    exact h.gone item hm
  · intro _ hs
    exact h.active hactive (stopped_seenChange.mp hs)
  · intro hf
    simp only [hactive] at hf
    cases hf

theorem Invariant.append (h : Invariant s) (hc : s.phase = .checking) (ha : s.active = true)
    (hr : Ready s.log s.now (s.checked path) path) (hg : s.entries path = none)
    (hne : ∀ item ∈ s.ready, path ≠ item.2) :
    Invariant { s with ready := s.ready ++ [(command, path)] } := by
  refine ⟨h.past, h.tracked, ?_, ?_, ?_, ?_, h.active, ?_⟩
  · intro item hm
    rcases List.mem_append.mp hm with hm | hm
    · exact h.ready item hm
    · cases List.mem_singleton.mp hm
      exact hr
  · intro item hm
    rcases List.mem_append.mp hm with hm | hm
    · exact h.gone item hm
    · cases List.mem_singleton.mp hm
      exact hg
  · rw [List.map_append, List.nodup_append]
    refine ⟨h.nodup, by simp, ?_⟩
    intro p hp q hq
    cases List.mem_singleton.mp hq
    obtain ⟨item, hm, rfl⟩ := List.mem_map.mp hp
    exact Ne.symm (hne item hm)
  · intro hi
    simp only [hc] at hi
    cases hi
  · intro hf
    simp only [ha] at hf
    cases hf

theorem pop_invariant (h : Invariant s) (hc : s.phase = .checking) : Invariant (pop s path) := by
  rw [pop]
  cases ho : s.entries path with
  | none =>
    exact ⟨h.past, h.tracked, h.ready, h.gone, h.nodup, h.waiting, h.active, h.inactive⟩
  | some old =>
    have hu := (h.tracked path old ho).updateStatus s.files
    dsimp only
    split
    · rename_i hcomplete
      have ht := h.replace ho none (s.queue.erase path)
        (updateStatus s.files s.now path old).status (fun _ he => by cases he)
      apply ht.append hc (h.active_of_entry ho) _ (Function.update_self ..)
      · exact h.ne_of_mem_ready ho
      · refine ⟨?_, ⟨_, hu.quiet, ?_⟩, hu.awaits⟩
        · simp only [Function.update_self]
          exact hcomplete.1
        · have hle := hcomplete.2
          have hp := hu.past
          simp only [quietTime] at hle ⊢
          omega
    · split
      · exact h.replace ho none _ _ (fun _ he => by cases he)
      · apply h.replace ho (some _)
        intro e he
        cases he
        exact ⟨hu.quiet, hu.awaits, hu.past⟩

theorem shutdown_invariant (h : Invariant s) (hi : s.phase = .idle) : Invariant (shutdown s) := by
  have hr := h.waiting hi
  constructor
  · intro p
    apply (h.past p).cons
    rintro u (hu | hu) <;> cases hu
  · intro p e he
    cases he
  · intro item hm
    rw [shutdown, hr] at hm
    cases hm
  · intro item _
    rfl
  · exact h.nodup
  · exact h.waiting
  · intro hf
    cases hf
  · intro _
    exact ⟨fun _ => rfl, hr⟩

theorem dispatch_invariant (h : Invariant s) (hp : s.phase = .dispatching)
    (hd : s.ready.head? = some (command, path)) : Invariant (next s (.dispatch command path)) := by
  obtain ⟨rest, hr⟩ : ∃ rest, s.ready = (command, path) :: rest := by
    cases hl : s.ready with
    | nil =>
      rw [hl] at hd
      cases hd
    | cons item rest =>
      rw [hl] at hd
      cases hd
      exact ⟨rest, rfl⟩
  have hn := h.nodup
  rw [hr, List.map_cons, List.nodup_cons] at hn
  have hmem : (command, path) ∈ s.ready := by
    rw [hr]
    exact List.mem_cons_self
  have htail : (next s (.dispatch command path)).ready = rest := by
    simp only [next, hr, List.tail_cons]
  have hsub : ∀ item ∈ rest, item ∈ s.ready ∧ path ≠ item.2 := by
    intro item hm
    refine ⟨by rw [hr]; exact List.mem_cons_of_mem _ hm, ?_⟩
    rintro hq
    exact hn.1 (List.mem_map.mpr ⟨item, hm, hq.symm⟩)
  constructor
  · exact fun p => (h.past p).dispatched
  · intro p e he
    have ht := h.tracked p e he
    have hne : path ≠ p := by
      rintro rfl
      have hg := h.gone _ hmem
      rw [show s.entries path = some e from he] at hg
      cases hg
    exact ⟨ht.quiet.dispatched, ⟨hne, ht.awaits⟩, ht.past⟩
  · intro item hm
    rw [htail] at hm
    obtain ⟨hm, hne⟩ := hsub item hm
    exact (h.ready item hm).dispatched hne
  · intro item hm
    rw [htail] at hm
    exact h.gone item (hsub item hm).1
  · rw [htail]
    exact hn.2
  · intro hi
    rw [show s.phase = .idle from hi] at hp
    cases hp
  · intro ha hs
    rcases List.mem_cons.mp hs with hs | hs
    · cases hs
    · exact h.active ha hs
  · intro hf
    have hi := h.inactive hf
    rw [hr] at hi
    cases hi.2

theorem step_preserves_invariant {e : Event} (h : Invariant s) (he : Enabled s e) :
    Invariant (next s e) := by
  cases e with
  | push command path => exact push_invariant h he
  | change files =>
    exact ⟨h.past, h.tracked, h.ready, h.gone, h.nodup, h.waiting, h.active, h.inactive⟩
  | advance time =>
    have hr := h.waiting he
    refine ⟨?_, ?_, ?_, h.gone, h.nodup, h.waiting, h.active, h.inactive⟩
    · exact fun p => (h.past p).mono (Nat.le_add_right _ _)
    · intro p e he
      have ht := h.tracked p e he
      exact ⟨ht.quiet, ht.awaits, Nat.le_trans ht.past (Nat.le_add_right _ _)⟩
    · intro item hm
      rw [show (next s (.advance time)).ready = [] from hr] at hm
      cases hm
  | process =>
    refine ⟨h.past, h.tracked, h.ready, h.gone, h.nodup, ?_, h.active, h.inactive⟩
    intro hi
    cases hi
  | pop path => exact pop_invariant h he.1
  | endLoop =>
    refine ⟨h.past, h.tracked, h.ready, h.gone, h.nodup, ?_, h.active, h.inactive⟩
    intro hi
    cases hi
  | dispatch command path => exact dispatch_invariant h he.1 he.2
  | endProcess =>
    exact ⟨h.past, h.tracked, h.ready, h.gone, h.nodup, fun _ => he.2, h.active, h.inactive⟩
  | shutdown => exact shutdown_invariant h he

theorem reachable_invariant {files : Files} (h : Reachable machine.system (initial files) s) :
    Invariant s := by
  apply h.invariant (initial_invariant files)
  rintro a e _ ha ⟨he, rfl⟩
  exact step_preserves_invariant ha he

end

/-- When a command is called, its file was regular and not empty when this run of `process` looked
at it. For `quietTime` the path was not pushed and its file not seen to change, there was a push
after the last call for it, and the queue was not shut down. -/
theorem dispatched_ready {files : Files} {s : State} {command : String} {path : Path}
    (h : Reachable machine.system (initial files) s)
    (hd : machine.Enabled s (.dispatch command path)) :
    NonemptyRegular (s.checked path) ∧
      (currentStatus s.files path = s.checked path →
        NonemptyRegular (currentStatus s.files path)) ∧
      (∀ t, .pushed path t ∈ s.log ∨ .seen path t ∈ s.log → t + quietTime ≤ s.now) ∧
      Awaits path s.log ∧ .stopped ∉ s.log := by
  have hi := reachable_invariant h
  have hmem : (command, path) ∈ s.ready := List.mem_of_mem_head? hd.2
  have hr := hi.ready _ hmem
  refine ⟨hr.complete, ?_, ?_, hr.awaits, ?_⟩
  · intro he
    rw [he]
    exact hr.complete
  · intro t ht
    obtain ⟨u, hu, hle⟩ := hr.quiet
    have htu := hu t ht
    omega
  · by_cases ha : s.active = true
    · exact hi.active ha
    · rw [(hi.inactive (Bool.eq_false_iff.mpr ha)).2] at hmem
      cases hmem

def twoFiles : Files := fun path => if path = "a" ∨ path = "b" then some ⟨true, 1, 1⟩ else none

def readyRun : List Event :=
  [.push "load" "a", .push "load" "b", .advance 500000, .process, .pop "a", .pop "b", .endLoop,
    .dispatch "load" "a"]

theorem readyRun_accepted :
    machine.Accepts (initial twoFiles) readyRun ∧
      machine.Enabled (machine.replay (initial twoFiles) readyRun) (.dispatch "load" "b") := by
  decide +kernel

theorem readyRun_dispatched :
    NonemptyRegular ((machine.replay (initial twoFiles) readyRun).checked "b") :=
  (dispatched_ready ⟨_, readyRun_accepted.1.execution⟩ readyRun_accepted.2).1

/-- The first command removes both files, and the second one is called all the same. -/
theorem removed_file_dispatched :
    machine.Accepts (initial twoFiles) (readyRun ++ [.change fun _ => none]) ∧
      machine.Enabled (machine.replay (initial twoFiles) (readyRun ++ [.change fun _ => none]))
        (.dispatch "load" "b") ∧
      (machine.replay (initial twoFiles) (readyRun ++ [.change fun _ => none])).files "b" =
        none := by
  decide +kernel

end WatchReadyQueue
