import Rtorrent.ObjectPrinting
import Rtorrent.VectorHeaps
import Rtorrent.WatchReadyQueue

/-! # The heap of watched files

The queue is a vector of pointers to the entries, kept as a heap by the time at which an
entry is looked at next. A `std::map` does not move its entries, so a pointer is written as
the path. A push may throw when the path is expanded, with the entry already in the map. -/
namespace WatchHeap

open VectorHeaps
open ObjectPrinting (expandPath)
open RpcTextParser (Failure Text)
open WatchReadyQueue (Path Status Entry missing NonemptyRegular updateNextTime quietTime retryTime
  staleTime)

/-- The functions of the library that keep heaps, and the environment variable `HOME`. -/
structure World where
  heap : HeapFunctions Path ℕ
  home : Option Text

/-- `wakeup` is the time for which `process` is scheduled. -/
structure State where
  active : Bool
  entries : Path → Option Entry
  queue : List Path
  wakeup : Option ℕ

/-- What `FileStat` says of each file. -/
abbrev Stat := Text → Option Status

def nextTime (entries : Path → Option Entry) (path : Path) : ℕ :=
  ((entries path).map Entry.nextTime).getD 0

def storeEntry (path : Path) (e : Entry) (s : State) : State :=
  { s with entries := Function.update s.entries path (some e) }

def eraseEntry (path : Path) (s : State) : State :=
  { s with entries := Function.update s.entries path none }

section

variable (w : World)

def updateStatus (stat : Stat) (now : ℕ) (path : Path) (e : Entry) : Except Failure Entry := do
  let file ← expandPath w.home path.toList
  .ok (WatchReadyQueue.updateStatus (fun _ => stat file) now path e)

def pushEntry (path : Path) (s : State) : State :=
  { s with queue := w.heap.push (nextTime s.entries) (s.queue ++ [path]) }

/-- `update_entry` for an entry whose new time has been stored. -/
def updateEntry (s : State) : State :=
  { s with queue := w.heap.make (nextTime s.entries) s.queue }

def schedule (s : State) : State :=
  { s with wakeup := s.queue.head?.map (nextTime s.entries) }

def pushed (now : ℕ) (command : String) (path : Path) (s : State) : Entry :=
  { (s.entries path).getD ⟨"", missing, now, 0, 0⟩ with command := command, lastChanged := now }

def push (stat : Stat) (now : ℕ) (command : String) (path : Path) (s : State) :
    State × Option Failure :=
  if s.active then
    match updateStatus w stat now path (pushed now command path s) with
    | .error failure => (storeEntry path (pushed now command path s) s, some failure)
    | .ok e =>
      let stored := storeEntry path (updateNextTime now e) s
      if (s.entries path).isNone then (schedule (pushEntry w path stored), none)
      else (schedule (updateEntry w stored), none)
  else (s, none)

def shutdown (_ : State) : State := ⟨false, fun _ => none, [], none⟩

/-- `pop_heap` and `pop_back`. There is no result when the pointer is to no entry. -/
def popEntry (s : State) : Option (Path × Entry × State) := do
  let popped := w.heap.pop (nextTime s.entries) s.queue
  let path ← popped.getLast?
  let e ← s.entries path
  some (path, e, { s with queue := popped.dropLast })

/-- What `process` does with an entry after it has looked at its file. -/
def settle (now : ℕ) (path : Path) (e : Entry) (s : State) : State × List (String × Path) :=
  if NonemptyRegular e.status ∧ quietTime ≤ now - e.lastChanged then
    (eraseEntry path s, [(e.command, path)])
  else if ¬NonemptyRegular e.status ∧ staleTime ≤ now - e.firstSeen then (eraseEntry path s, [])
  else (pushEntry w path (storeEntry path (updateNextTime now e) s), [])

/-- The entries that `process` has looked at, the commands it is going to call, and the exception
it leaves by. -/
structure Outcome where
  state : State
  examined : List Path
  ready : List (String × Path)
  thrown : Option Failure

/-- The loop of `process` with a number of turns, `stat n` being what is said of the files when
`n` of them are left. -/
def processLoop (now : ℕ) (stat : ℕ → Stat) : ℕ → State → Option Outcome
  | 0, _ => none
  | turns + 1, s =>
    match s.queue with
    | [] => some ⟨schedule s, [], [], none⟩
    | front :: _ =>
      if nextTime s.entries front ≤ now then do
        let (path, e, s) ← popEntry w s
        match updateStatus w (stat turns) now path e with
        | .error failure => some ⟨s, [path], [], some failure⟩
        | .ok e =>
          let (s, ready) := settle w now path e s
          let o ← processLoop now stat turns s
          some { o with examined := path :: o.examined, ready := ready ++ o.ready }
      else some ⟨schedule s, [], [], none⟩

def process (stat : ℕ → Stat) (now : ℕ) (s : State) : Option Outcome :=
  processLoop w now stat (s.queue.length + 1) s

/-- The queue at a cached time, and the time of the last run of `process`. -/
structure Moment where
  state : State
  now : ℕ
  lastRun : Option ℕ
  past : ∀ t ∈ lastRun, t ≤ now

inductive Action where
  | push (command : String) (path : Path)
  | shutdown
  | process

/-- A call some time after the one before, and what is said of the files during it. -/
structure Call where
  elapsed : ℕ
  stat : ℕ → Stat
  action : Action

def initial (now : ℕ) : Moment :=
  ⟨⟨true, fun _ => none, [], none⟩, now, none, fun _ ht => by cases ht⟩

def Moment.advance (m : Moment) (elapsed : ℕ) : Moment :=
  ⟨m.state, m.now + elapsed, m.lastRun, fun t ht => (m.past t ht).trans (Nat.le_add_right _ _)⟩

def Moment.ran (m : Moment) (s : State) : Moment :=
  ⟨s, m.now, some m.now, fun _ ht => (Option.some.inj ht).ge⟩

/-- The moment after an action, with the entries that a run of `process` looked at. -/
def act (stat : ℕ → Stat) (m : Moment) : Action → Option (Moment × List Path)
  | .push command path =>
    some ({ m with state := (push w (stat 0) m.now command path m.state).1 }, [])
  | .shutdown => some ({ m with state := shutdown m.state }, [])
  | .process => (process w stat m.now m.state).map fun o => (m.ran o.state, o.examined)

def call (m : Moment) (c : Call) : Option (Moment × List Path) :=
  act w c.stat (m.advance c.elapsed) c.action

end

/-- The queue is a heap with exactly one pointer for each entry. -/
structure Sound (s : State) : Prop where
  heap : IsHeap (nextTime s.entries) s.queue
  nodup : s.queue.Nodup
  pointed : ∀ path, path ∈ s.queue ↔ (s.entries path).isSome = true

structure Proper (m : Moment) : Prop where
  sound : Sound m.state
  later : ∀ t ∈ m.lastRun, ∀ path e, m.state.entries path = some e → t < e.nextTime

/-- Each call ends, leaves a proper queue, and looks at no entry twice. -/
def AllProper (w : World) : Moment → List Call → Prop
  | _, [] => True
  | m, c :: calls => ∃ m' examined, call w m c = some (m', examined) ∧ Proper m' ∧
      examined.Nodup ∧ AllProper w m' calls

def Expands (w : World) (path : Path) : Prop := ∃ file, expandPath w.home path.toList = .ok file

/-- A new path can be expanded; and the path of an entry is not pushed with a file that is not
complete when the entry was stale by the last run of `process`. -/
structure FitsPush (w : World) (stat : Stat) (m : Moment) (path : Path) : Prop where
  expands : m.state.entries path = none → Expands w path
  fresh : ∀ e file, m.state.entries path = some e → expandPath w.home path.toList = .ok file →
    ¬NonemptyRegular ((stat file).getD missing) → ∀ t ∈ m.lastRun, t < e.firstSeen + staleTime

def Fits (w : World) (m : Moment) (c : Call) : Prop :=
  ∀ command path, c.action = .push command path → m.state.active = true →
    FitsPush w (c.stat 0) m path

def AllFit (w : World) : Moment → List Call → Prop
  | _, [] => True
  | m, c :: calls => Fits w m c ∧
      ∀ m' examined, call w m c = some (m', examined) → AllFit w m' calls

section

variable {w : World} {s : State} {path : Path} {e : Entry} {now : ℕ} {stat : Stat}

theorem nextTime_of_some {entries : Path → Option Entry} (h : entries path = some e) :
    nextTime entries path = e.nextTime := by
  simp [nextTime, h]

theorem nextTime_update {entries : Path → Option Entry} {new : Option Entry} {p : Path}
    (h : p ≠ path) : nextTime (Function.update entries path new) p = nextTime entries p := by
  simp [nextTime, Function.update_of_ne h]

theorem updateStatus_of_expands {file : Text} (h : expandPath w.home path.toList = .ok file) :
    updateStatus w stat now path e =
      .ok (WatchReadyQueue.updateStatus (fun _ => stat file) now path e) := by
  rw [updateStatus, h]
  rfl

theorem updateStatus_error {failure : Failure}
    (h : expandPath w.home path.toList = .error failure) :
    updateStatus w stat now path e = .error failure := by
  rw [updateStatus, h]
  rfl

/-- Everything is in order but for this path, to which there is no pointer. -/
structure Apart (path : Path) (s : State) : Prop where
  heap : IsHeap (nextTime s.entries) s.queue
  nodup : s.queue.Nodup
  not_mem : path ∉ s.queue
  pointed : ∀ p, p ≠ path → (p ∈ s.queue ↔ (s.entries p).isSome = true)

theorem Sound.apart (h : Sound s) (hnew : s.entries path = none) : Apart path s := by
  refine ⟨h.heap, h.nodup, fun hmem => ?_, fun p _ => h.pointed p⟩
  simpa [hnew] using (h.pointed path).mp hmem

theorem Apart.heap_update (h : Apart path s) (new : Option Entry) :
    IsHeap (nextTime (Function.update s.entries path new)) s.queue := by
  apply h.heap.congr
  rintro p hp
  exact nextTime_update fun heq => h.not_mem (heq ▸ hp)

theorem Apart.eraseEntry (h : Apart path s) : Sound (eraseEntry path s) := by
  refine ⟨h.heap_update none, h.nodup, fun p => ?_⟩
  by_cases hp : p = path
  · subst hp
    simpa [WatchHeap.eraseEntry] using h.not_mem
  · simpa [WatchHeap.eraseEntry, hp] using h.pointed p hp

theorem Apart.pushEntry (h : Apart path s) (w : World) (e : Entry) :
    Sound (pushEntry w path (storeEntry path e s)) := by
  obtain ⟨hperm, hheap⟩ := w.heap.push_spec _ _ path (h.heap_update (some e))
  have hcons := hperm.trans (List.perm_append_singleton path s.queue)
  refine ⟨hheap, hcons.nodup_iff.mpr (List.nodup_cons.mpr ⟨h.not_mem, h.nodup⟩), fun p => ?_⟩
  apply hcons.mem_iff.trans
  by_cases hp : p = path
  · simp [WatchHeap.pushEntry, storeEntry, hp]
  · simpa [WatchHeap.pushEntry, storeEntry, hp] using h.pointed p hp

theorem Sound.updateEntry {old : Entry} (h : Sound s) (hold : s.entries path = some old) (w : World)
    (e : Entry) : Sound (updateEntry w (storeEntry path e s)) := by
  obtain ⟨hperm, hheap⟩ := w.heap.make_spec (nextTime (storeEntry path e s).entries) s.queue
  refine ⟨hheap, hperm.nodup_iff.mpr h.nodup, fun p => hperm.mem_iff.trans ?_⟩
  by_cases hp : p = path
  · subst hp
    simp [WatchHeap.updateEntry, storeEntry, h.pointed p, hold]
  · simpa [WatchHeap.updateEntry, storeEntry, hp] using h.pointed p

theorem popEntry_spec {front : Path} {rest : List Path} (h : Sound s)
    (hqueue : s.queue = front :: rest) :
    ∃ e left, popEntry w s = some (front, e, { s with queue := left }) ∧
      s.entries front = some e ∧ Apart front { s with queue := left } := by
  have hheap := h.heap
  have hnodup := h.nodup
  rw [hqueue] at hheap hnodup
  obtain ⟨left, hpop, hperm, hleft⟩ := w.heap.pop_spec _ _ _ hheap
  obtain ⟨e, he⟩ := Option.isSome_iff_exists.mp ((h.pointed front).mp (by simp [hqueue]))
  obtain ⟨hfront, hrest⟩ := List.nodup_cons.mp hnodup
  refine ⟨e, left, ?_, he, hleft, hperm.nodup_iff.mpr hrest, fun hmem => ?_, fun p hp => ?_⟩
  · simp [popEntry, hqueue, hpop, he]
  · exact hfront (hperm.mem_iff.mp hmem)
  · rw [← h.pointed p, hqueue]
    simp [hperm.mem_iff, hp]

end

section

variable {w : World} {s t : State} {path : Path} {e : Entry} {now : ℕ} {new : Option Entry}

def Known (w : World) (s : State) : Prop := ∀ path, (s.entries path).isSome = true → Expands w path

def due (now : ℕ) (s : State) : List Path :=
  s.queue.filter fun path => decide (nextTime s.entries path ≤ now)

theorem mem_due : path ∈ due now s ↔ path ∈ s.queue ∧ nextTime s.entries path ≤ now := by
  simp [due]

theorem lt_updateNextTime (hready : ¬(NonemptyRegular e.status ∧ quietTime ≤ now - e.lastChanged))
    (hstale : ¬(¬NonemptyRegular e.status ∧ staleTime ≤ now - e.firstSeen)) :
    now < (updateNextTime now e).nextTime := by
  simp only [updateNextTime, quietTime, staleTime, retryTime] at hready hstale ⊢
  split
  · have hrecent : ¬500000 ≤ now - e.lastChanged := fun hquiet => hready ⟨‹_›, hquiet⟩
    omega
  · have hfresh : ¬10000000 ≤ now - e.firstSeen := fun hold => hstale ⟨‹_›, hold⟩
    omega

theorem settle_spec (h : Apart path s) (w : World) (now : ℕ) (e : Entry) :
    Sound (settle w now path e s).1 ∧ ∃ new, (∀ f ∈ new, now < f.nextTime) ∧
      (settle w now path e s).1.entries = Function.update s.entries path new := by
  have hgone : ∀ f ∈ (none : Option Entry), now < f.nextTime := by
    intro f hf
    cases hf
  rw [settle]
  split
  · exact ⟨h.eraseEntry, none, hgone, rfl⟩
  · split
    · exact ⟨h.eraseEntry, none, hgone, rfl⟩
    · refine ⟨h.pushEntry w _, some (updateNextTime now e), fun f hf => ?_, rfl⟩
      cases hf
      exact lt_updateNextTime ‹_› ‹_›

theorem due_settled (hs : Sound s) (ht : Sound t) (hnew : ∀ f ∈ new, now < f.nextTime)
    (hentries : t.entries = Function.update s.entries path new) {p : Path} (hp : p ∈ due now t) :
    p ≠ path ∧ p ∈ due now s := by
  obtain ⟨hmem, hle⟩ := mem_due.mp hp
  obtain ⟨f, hf⟩ := Option.isSome_iff_exists.mp ((ht.pointed p).mp hmem)
  have hne : p ≠ path := by
    rintro rfl
    rw [nextTime_of_some hf] at hle
    rw [hentries, Function.update_self] at hf
    exact absurd (hnew f hf) (Nat.not_lt.mpr hle)
  rw [hentries, Function.update_of_ne hne] at hf
  rw [hentries, nextTime_update hne] at hle
  exact ⟨hne, mem_due.mpr ⟨(hs.pointed p).mpr (by simp [hf]), hle⟩⟩

theorem length_due_lt (hs : Sound s) (ht : Sound t) (hnew : ∀ f ∈ new, now < f.nextTime)
    (hentries : t.entries = Function.update s.entries path new) (hdue : path ∈ due now s) :
    (due now t).length < (due now s).length := by
  have hsettled := fun p (hp : p ∈ due now t) => due_settled hs ht hnew hentries hp
  have hnodup : (path :: due now t).Nodup :=
    List.nodup_cons.mpr ⟨fun hmem => (hsettled path hmem).1 rfl, ht.nodup.filter _⟩
  have hsubset : path :: due now t ⊆ due now s :=
    List.cons_subset.mpr ⟨hdue, fun p hp => (hsettled p hp).2⟩
  exact (List.subperm_of_subset hnodup hsubset).length_le

/-- What holds when a run has come to its end. -/
structure Ended (w : World) (now : ℕ) (s : State) (o : Outcome) : Prop where
  sound : Sound o.state
  later : ∀ path e, o.state.entries path = some e → now < e.nextTime
  once : o.examined.Nodup
  examined : ∀ path ∈ o.examined, path ∈ due now s
  known : Known w o.state

theorem ended_of_not_due (hs : Sound s) (hk : Known w s) (h : ∀ path, path ∉ due now s) :
    Ended w now s ⟨schedule s, [], [], none⟩ := by
  refine ⟨⟨hs.heap, hs.nodup, hs.pointed⟩, fun path e he => ?_, List.nodup_nil, by simp, hk⟩
  have he : s.entries path = some e := he
  have hle := fun hle => h path (mem_due.mpr ⟨(hs.pointed path).mpr (by simp [he]), hle⟩)
  rw [nextTime_of_some he] at hle
  exact Nat.lt_of_not_le hle

theorem Ended.cons {o : Outcome} (h : Ended w now t o) (hdue : path ∈ due now s)
    (hsettled : ∀ p ∈ due now t, p ≠ path ∧ p ∈ due now s) (ready : List (String × Path)) :
    Ended w now s { o with examined := path :: o.examined, ready := ready } := by
  refine ⟨h.sound, h.later, ?_, ?_, h.known⟩
  · exact List.nodup_cons.mpr ⟨fun hmem => (hsettled path (h.examined path hmem)).1 rfl, h.once⟩
  · exact List.forall_mem_cons.mpr ⟨hdue, fun p hp => (hsettled p (h.examined p hp)).2⟩

theorem not_due_of_front {front : Path} {rest : List Path} (hs : Sound s)
    (hqueue : s.queue = front :: rest) (h : ¬nextTime s.entries front ≤ now) :
    ∀ path, path ∉ due now s := by
  intro path hpath
  obtain ⟨hmem, hle⟩ := mem_due.mp hpath
  have hheap := hs.heap
  rw [hqueue] at hheap hmem
  exact h ((hheap.front_le path hmem).trans hle)

theorem Known.update (h : Known w s) (hpath : Expands w path)
    (hentries : t.entries = Function.update s.entries path new) : Known w t := by
  intro p hp
  by_cases heq : p = path
  · exact heq ▸ hpath
  · rw [hentries, Function.update_of_ne heq] at hp
    exact h p hp

/-- Each turn leaves fewer entries whose time has come, so one turn more than there are such
entries suffices. -/
theorem processLoop_ends (stat : ℕ → Stat) {turns : ℕ} (hs : Sound s) (hk : Known w s)
    (hturns : (due now s).length < turns) :
    ∃ o, processLoop w now stat turns s = some o ∧ Ended w now s o := by
  induction turns generalizing s with
  | zero => omega
  | succ turns ih =>
    rw [processLoop]
    cases hqueue : s.queue with
    | nil => exact ⟨_, rfl, ended_of_not_due hs hk fun path => by simp [due, hqueue]⟩
    | cons front rest =>
      dsimp only
      split
      · next hfront =>
        obtain ⟨e, left, hpop, he, hapart⟩ := popEntry_spec (w := w) hs hqueue
        obtain ⟨file, hfile⟩ := hk front (by simp [he])
        have hdue : front ∈ due now s := mem_due.mpr ⟨by simp [hqueue], hfront⟩
        simp only [hpop, updateStatus_of_expands hfile, Option.bind_eq_bind, Option.bind_some]
        obtain ⟨ht, new, hnew, hentries⟩ := settle_spec hapart w now
          (WatchReadyQueue.updateStatus (fun _ => stat turns file) now front e)
        have hlt := length_due_lt hs ht hnew hentries hdue
        obtain ⟨o, ho, hended⟩ := ih ht (hk.update ⟨file, hfile⟩ hentries) (by omega)
        rw [ho]
        exact ⟨_, rfl, hended.cons hdue (fun p => due_settled hs ht hnew hentries) _⟩
      · next hfront =>
        exact ⟨_, rfl, ended_of_not_due hs hk (not_due_of_front hs hqueue hfront)⟩

theorem process_ends (stat : ℕ → Stat) (now : ℕ) (hs : Sound s) (hk : Known w s) :
    ∃ o, process w stat now s = some o ∧ Ended w now s o :=
  processLoop_ends stat hs hk (Nat.lt_succ_of_le (List.length_filter_le _ _))

end

section

variable {w : World} {s : State} {path : Path} {e : Entry} {now t : ℕ} {stat : Stat}
  {command : String} {file : Text} {m : Moment}

def refreshed (stat : Stat) (file : Text) (now : ℕ) (command : String) (path : Path) (s : State) :
    Entry :=
  updateNextTime now
    (WatchReadyQueue.updateStatus (fun _ => stat file) now path (pushed now command path s))

theorem refreshed_later (ht : t ≤ now) :
    t < (refreshed stat file now command path s).nextTime ↔
      (¬NonemptyRegular ((stat file).getD missing) →
        t < (pushed now command path s).firstSeen + staleTime) := by
  have hstatus : (WatchReadyQueue.updateStatus (fun _ => stat file) now path
      (pushed now command path s)).status = (stat file).getD missing :=
    WatchReadyQueue.updateStatus_status
  have htimes : (WatchReadyQueue.updateStatus (fun _ => stat file) now path
      (pushed now command path s)).lastChanged = now ∧
      (WatchReadyQueue.updateStatus (fun _ => stat file) now path
        (pushed now command path s)).firstSeen = (pushed now command path s).firstSeen := by
    rw [WatchReadyQueue.updateStatus]
    split
    · exact ⟨rfl, rfl⟩
    · exact ⟨rfl, rfl⟩
  simp only [refreshed, updateNextTime, hstatus, htimes, quietTime, retryTime, staleTime]
  split
  · next hcomplete =>
    simp only [hcomplete, not_true, false_implies, iff_true]
    omega
  · next hnot =>
    simp only [hnot, not_false_iff, forall_const]
    omega

theorem later_store {entries : Path → Option Entry}
    (h : ∀ p f, entries p = some f → t < f.nextTime) :
    (∀ p f, Function.update entries path (some e) p = some f → t < f.nextTime) ↔
      t < e.nextTime := by
  constructor
  · exact fun hall => hall path e (Function.update_self ..)
  · intro hlt p f hf
    by_cases hp : p = path
    · rw [hp, Function.update_self] at hf
      cases hf
      exact hlt
    · rw [Function.update_of_ne hp] at hf
      exact h p f hf

theorem push_error {failure : Failure} (hactive : s.active = true)
    (h : expandPath w.home path.toList = .error failure) :
    (push w stat now command path s).1 = storeEntry path (pushed now command path s) s := by
  rw [push, if_pos hactive, updateStatus_error h]

theorem push_new (hactive : s.active = true) (h : expandPath w.home path.toList = .ok file)
    (hnew : s.entries path = none) :
    (push w stat now command path s).1 =
      schedule (pushEntry w path (storeEntry path (refreshed stat file now command path s) s)) := by
  simp [push, hactive, updateStatus_of_expands h, hnew, refreshed]

theorem push_existing (hactive : s.active = true) (h : expandPath w.home path.toList = .ok file)
    (hentry : s.entries path = some e) :
    (push w stat now command path s).1 =
      schedule (updateEntry w (storeEntry path (refreshed stat file now command path s) s)) := by
  simp [push, hactive, updateStatus_of_expands h, hentry, refreshed]

theorem push_inactive (h : m.state.active ≠ true) :
    ({ m with state := (push w stat m.now command path m.state).1 } : Moment) = m := by
  simp only [push, if_neg h]

theorem Proper.schedule (h : Sound s) (hlater : ∀ t ∈ m.lastRun, ∀ path e, s.entries path = some e →
    t < e.nextTime) : Proper { m with state := WatchHeap.schedule s } :=
  ⟨⟨h.heap, h.nodup, h.pointed⟩, hlater⟩

theorem push_new_proper_iff (hm : Proper m) (hactive : m.state.active = true)
    (hnew : m.state.entries path = none) :
    Proper { m with state := (push w stat m.now command path m.state).1 } ↔
      FitsPush w stat m path := by
  have hapart := hm.sound.apart hnew
  cases hfile : expandPath w.home path.toList with
  | error failure =>
    -- the entry stays in the map without a pointer
    rw [push_error hactive hfile]
    refine iff_of_false (fun h => hapart.not_mem ?_) (fun h => ?_)
    · exact (h.sound.pointed path).mpr (by simp [storeEntry])
    · obtain ⟨file, hok⟩ := h.expands hnew
      cases hfile.symm.trans hok
  | ok file =>
    rw [push_new hactive hfile hnew]
    refine iff_of_true ?_ ⟨fun _ => ⟨file, hfile⟩, fun e _ he => ?_⟩
    · refine Proper.schedule (hapart.pushEntry w _) fun t ht => (later_store (hm.later t ht)).mpr ?_
      have hpast := m.past t ht
      refine (refreshed_later hpast).mpr fun _ => ?_
      simp only [pushed, hnew, Option.getD_none, staleTime]
      omega
    · cases hnew.symm.trans he

theorem push_existing_proper_iff (hm : Proper m) (hactive : m.state.active = true)
    (hexpands : Expands w path) (hentry : m.state.entries path = some e) :
    Proper { m with state := (push w stat m.now command path m.state).1 } ↔
      FitsPush w stat m path := by
  obtain ⟨file, hfile⟩ := hexpands
  have hfirst : (pushed m.now command path m.state).firstSeen = e.firstSeen := by
    simp [pushed, hentry]
  have hlater : ∀ t ∈ m.lastRun, t < (refreshed stat file m.now command path m.state).nextTime ↔
      (¬NonemptyRegular ((stat file).getD missing) → t < e.firstSeen + staleTime) := by
    intro t ht
    rw [refreshed_later (m.past t ht), hfirst]
  rw [push_existing hactive hfile hentry]
  constructor
  · intro h
    refine ⟨fun _ => ⟨file, hfile⟩, fun f file' hf hfile' hnot t ht => ?_⟩
    cases hentry.symm.trans hf
    cases hfile.symm.trans hfile'
    exact (hlater t ht).mp ((later_store (hm.later t ht)).mp (h.later t ht)) hnot
  · intro h
    refine Proper.schedule (hm.sound.updateEntry hentry w _) fun t ht =>
      (later_store (hm.later t ht)).mpr ((hlater t ht).mpr fun hnot => ?_)
    exact h.fresh e file hentry hfile hnot t ht

theorem push_proper_iff (hm : Proper m) (hk : Known w m.state) :
    Proper { m with state := (push w stat m.now command path m.state).1 } ↔
      (m.state.active = true → FitsPush w stat m path) := by
  by_cases hactive : m.state.active = true
  · rw [imp_iff_right hactive]
    cases hentry : m.state.entries path with
    | none => exact push_new_proper_iff hm hactive hentry
    | some e => exact push_existing_proper_iff hm hactive (hk path (by simp [hentry])) hentry
  · rw [push_inactive hactive]
    exact iff_of_true hm fun h => absurd h hactive

theorem push_known (hk : Known w s)
    (hexpands : s.active = true → s.entries path = none → Expands w path) :
    Known w (push w stat now command path s).1 := by
  by_cases hactive : s.active = true
  · have hpath : Expands w path := by
      cases hentry : s.entries path with
      | none => exact hexpands hactive hentry
      | some e => exact hk path (by simp [hentry])
    obtain ⟨file, hfile⟩ := hpath
    cases hentry : s.entries path with
    | none =>
      rw [push_new hactive hfile hentry]
      exact hk.update ⟨file, hfile⟩ rfl
    | some e =>
      rw [push_existing hactive hfile hentry]
      exact hk.update ⟨file, hfile⟩ rfl
  · rwa [push, if_neg hactive]

end

section

variable {w : World} {m m' : Moment} {c : Call} {examined : List Path}

theorem call_of_fits (hm : Proper m) (hk : Known w m.state) (h : Fits w m c) :
    ∃ m' examined, call w m c = some (m', examined) ∧ Proper m' ∧ examined.Nodup ∧
      Known w m'.state := by
  have hadvanced : Proper (m.advance c.elapsed) := ⟨hm.sound, hm.later⟩
  rw [call]
  cases haction : c.action with
  | push command path =>
    have hfits : m.state.active = true → FitsPush w (c.stat 0) (m.advance c.elapsed) path :=
      fun hactive => ⟨(h command path haction hactive).expands,
        (h command path haction hactive).fresh⟩
    exact ⟨_, _, rfl, (push_proper_iff hadvanced hk).mpr hfits, List.nodup_nil,
      push_known hk fun hactive => (hfits hactive).expands⟩
  | shutdown =>
    refine ⟨_, _, rfl, ⟨⟨isHeap_nil, List.nodup_nil, by simp [shutdown]⟩, ?_⟩, List.nodup_nil, ?_⟩
    · intro t _ path e he
      cases he
    · intro path hpath
      cases hpath
  | process =>
    obtain ⟨o, ho, hended⟩ := process_ends c.stat (m.advance c.elapsed).now hadvanced.sound hk
    refine ⟨(m.advance c.elapsed).ran o.state, o.examined, by simp [act, ho],
      ⟨hended.sound, fun t ht => ?_⟩, hended.once, hended.known⟩
    cases ht
    exact hended.later

theorem fits_of_proper (hm : Proper m) (hk : Known w m.state) (h : call w m c = some (m', examined))
    (hm' : Proper m') : Fits w m c := by
  intro command path haction hactive
  rw [call, haction] at h
  cases h
  have hadvanced : Proper (m.advance c.elapsed) := ⟨hm.sound, hm.later⟩
  have hfits := (push_proper_iff hadvanced hk).mp hm' hactive
  exact ⟨hfits.expands, hfits.fresh⟩

theorem allProper_iff_of_proper {calls : List Call} (hm : Proper m) (hk : Known w m.state) :
    AllProper w m calls ↔ AllFit w m calls := by
  induction calls generalizing m with
  | nil => exact Iff.rfl
  | cons c calls ih =>
    constructor
    · rintro ⟨m', examined, hcall, hm', -, hrest⟩
      have hfits := fits_of_proper hm hk hcall hm'
      obtain ⟨n, seen, hn, -, -, hk'⟩ := call_of_fits hm hk hfits
      cases hcall.symm.trans hn
      refine ⟨hfits, fun n seen hn => ?_⟩
      cases hcall.symm.trans hn
      exact (ih hm' hk').mp hrest
    · rintro ⟨hfits, hrest⟩
      obtain ⟨m', examined, hcall, hm', honce, hk'⟩ := call_of_fits hm hk hfits
      exact ⟨m', examined, hcall, hm', honce, (ih hm' hk').mpr (hrest m' examined hcall)⟩

end

theorem initial_proper (now : ℕ) : Proper (initial now) := by
  refine ⟨⟨isHeap_nil, List.nodup_nil, by simp [initial]⟩, ?_⟩
  intro t ht
  cases ht

/-- After each call the queue is a heap with one pointer for each entry, no entry is overdue
since the last run of `process`, and each run ends and looks at no entry twice, just when all
pushes fit. -/
theorem allProper_iff (w : World) (now : ℕ) (calls : List Call) :
    AllProper w (initial now) calls ↔ AllFit w (initial now) calls :=
  allProper_iff_of_proper (initial_proper now) fun path hpath => by cases hpath

def sorted : World := ⟨sorting Path ℕ, none⟩

/-- A file that is written to for ten seconds and is then taken away. -/
def longWritten : List Call :=
  [⟨0, fun _ _ => some ⟨true, 1, 0⟩, .push "load" "a"⟩,
    ⟨9800000, fun _ _ => some ⟨true, 2, 9⟩, .push "load" "a"⟩,
    ⟨300000, fun _ _ => some ⟨true, 2, 9⟩, .process⟩,
    ⟨100000, fun _ _ => none, .push "load" "a"⟩]

theorem unpointed_and_overdue :
    ¬AllProper sorted (initial 0) [⟨0, fun _ _ => none, .push "load" "~a"⟩] ∧
      ¬AllProper sorted (initial 0) longWritten := by
  constructor
  · rintro ⟨m, examined, h, hm, -⟩
    cases h
    have hpointed := (hm.sound.pointed "~a").mpr (by decide +kernel)
    cases hpointed
  · rintro ⟨m₁, _, h₁, -, -, m₂, _, h₂, -, -, m₃, _, h₃, -, -, m₄, _, h₄, hm, -⟩
    cases h₁
    cases h₂
    cases h₃
    cases h₄
    have hlater := hm.later 10100000 rfl "a" _ rfl
    revert hlater
    decide +kernel

end WatchHeap
