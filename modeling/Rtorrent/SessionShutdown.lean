import Rtorrent.SessionWakeup

/-! # Shutdown of the session manager

`Control::cleanup` first calls `flush_all_pending_builds` and then stops the session thread, which
runs `SessionManager::cleanup` while the main thread waits for it. -/
namespace SessionShutdown

open SessionDownloadStorer SessionManagerModel TransitionSystems

def maxCleanupProcessing : ℕ := 64

/-- `process_pending_builds(true)` on the main thread. -/
inductive FlushPc where
  | none
  | clear
  | loop (requests : List SaveRequest)
  | lock (requests : List SaveRequest)
  | queue (requests : List SaveRequest)
  | store (requests : List SaveRequest)
  deriving DecidableEq, Repr

/-- `cleanup` and `flush_all_and_wait_unsafe` on the session thread. `requestsWait` and
`savesWait` wait for `m_finished_condition`; `failed` has thrown because of pending builds. -/
inductive ShutdownPc where
  | none
  | lock
  | check
  | requests
  | requestsWait
  | store (r : SaveRequest)
  | insert (r : SaveRequest)
  | saves
  | savesWait
  | done
  | failed
  deriving DecidableEq, Repr

structure State where
  manager : SessionManagerModel.State
  flush : FlushPc
  shutdown : ShutdownPc

def initial (files : Directory) : State := ⟨SessionManagerModel.initial files, .none, .none⟩

def afterFlushLoop : List SaveRequest → FlushPc
  | [] => .none
  | r :: rs => .lock (r :: rs)

/-- There is no limit on the number of requests and no callback at the end. -/
def flushNext (x : State) (streams : Stream × Stream) : State :=
  let s := x.manager
  match x.flush with
  | .none => x
  | .clear => { x with manager := { s with scheduledPendingBuilds := false }, flush := .loop [] }
  | .loop rs =>
    match s.pendingBuilds with
    | [] => { x with flush := afterFlushLoop rs }
    | d :: ds =>
      { x with
        manager := { s with pendingBuilds := ds }
        flush := .loop (rs ++ [⟨d, Option.none, streams.1, streams.2⟩]) }
  | .lock rs => { x with manager := { s with mutex := .main }, flush := .queue rs }
  | .queue [] => { x with manager := { s with mutex := .free }, flush := .none }
  | .queue (r :: rs) =>
    match replaceSaveRequestUnsafe s.saveRequests r with
    | .ok Option.none => { x with manager := enqueueRequest s r .idle .idle, flush := .store rs }
    | .ok (some _) => { x with manager := enqueueRequest s r .idle .idle, flush := .queue rs }
    | .error _ => { x with manager := { s with mutex := .free }, flush := .none }
  | .store rs =>
    { x with
      manager := { s with saveRequestCounter := s.saveRequests.length }, flush := .queue rs }

def shutdownNext (x : State) : State :=
  let s := x.manager
  match x.shutdown with
  | .none | .done | .failed => x
  | .lock => { x with manager := { s with mutex := .session }, shutdown := .check }
  | .check =>
    if s.pendingBuilds = [] then { x with shutdown := .requests }
    else { x with manager := { s with mutex := .free }, shutdown := .failed }
  | .requests =>
    match s.saveRequests with
    | [] => { x with shutdown := .saves }
    | r :: rs =>
      if maxCleanupProcessing ≤ s.processingSaveCounter then
        { x with manager := { s with mutex := .free }, shutdown := .requestsWait }
      else { x with manager := { s with saveRequests := rs }, shutdown := .store r }
  | .requestsWait => { x with manager := { s with mutex := .session }, shutdown := .requests }
  | .store r =>
    { x with
      manager := { s with saveRequestCounter := s.saveRequests.length }, shutdown := .insert r }
  | .insert r =>
    { x with
      manager :=
        { s with
          processingSaves := s.processingSaves ++ [⟨r, saveAndMoveStreams r.streams, false⟩]
          processingSaveCounter := s.processingSaves.length + 1 }
      shutdown := .requests }
  | .saves =>
    if s.processingSaves = [] then
      { x with manager := { s with finishedSaves := [], mutex := .free }, shutdown := .done }
    else { x with manager := { s with mutex := .free }, shutdown := .savesWait }
  | .savesWait => { x with manager := { s with mutex := .session }, shutdown := .saves }

inductive Event where
  | manager (e : SessionManagerModel.Event)
  | flushAllPendingBuilds
  | flush (streams : Stream × Stream)
  | cleanup
  | shutdown
  deriving DecidableEq, Repr

/-- The main thread runs one function at a time and waits during `cleanup`, when the session
thread runs no callback. -/
def Admits (x : State) : SessionManagerModel.Event → Prop
  | .saveResumeDownload _ | .saveFullDownload _ _ _ _ | .removeDownload _
  | .processPendingBuilds | .main _ => x.flush = .none ∧ x.shutdown = .none
  | .processSaveRequest | .processFinishedSaves | .session => x.shutdown = .none
  | .fileOp _ _ | .cleanupLock _ | .cleanup => True

instance (x : State) : ∀ e, Decidable (Admits x e)
  | .saveResumeDownload _ | .saveFullDownload _ _ _ _ | .removeDownload _
  | .processPendingBuilds | .main _ => inferInstanceAs (Decidable (_ ∧ _))
  | .processSaveRequest | .processFinishedSaves | .session =>
    inferInstanceAs (Decidable (x.shutdown = .none))
  | .fileOp _ _ | .cleanupLock _ | .cleanup => isTrue trivial

def FlushPc.awaitsMutex : FlushPc → Bool
  | .lock _ => true
  | _ => false

def ShutdownPc.awaitsMutex : ShutdownPc → Bool
  | .lock | .requestsWait | .savesWait => true
  | _ => false

def ShutdownPc.returned : ShutdownPc → Bool
  | .none | .done | .failed => true
  | _ => false

def Enabled (x : State) : Event → Prop
  | .manager e => Admits x e ∧ SessionManagerModel.Enabled x.manager e
  | .flushAllPendingBuilds => x.manager.main = .idle ∧ x.flush = .none ∧ x.shutdown = .none
  | .flush _ => x.flush ≠ .none ∧ (x.flush.awaitsMutex = true → x.manager.mutex = .free)
  | .cleanup =>
    (x.manager.main = .idle ∧ x.flush = .none) ∧ x.manager.session = .idle ∧ x.shutdown = .none
  | .shutdown =>
    x.shutdown.returned = false ∧ (x.shutdown.awaitsMutex = true → x.manager.mutex = .free)

instance (x : State) : ∀ e, Decidable (Enabled x e)
  | .manager _ | .flushAllPendingBuilds | .flush _ | .cleanup | .shutdown =>
    inferInstanceAs (Decidable (_ ∧ _))

def next (x : State) : Event → State
  | .manager e => { x with manager := SessionManagerModel.next x.manager e }
  | .flushAllPendingBuilds => { x with flush := .clear }
  | .flush streams => flushNext x streams
  | .cleanup => { x with shutdown := .lock }
  | .shutdown => shutdownNext x

def machine : Machine State Event := ⟨Enabled, next⟩

instance (x : State) (e : Event) : Decidable (machine.Enabled x e) :=
  inferInstanceAs (Decidable (Enabled x e))

inductive FlushStep (x : State) : FlushPc → State → Prop where
  | clear :
      FlushStep x .clear
        { x with manager := { x.manager with scheduledPendingBuilds := false }, flush := .loop [] }
  | stop (rs) (hp : x.manager.pendingBuilds = []) :
      FlushStep x (.loop rs) { x with flush := afterFlushLoop rs }
  | build (rs d ds r) (hp : x.manager.pendingBuilds = d :: ds) (hr : r.download = d) :
      FlushStep x (.loop rs)
        { x with manager := { x.manager with pendingBuilds := ds }, flush := .loop (rs ++ [r]) }
  | lock (rs) (hf : x.manager.mutex = .free) :
      FlushStep x (.lock rs)
        { x with manager := { x.manager with mutex := .main }, flush := .queue rs }
  | unlock :
      FlushStep x (.queue [])
        { x with manager := { x.manager with mutex := .free }, flush := .none }
  | queue (r rs t pc) (ht : EnqueueStep x.manager r .idle .idle t)
      (hp : pc = .store rs ∨ pc = .queue rs) :
      FlushStep x (.queue (r :: rs)) { x with manager := t, flush := pc }
  | store (rs) :
      FlushStep x (.store rs)
        { x with
          manager := { x.manager with saveRequestCounter := x.manager.saveRequests.length }
          flush := .queue rs }

theorem flushNext_step {x : State} {streams : Stream × Stream} (h : Enabled x (.flush streams)) :
    FlushStep x x.flush (flushNext x streams) := by
  rcases h with ⟨hn, hw⟩
  unfold flushNext
  cases hm : x.flush with
  | none => exact absurd hm hn
  | clear => exact .clear
  | loop rs =>
    cases hp : x.manager.pendingBuilds with
    | nil => simpa [hp] using FlushStep.stop rs hp
    | cons d ds => simpa [hp] using FlushStep.build rs d ds _ hp rfl
  | lock rs => exact .lock rs (hw (by rw [hm]; rfl))
  | queue rs =>
    cases rs with
    | nil => exact .unlock
    | cons r rs =>
      have ht := enqueueRequest_step x.manager r .idle .idle
      obtain ⟨o, ho⟩ := replaceSaveRequestUnsafe_ok x.manager.saveRequests r
      cases o with
      | none => simpa [ho] using FlushStep.queue r rs _ _ ht (.inl rfl)
      | some qs => simpa [ho] using FlushStep.queue r rs _ _ ht (.inr rfl)
  | store rs => exact .store rs

inductive ShutdownStep (x : State) : ShutdownPc → State → Prop where
  | lock (hf : x.manager.mutex = .free) :
      ShutdownStep x .lock
        { x with manager := { x.manager with mutex := .session }, shutdown := .check }
  | refuse (hp : x.manager.pendingBuilds ≠ []) :
      ShutdownStep x .check
        { x with manager := { x.manager with mutex := .free }, shutdown := .failed }
  | accept (hp : x.manager.pendingBuilds = []) :
      ShutdownStep x .check { x with shutdown := .requests }
  | queued (hq : x.manager.saveRequests = []) :
      ShutdownStep x .requests { x with shutdown := .saves }
  | requestsWait :
      ShutdownStep x .requests
        { x with manager := { x.manager with mutex := .free }, shutdown := .requestsWait }
  | requestsWake (hf : x.manager.mutex = .free) :
      ShutdownStep x .requestsWait
        { x with manager := { x.manager with mutex := .session }, shutdown := .requests }
  | pop (r rs) (hq : x.manager.saveRequests = r :: rs) :
      ShutdownStep x .requests
        { x with manager := { x.manager with saveRequests := rs }, shutdown := .store r }
  | store (r) :
      ShutdownStep x (.store r)
        { x with
          manager := { x.manager with saveRequestCounter := x.manager.saveRequests.length }
          shutdown := .insert r }
  | insert (r) :
      ShutdownStep x (.insert r)
        { x with
          manager :=
            { x.manager with
              processingSaves :=
                x.manager.processingSaves ++ [⟨r, saveAndMoveStreams r.streams, false⟩]
              processingSaveCounter := x.manager.processingSaves.length + 1 }
          shutdown := .requests }
  | savesWait :
      ShutdownStep x .saves
        { x with manager := { x.manager with mutex := .free }, shutdown := .savesWait }
  | savesWake (hf : x.manager.mutex = .free) :
      ShutdownStep x .savesWait
        { x with manager := { x.manager with mutex := .session }, shutdown := .saves }
  | finish (hp : x.manager.processingSaves = []) :
      ShutdownStep x .saves
        { x with
          manager := { x.manager with finishedSaves := [], mutex := .free }, shutdown := .done }

theorem shutdownNext_step {x : State} (h : Enabled x .shutdown) :
    ShutdownStep x x.shutdown (shutdownNext x) := by
  rcases h with ⟨hr, hw⟩
  unfold shutdownNext
  cases hm : x.shutdown with
  | none | done | failed => simp [hm, ShutdownPc.returned] at hr
  | lock => exact .lock (hw (by rw [hm]; rfl))
  | check =>
    by_cases hp : x.manager.pendingBuilds = []
    · simpa [hp] using ShutdownStep.accept hp
    · simpa [hp] using ShutdownStep.refuse hp
  | requests =>
    cases hq : x.manager.saveRequests with
    | nil => simpa [hq] using ShutdownStep.queued hq
    | cons r rs =>
      by_cases hc : maxCleanupProcessing ≤ x.manager.processingSaveCounter
      · simpa [hq, hc] using ShutdownStep.requestsWait (x := x)
      · simpa [hq, hc] using ShutdownStep.pop r rs hq
  | requestsWait => exact .requestsWake (hw (by rw [hm]; rfl))
  | store r => exact .store r
  | insert r => exact .insert r
  | saves =>
    by_cases hp : x.manager.processingSaves = []
    · simpa [hp] using ShutdownStep.finish hp
    · simpa [hp] using ShutdownStep.savesWait (x := x)
  | savesWait => exact .savesWake (hw (by rw [hm]; rfl))

@[simp] def takesBuilds : FlushPc → Bool
  | .clear | .loop _ => true
  | _ => false

@[simp] def pastRequests : ShutdownPc → Bool
  | .saves | .savesWait | .done => true
  | _ => false

/-- What holds from the call of `flush_all_pending_builds` on. During `cleanup` only the save
threads run, so what it found empty stays empty. -/
structure Flushed (x : State) : Prop where
  alone : x.shutdown ≠ .none → x.flush = .none
  builds : takesBuilds x.flush = true ∨ x.manager.pendingBuilds = []
  passed : x.shutdown ≠ .failed
  requests : pastRequests x.shutdown = true → x.manager.saveRequests = []
  saves : x.shutdown = .done → x.manager.processingSaves = []

variable {x y : State} {t : SessionManagerModel.State}

theorem Flushed.flush_step {pc : FlushPc} (h : Flushed x) (hm : x.flush = pc)
    (hs : FlushStep x pc y) : Flushed y := by
  have hn : x.shutdown = .none := by
    by_contra hn
    have := h.alone hn
    cases hs <;> simp_all
  have hb := h.builds
  cases hs with
  | queue _ _ _ _ ht => cases ht <;> constructor <;> simp_all
  | _ => constructor <;> simp_all

theorem Flushed.shutdown_step {pc : ShutdownPc} (h : Flushed x) (hm : x.shutdown = pc)
    (hs : ShutdownStep x pc y) : Flushed y := by
  rcases h with ⟨ha, hb, hn, hr, hp⟩
  cases hs <;> constructor <;> simp_all

theorem Flushed.working (h : Flushed x) (hn : x.shutdown = .none)
    (ht : x.manager.pendingBuilds = [] → t.pendingBuilds = []) :
    Flushed { x with manager := t } :=
  ⟨h.alone, h.builds.imp_right ht, h.passed, by simp [hn], by simp [hn]⟩

variable {s : SessionManagerModel.State}

theorem mainStep_builds {pc : MainPc} (hs : MainStep s pc t) (h : s.pendingBuilds = []) :
    t.pendingBuilds = [] := by
  cases hs with
  | builds _ _ _ _ ht | saves _ _ _ ht | fullQueue _ _ ht | buildsQueue _ _ _ ht =>
    cases ht <;> exact h
  | _ => simp_all

theorem sessionStep_builds {pc : SessionPc} (hs : SessionStep s pc t) :
    t.pendingBuilds = s.pendingBuilds := by
  cases hs with
  | builds _ _ _ ht | saves _ _ _ ht => cases ht <;> rfl
  | _ => rfl

theorem Flushed.save_step {m : Mutex} (h : Flushed x)
    (hs : (∃ i error, SaveStep x.manager i error t) ∨ CleanupStep x.manager m t) :
    Flushed { x with manager := t } := by
  rcases h with ⟨ha, hb, hn, hr, hp⟩
  rcases hs with ⟨i, error, hs⟩ | hs <;> cases hs <;> exact ⟨ha, hb, hn, hr, by simp_all⟩

def addsBuild : Event → Bool
  | .manager (.saveResumeDownload _) => true
  | _ => false

/-- The machine after the last call of `save_resume_download`. -/
def closing : Machine State Event := machine.guarded fun _ e => addsBuild e = false

instance (x : State) (e : Event) : Decidable (closing.Enabled x e) :=
  inferInstanceAs (Decidable (_ ∧ Enabled x e))

theorem step_preserves_flushed {e : Event} (h : Flushed x)
    (hs : closing.system.Step x e y) : Flushed y := by
  obtain ⟨⟨hg, he⟩, rfl⟩ := hs
  have he : Enabled x e := he
  cases e with
  | flush streams => exact h.flush_step rfl (flushNext_step he)
  | shutdown => exact h.shutdown_step rfl (shutdownNext_step he)
  | flushAllPendingBuilds =>
    exact ⟨fun hn => absurd he.2.2 hn, .inl rfl, h.passed, h.requests, h.saves⟩
  | cleanup =>
    exact (⟨fun _ => he.1.2, h.builds, by simp, by simp, by simp⟩ :
      Flushed { x with shutdown := .lock })
  | manager e =>
    rcases he with ⟨ha, he⟩
    cases e with
    | main streams => exact h.working ha.2 (mainStep_builds (mainNext_step he))
    | session => exact h.working ha (sessionStep_builds (sessionNext_step he)).trans
    | cleanup => exact h.save_step (.inr (cleanupNext_step he))
    | fileOp i error => exact h.save_step (m := .free) (.inl ⟨i, error, fileOpNext_step he⟩)
    | cleanupLock => exact ⟨h.alone, h.builds, h.passed, h.requests, h.saves⟩
    | saveResumeDownload d => cases hg
    | saveFullDownload | removeDownload | processPendingBuilds => exact h.working ha.2 id
    | processSaveRequest | processFinishedSaves => exact h.working ha id

/-- Unless another resume save is requested, `cleanup` finds no pending builds after
`flush_all_pending_builds`, and when it returns nothing is left in a queue or in flight. -/
theorem cleanup_after_flush (hx : Enabled x .flushAllPendingBuilds)
    (h : Reachable closing.system (next x .flushAllPendingBuilds) y) :
    y.shutdown ≠ .failed ∧ (y.shutdown = .done → y.manager.pendingBuilds = [] ∧
      y.manager.saveRequests = [] ∧ y.manager.processingSaves = []) := by
  have hf := h.invariant (I := Flushed) (by constructor <;> simp [next, hx.2.2])
    fun _ _ _ => step_preserves_flushed
  refine ⟨hf.passed, fun hd => ⟨?_, hf.requests (by simp [hd]), hf.saves hd⟩⟩
  simpa [hf.alone (by simp [hd])] using hf.builds

def flushing : State :=
  next ⟨{ SessionManagerModel.initial fun _ => none with pendingBuilds := [0] }, .none, .none⟩
    .flushAllPendingBuilds

/-- The save of the download fails. -/
def closingRun : List Event :=
  List.replicate 7 (.flush default) ++ .cleanup :: List.replicate 7 .shutdown ++
    [.manager (.fileOp 0 true), .manager (.cleanupLock 0)] ++
    List.replicate 5 (.manager .cleanup) ++ [.shutdown, .shutdown]

theorem closingRun_drained : (closing.replay flushing closingRun).manager.processingSaves = [] := by
  have ha : closing.Accepts flushing closingRun := by decide
  exact ((cleanup_after_flush (by decide) ⟨_, ha.execution⟩).2 rfl).2.2

end SessionShutdown
