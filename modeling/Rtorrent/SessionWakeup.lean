import Rtorrent.SessionManagerModel

/-! # No wake-up of the session manager is lost

Three flags say that a callback is on its way and two counters mirror the queues, all read
without the mutex. The invariant names, for each non-empty queue, who is still going to look
at it. -/
namespace SessionWakeup

open SessionDownloadStorer SessionManagerModel TransitionSystems

@[simp] def mainHoldsMutex : MainPc → Bool
  | .fullQueue _ | .fullStore | .unlock _ | .removeQueues _ | .removeStore _
  | .removeScan _ | .buildsQueue _ | .buildsStore _ => true
  | .pendingBuilds _ k => k.isSome
  | _ => false

@[simp] def sessionHoldsMutex : SessionPc → Bool
  | .savesClear | .savesLoop | .savesStore _ | .savesInsert _ | .unlock _
  | .finishedClear | .saveRequest _ => true
  | _ => false

/-- A request is in the queue and its counter has not been stored yet. -/
@[simp] def mainStoring : MainPc → Bool
  | .fullStore | .buildsStore _ => true
  | _ => false

@[simp] def mainRemoving : MainPc → Bool
  | .removeStore _ => true
  | _ => false

@[simp] def sessionPopping : SessionPc → Bool
  | .savesStore _ => true
  | _ => false

/-- The main thread still has to decide in `callback_save_request`. -/
@[simp] def mainWillSave : MainPc → Bool
  | .fullStore | .unlock true | .buildsLock _ | .buildsQueue _ | .buildsStore _ => true
  | .saveRequest pc => pc ≠ .schedule
  | _ => false

/-- The main thread still has to decide in `callback_pending_builds`, to look at the
pending builds or to queue the requests it has built. -/
@[simp] def mainWillBuild : MainPc → Bool
  | .removeStore _ | .buildsLoop _ => true
  | .pendingBuilds pc _ => pc ≠ .schedule
  | .buildsLock rs | .buildsQueue rs => rs ≠ []
  | _ => false

/-- The session thread is going to look at the queue or to decide in `callback_save_request`. -/
@[simp] def sessionWillSave : SessionPc → Bool
  | .savesLoop | .savesStore _ | .savesInsert _ | .finishedLock
  | .finishedClear => true
  | .saveRequest pc => pc ≠ .schedule
  | _ => false

/-- The session thread still has to decide in the `callback_pending_builds` that ends
`process_save_request`. -/
@[simp] def sessionWillBuild : SessionPc → Bool
  | .savesLock | .savesClear | .savesLoop | .savesStore _ | .savesInsert _
  | .unlock true => true
  | .pendingBuilds pc => pc ≠ .schedule
  | _ => false

/-- A save thread past the exchange of its `callback_finished_saves`. -/
@[simp] def cleanupCalled : Mutex → Bool
  | .save _ .schedule | .save _ .erase | .save _ .count | .save _ .unlock => true
  | _ => false

@[simp] def cleanupCounting : Mutex → Bool
  | .save _ .count => true
  | _ => false

@[simp] def cleanupScheduling : Mutex → Bool
  | .save _ .schedule => true
  | _ => false

/-- The main thread is about to queue `process_pending_builds` or to run it. -/
@[simp] def mainBuildsToken : MainPc → Bool
  | .buildsClear => true
  | .pendingBuilds pc _ => pc = .schedule
  | _ => false

@[simp] def mainSavesToken : MainPc → Bool
  | .saveRequest pc => pc = .schedule
  | _ => false

@[simp] def sessionBuildsToken : SessionPc → Bool
  | .pendingBuilds pc => pc = .schedule
  | _ => false

@[simp] def sessionSavesToken : SessionPc → Bool
  | .savesLock | .savesClear => true
  | .saveRequest pc => pc = .schedule
  | _ => false

@[simp] def sessionFinishedToken : SessionPc → Bool
  | .finishedLock | .finishedClear => true
  | _ => false

/-- A function call, a callback that begins to run, or a save thread that enters its cleanup. -/
def starts : Event → Bool
  | .main _ | .session | .fileOp _ _ | .cleanup => false
  | _ => true

structure Exclusion (s : State) : Prop where
  main : s.mutex = .main ↔ mainHoldsMutex s.main = true
  session : s.mutex = .session ↔ sessionHoldsMutex s.session = true

structure Counters (s : State) : Prop where
  requests : mainStoring s.main = false → s.saveRequests.length ≤ s.saveRequestCounter
  covered : s.saveRequestCounter ≤ s.saveRequests.length ∨
    sessionPopping s.session = true ∨ mainRemoving s.main = true
  processing : s.processingSaveCounter ≤
    s.processingSaves.length + (if cleanupCounting s.mutex then 1 else 0)

/-- A flag that is set has a callback that will clear it. -/
structure Flags (s : State) : Prop where
  builds : s.scheduledPendingBuilds = true → 0 < s.queuedPendingBuilds ∨
    mainBuildsToken s.main = true ∨ sessionBuildsToken s.session = true
  saves : s.scheduledSaveRequest = true → 0 < s.queuedSaveRequest ∨
    mainSavesToken s.main = true ∨ sessionSavesToken s.session = true
  finished : s.scheduledFinishedSaves = true → 0 < s.queuedFinishedSaves ∨
    sessionFinishedToken s.session = true ∨ cleanupScheduling s.mutex = true
  cleanup : cleanupCalled s.mutex = true → s.scheduledFinishedSaves = true

structure Wakeups (s : State) : Prop where
  saves : s.saveRequests ≠ [] → s.scheduledSaveRequest = true ∨
    s.scheduledFinishedSaves = true ∨ s.processingSaves ≠ [] ∨
    mainWillSave s.main = true ∨ sessionWillSave s.session = true
  builds : s.pendingBuilds ≠ [] → s.scheduledPendingBuilds = true ∨
    s.saveRequests ≠ [] ∨ mainWillBuild s.main = true ∨ sessionWillBuild s.session = true

structure Invariant (s : State) : Prop where
  exclusion : Exclusion s
  counters : Counters s
  flags : Flags s
  wakeups : Wakeups s

theorem initial_invariant (files : Directory) : Invariant (initial files) := by
  refine ⟨?_, ?_, ?_, ?_⟩ <;> constructor <;> simp [initial]

variable {s t : State} {pc : MainPc} {qc : SessionPc} {m : Mutex}

theorem exclusion_main (h : Exclusion s) (hp : s.main = pc) (hs : MainStep s pc t) :
    Exclusion t := by
  rcases h with ⟨hm, hq⟩
  rw [hp] at hm
  cases hs with
  | builds _ k _ _ ht => cases ht <;> cases k <;> exact ⟨by simpa [afterPendingBuilds] using hm, hq⟩
  | saves _ _ _ ht => cases ht <;> exact ⟨by simpa using hm, hq⟩
  | fullQueue r t ht => cases ht <;> exact ⟨by simpa using hm, hq⟩
  | buildsQueue r rs t ht => cases ht <;> exact ⟨by simpa using hm, hq⟩
  | buildsStop rs => exact ⟨by cases rs <;> simpa [afterBuildsLoop] using hm, hq⟩
  | fullLock _ hf | removeLock _ hf | removeWait _ hf | buildsLock _ hf =>
    exact ⟨by simp, by simpa [hf] using hq⟩
  | unlockCallback | unlockReturn | removeBusy =>
    have hf : s.mutex = .main := hm.mpr rfl
    exact ⟨by simp, by simpa [hf] using hq⟩
  | _ => exact ⟨by simpa using hm, hq⟩

theorem exclusion_session (h : Exclusion s) (hp : s.session = qc) (hs : SessionStep s qc t) :
    Exclusion t := by
  rcases h with ⟨hm, hq⟩
  rw [hp] at hq
  cases hs with
  | builds _ _ _ ht | saves _ _ _ ht => cases ht <;> exact ⟨hm, by simpa using hq⟩
  | savesLock hf | finishedLock hf => exact ⟨by simpa [hf] using hm, by simp⟩
  | unlockBuilds | unlockReturn =>
    have hf : s.mutex = .session := hq.mpr rfl
    exact ⟨by simpa [hf] using hm, by simp⟩
  | _ => exact ⟨hm, by simpa using hq⟩

theorem exclusion_cleanup (h : Exclusion s) (hp : s.mutex = m) (hs : CleanupStep s m t) :
    Exclusion t := by
  rcases h with ⟨hm, hq⟩
  rw [hp] at hm hq
  cases hs <;> exact ⟨by simpa using hm, by simpa using hq⟩

theorem counters_enqueue {r : SaveRequest} {merged pushed : MainPc}
    (h : Counters s) (hs : EnqueueStep s r merged pushed t) (hm : mainStoring s.main = false)
    (hr : mainRemoving s.main = false) (hp : mainStoring pushed = true) : Counters t := by
  have hc : s.saveRequestCounter ≤ s.saveRequests.length ∨ sessionPopping s.session = true := by
    rcases h.covered with hc | hc | hc
    · exact .inl hc
    · exact .inr hc
    · rw [hr] at hc
      cases hc
  cases hs with
  | merge before q after hq =>
    have hl : (before ++ mergeRequest q r :: after).length = s.saveRequests.length := by simp [hq]
    constructor
    · intro _
      rw [hl]
      exact h.requests hm
    · rcases hc with hc | hc
      · exact .inl (hl ▸ hc)
      · exact .inr (.inl hc)
    · exact h.processing
  | push =>
    have hl : s.saveRequests.length ≤ (s.saveRequests ++ [r]).length := by simp
    constructor
    · intro hn
      rw [hp] at hn
      cases hn
    · rcases hc with hc | hc
      · exact .inl (Nat.le_trans hc hl)
      · exact .inr (.inl hc)
    · exact h.processing

theorem counters_main (hx : Exclusion s) (h : Counters s) (hm : s.main = pc)
    (hs : MainStep s pc t) : Counters t := by
  have ⟨hr, hc, hp⟩ := h
  rw [hm] at hr hc
  cases hs with
  | builds _ k _ _ ht => cases ht <;> cases k <;> exact ⟨hr, hc, hp⟩
  | saves _ _ _ ht => cases ht <;> exact ⟨hr, hc, hp⟩
  | buildsStop rs => cases rs <;> exact ⟨hr, hc, hp⟩
  | fullQueue r t ht => exact counters_enqueue h ht (by rw [hm]; rfl) (by rw [hm]; rfl) rfl
  | buildsQueue r rs t ht => exact counters_enqueue h ht (by rw [hm]; rfl) (by rw [hm]; rfl) rfl
  | fullLock _ hf | removeLock _ hf | removeWait _ hf | buildsLock _ hf =>
    exact ⟨hr, hc, by simpa [hf] using hp⟩
  | unlockCallback | unlockReturn | removeBusy =>
    have hf : s.mutex = .main := hx.main.mpr (by simp [hm])
    exact ⟨hr, hc, by simpa [hf] using hp⟩
  | fullStore | removeStore | buildsStore => exact ⟨by simp, .inl (Nat.le_refl _), hp⟩
  | removeFound d =>
    exact ⟨fun _ => Nat.le_trans (List.length_filter_le _ _) (hr rfl), by simp, hp⟩
  | _ => exact ⟨hr, hc, hp⟩

theorem counters_session (hx : Exclusion s) (h : Counters s) (hm : s.session = qc)
    (hs : SessionStep s qc t) : Counters t := by
  rcases h with ⟨hr, hc, hp⟩
  rw [hm] at hc
  cases hs with
  | builds _ _ _ ht | saves _ _ _ ht => cases ht <;> exact ⟨hr, hc, hp⟩
  | savesLock hf | finishedLock hf => exact ⟨hr, hc, by simpa [hf] using hp⟩
  | unlockBuilds | unlockReturn =>
    have hf : s.mutex = .session := hx.session.mpr (by simp [hm])
    exact ⟨hr, hc, by simpa [hf] using hp⟩
  | savesPop r rs hq =>
    have hl : rs.length ≤ s.saveRequests.length := by simp [hq]
    exact ⟨fun h => Nat.le_trans hl (hr h), by simp, hp⟩
  | savesStore => exact ⟨fun _ => Nat.le_refl _, .inl (Nat.le_refl _), hp⟩
  | savesInsert => exact ⟨hr, hc, by simp⟩
  | _ => exact ⟨hr, hc, hp⟩

theorem counters_cleanup (h : Counters s) (hm : s.mutex = m) (hs : CleanupStep s m t) :
    Counters t := by
  rcases h with ⟨hr, hc, hp⟩
  rw [hm] at hp
  cases hs with
  | erase i =>
    have hl : s.processingSaves.length ≤ (s.processingSaves.eraseIdx i).length + 1 := by
      rw [List.length_eraseIdx]; split <;> omega
    exact ⟨hr, hc, Nat.le_trans hp hl⟩
  | count => exact ⟨hr, hc, by simp⟩
  | _ => exact ⟨hr, hc, hp⟩

theorem flags_main (hx : Exclusion s) (h : Flags s) (hm : s.main = pc) (hs : MainStep s pc t) :
    Flags t := by
  rcases h with ⟨hb, hq, hf, hc⟩
  rw [hm] at hb hq
  cases hs with
  | builds _ k _ _ ht =>
    cases ht with
    | exchange => exact ⟨fun _ => .inr (.inl rfl), hq, hf, hc⟩
    | schedule => cases k <;> exact ⟨fun _ => .inl (Nat.succ_pos _), hq, hf, hc⟩
    | _ => cases k <;> exact ⟨hb, hq, hf, hc⟩
  | saves _ _ _ ht =>
    cases ht with
    | exchange => exact ⟨hb, fun _ => .inr (.inl rfl), hf, hc⟩
    | schedule => exact ⟨hb, fun _ => .inl (Nat.succ_pos _), hf, hc⟩
    | _ => exact ⟨hb, hq, hf, hc⟩
  | buildsClear => exact ⟨by simp, hq, hf, hc⟩
  | buildsStop rs => cases rs <;> exact ⟨hb, hq, hf, hc⟩
  | fullQueue r t ht => cases ht <;> exact ⟨hb, hq, hf, hc⟩
  | buildsQueue r rs t ht => cases ht <;> exact ⟨hb, hq, hf, hc⟩
  | fullLock _ hl | removeLock _ hl | removeWait _ hl | buildsLock _ hl =>
    rw [hl] at hf
    exact ⟨hb, hq, hf, by simp⟩
  | unlockCallback | unlockReturn | removeBusy =>
    have hl : s.mutex = .main := hx.main.mpr (by simp [hm])
    rw [hl] at hf
    exact ⟨hb, hq, hf, by simp⟩
  | _ => exact ⟨hb, hq, hf, hc⟩

theorem flags_session (hx : Exclusion s) (h : Flags s) (hm : s.session = qc)
    (hs : SessionStep s qc t) : Flags t := by
  rcases h with ⟨hb, hq, hf, hc⟩
  rw [hm] at hb hq hf
  cases hs with
  | savesLock hl | finishedLock hl =>
    rw [hl] at hf
    exact ⟨hb, hq, hf, by simp⟩
  | unlockBuilds | unlockReturn =>
    have hl : s.mutex = .session := hx.session.mpr (by simp [hm])
    rw [hl] at hf
    exact ⟨hb, hq, hf, by simp⟩
  | savesClear => exact ⟨hb, by simp, hf, hc⟩
  | finishedClear =>
    have hl : s.mutex = .session := hx.session.mpr (by simp [hm])
    exact ⟨hb, hq, by simp, by simp [hl]⟩
  | builds _ _ _ ht =>
    cases ht with
    | exchange => exact ⟨fun _ => .inr (.inr rfl), hq, hf, hc⟩
    | schedule => exact ⟨fun _ => .inl (Nat.succ_pos _), hq, hf, hc⟩
    | _ => exact ⟨hb, hq, hf, hc⟩
  | saves _ _ _ ht =>
    cases ht with
    | exchange => exact ⟨hb, fun _ => .inr (.inr rfl), hf, hc⟩
    | schedule => exact ⟨hb, fun _ => .inl (Nat.succ_pos _), hf, hc⟩
    | _ => exact ⟨hb, hq, hf, hc⟩
  | _ => exact ⟨hb, hq, hf, hc⟩

theorem flags_cleanup (h : Flags s) (hm : s.mutex = m) (hs : CleanupStep s m t) : Flags t := by
  rcases h with ⟨hb, hq, hf, hc⟩
  rw [hm] at hf hc
  cases hs with
  | scheduled _ he => exact ⟨hb, hq, hf, fun _ => he⟩
  | exchange => exact ⟨hb, hq, fun _ => .inr (.inr rfl), fun _ => rfl⟩
  | schedule => exact ⟨hb, hq, fun _ => .inl (Nat.succ_pos _), hc⟩
  | erase | count => exact ⟨hb, hq, hf, hc⟩
  | unlock => exact ⟨hb, hq, hf, by simp⟩

/-- A full counter means that requests are queued or that a thread is about to store a smaller
value and to call `callback_pending_builds`. -/
theorem builds_covered (h : Counters s) (hc : maxConcurrentRequests ≤ s.saveRequestCounter) :
    s.saveRequests ≠ [] ∨ sessionPopping s.session = true ∨ mainRemoving s.main = true := by
  apply h.covered.imp_left
  intro hl he
  rw [he, List.length_nil] at hl
  simp only [maxConcurrentRequests] at hc
  omega

theorem popping_willBuild {pc : SessionPc} (h : sessionPopping pc = true) :
    sessionWillBuild pc = true := by
  cases pc <;> simp_all

theorem removing_willBuild {pc : MainPc} (h : mainRemoving pc = true) :
    mainWillBuild pc = true := by
  cases pc <;> simp_all

/-- A main thread that finds the counter full and returns leaves the pending builds to others. -/
theorem builds_left (h : Counters s)
    (hc : maxConcurrentRequests ≤ s.saveRequestCounter) (hm : mainRemoving s.main = false) :
    s.saveRequests ≠ [] ∨ sessionWillBuild s.session = true := by
  rcases builds_covered h hc with hr | hr | hr
  · exact .inl hr
  · exact .inr (popping_willBuild hr)
  · rw [hm] at hr
    cases hr

theorem storing_holdsMutex {pc : MainPc} (h : mainHoldsMutex pc = false) :
    mainStoring pc = false := by
  cases pc <;> simp_all

theorem processing_nonempty (h : Counters s)
    (hc : maxConcurrentProcessing ≤ s.processingSaveCounter) : s.processingSaves ≠ [] := by
  have hp := h.processing
  rintro he
  rw [he, List.length_nil] at hp
  have : (if cleanupCounting s.mutex then 1 else 0) ≤ 1 := by split <;> omega
  simp only [maxConcurrentProcessing] at hc
  omega

theorem requests_empty (h : Counters s) (hm : mainStoring s.main = false)
    (hc : s.saveRequestCounter = 0) : s.saveRequests = [] :=
  List.eq_nil_of_length_eq_zero (Nat.le_zero.mp (hc ▸ h.requests hm))

theorem wakeups_main (hc : Counters s) (h : Wakeups s) (hm : s.main = pc)
    (hs : MainStep s pc t) : Wakeups t := by
  rcases h with ⟨hq, hb⟩
  rw [hm] at hq hb
  cases hs with
  | builds _ k _ _ ht =>
    cases ht with
    | full hf =>
      refine ⟨by cases k <;> exact hq, fun _ => .inr ?_⟩
      exact (builds_left hc hf (by rw [hm]; rfl)).imp_right fun hr => .inr hr
    | scheduled hf => exact ⟨by cases k <;> exact hq, fun _ => .inl hf⟩
    | exchange => exact ⟨hq, fun _ => .inl rfl⟩
    | _ => cases k <;> exact ⟨hq, hb⟩
  | saves _ _ _ ht =>
    cases ht with
    | empty hf => exact ⟨by simp [requests_empty hc (by simp [hm]) hf], hb⟩
    | full hf =>
      have hn := processing_nonempty hc hf
      exact ⟨fun _ => .inr (.inr (.inl hn)), hb⟩
    | scheduled hf => exact ⟨fun _ => .inl hf, hb⟩
    | exchange => exact ⟨fun _ => .inl rfl, hb⟩
    | _ => exact ⟨hq, hb⟩
  | fullQueue r t ht =>
    cases ht with
    | merge before q after hr =>
      have hr : s.saveRequests ≠ [] := by simp [hr]
      exact ⟨fun _ => by simpa using hq hr, by simp⟩
    | push => exact ⟨by simp, by simp⟩
  | buildsQueue r rs t ht => cases ht <;> exact ⟨by simp, by simp⟩
  | removeFound d => exact ⟨fun hr => hq fun he => hr (by simp [he]), by simp⟩
  | removeNone d => exact ⟨hq, fun hr => hb fun he => hr (by simp [he])⟩
  | buildsStop rs hp =>
    refine ⟨by cases rs <;> simp_all [afterBuildsLoop], fun hr => .inr ?_⟩
    cases rs with
    | cons r rs => exact .inr (.inl (by simp [afterBuildsLoop]))
    | nil =>
      rcases builds_left hc (hp.resolve_left hr) (by rw [hm]; rfl) with hr | hr
      · exact .inl hr
      · exact .inr (.inr hr)
  | buildsBuild | removeStore | buildsClear => exact ⟨hq, by simp⟩
  | buildsStore rs =>
    exact ⟨by simp, fun hr => (hb hr).imp_right (.imp_right (.imp_left (by simp)))⟩
  | fullStore => exact ⟨by simp, hb⟩
  | _ => exact ⟨hq, hb⟩

theorem wakeups_session (hx : Exclusion s) (hc : Counters s) (h : Wakeups s)
    (hm : s.session = qc) (hs : SessionStep s qc t) : Wakeups t := by
  rcases h with ⟨hq, hb⟩
  rw [hm] at hq hb
  cases hs with
  | savesStop hp =>
    refine ⟨fun hr => .inr (.inr (.inl ?_)), by simp⟩
    have hl := hp.resolve_left hr
    exact List.ne_nil_of_length_pos (Nat.lt_of_lt_of_le (by decide) hl)
  | savesPop => exact ⟨by simp, by simp⟩
  | builds _ _ _ ht =>
    cases ht with
    | full hf =>
      refine ⟨hq, fun _ => .inr ?_⟩
      rcases builds_covered hc hf with hr | hr | hr
      · exact .inl hr
      · simp [hm] at hr
      · exact .inr (.inl (removing_willBuild hr))
    | scheduled hf => exact ⟨hq, fun _ => .inl hf⟩
    | exchange => exact ⟨hq, fun _ => .inl rfl⟩
    | _ => exact ⟨hq, hb⟩
  | saves _ _ _ ht =>
    cases ht with
    | empty hf =>
      have hl : s.mutex = .session := hx.session.mpr (by simp [hm])
      have hn : mainHoldsMutex s.main = false :=
        Bool.eq_false_iff.mpr fun he => by simpa [hl] using hx.main.mpr he
      exact ⟨by simp [requests_empty hc (storing_holdsMutex hn) hf], hb⟩
    | full hf =>
      have hn := processing_nonempty hc hf
      exact ⟨fun _ => .inr (.inr (.inl hn)), hb⟩
    | scheduled hf => exact ⟨fun _ => .inl hf, hb⟩
    | exchange => exact ⟨fun _ => .inl rfl, hb⟩
    | _ => exact ⟨hq, hb⟩
  | savesClear | savesInsert | finishedClear => exact ⟨by simp, hb⟩
  | _ => exact ⟨hq, hb⟩

theorem wakeups_cleanup (hf : Flags s) (h : Wakeups s) (hm : s.mutex = m)
    (hs : CleanupStep s m t) : Wakeups t := by
  rcases h with ⟨hq, hb⟩
  cases hs with
  | exchange => exact ⟨fun _ => .inr (.inl rfl), hb⟩
  | erase => exact ⟨fun _ => .inr (.inl (hf.cleanup (by simp [hm]))), hb⟩
  | _ => exact ⟨hq, hb⟩

theorem Invariant.main (h : Invariant s) (hs : MainStep s s.main t) : Invariant t :=
  ⟨exclusion_main h.exclusion rfl hs, counters_main h.exclusion h.counters rfl hs,
    flags_main h.exclusion h.flags rfl hs, wakeups_main h.counters h.wakeups rfl hs⟩

theorem Invariant.session (h : Invariant s) (hs : SessionStep s s.session t) : Invariant t :=
  ⟨exclusion_session h.exclusion rfl hs, counters_session h.exclusion h.counters rfl hs,
    flags_session h.exclusion h.flags rfl hs,
    wakeups_session h.exclusion h.counters h.wakeups rfl hs⟩

theorem Invariant.cleanup (h : Invariant s) (hs : CleanupStep s s.mutex t) : Invariant t :=
  ⟨exclusion_cleanup h.exclusion rfl hs, counters_cleanup h.counters rfl hs,
    flags_cleanup h.flags rfl hs, wakeups_cleanup h.flags h.wakeups rfl hs⟩

theorem Invariant.save {i : ℕ} {error : Bool} (h : Invariant s)
    (hs : SaveStep s i error t) : Invariant t := by
  rcases h with ⟨⟨hm, hl⟩, ⟨hr, hc, hp⟩, ⟨hb, hq, hf, hd⟩, ⟨hws, hwb⟩⟩
  cases hs <;>
    exact ⟨⟨hm, hl⟩, ⟨hr, hc, by simpa using hp⟩, ⟨hb, hq, hf, hd⟩, ⟨by simpa using hws, hwb⟩⟩

theorem Invariant.enter {e : Event} (h : Invariant s) (he : Enabled s e)
    (hn : starts e = true) : Invariant (next s e) := by
  rcases h with ⟨⟨hx, hy⟩, ⟨hr, hc, hp⟩, ⟨hb, hq, hf, hd⟩, ⟨hws, hwb⟩⟩
  cases e with
  | saveResumeDownload d =>
    by_cases hd' : d ∈ s.pendingBuilds
    · simpa only [next, hd', ↓reduceIte] using
        Invariant.mk ⟨hx, hy⟩ ⟨hr, hc, hp⟩ ⟨hb, hq, hf, hd⟩ ⟨hws, hwb⟩
    · rw [show s.main = .idle from he] at hx hr hc hb hq hws
      simp only [next, hd', ↓reduceIte]
      exact ⟨⟨hx, hy⟩, ⟨hr, hc, hp⟩, ⟨hb, hq, hf, hd⟩, ⟨hws, by simp⟩⟩
  | saveFullDownload | removeDownload =>
    rw [show s.main = .idle from he] at hx hr hc hb hq hws hwb
    exact ⟨⟨hx, hy⟩, ⟨hr, hc, hp⟩, ⟨hb, hq, hf, hd⟩, ⟨hws, hwb⟩⟩
  | processPendingBuilds =>
    rw [he.1] at hx hr hc hq hws hwb
    exact ⟨⟨hx, hy⟩, ⟨hr, hc, hp⟩, ⟨fun _ => .inr (.inl rfl), hq, hf, hd⟩, ⟨hws, hwb⟩⟩
  | processSaveRequest =>
    rw [he.1] at hy hc hb hf hws
    exact ⟨⟨hx, hy⟩, ⟨hr, hc, hp⟩, ⟨hb, fun _ => .inr (.inr rfl), hf, hd⟩,
      ⟨hws, fun _ => .inr (.inr (.inr rfl))⟩⟩
  | processFinishedSaves =>
    rw [he.1] at hy hc hb hq hwb
    exact ⟨⟨hx, hy⟩, ⟨hr, hc, hp⟩, ⟨hb, hq, fun _ => .inr (.inl rfl), hd⟩,
      ⟨fun _ => .inr (.inr (.inr (.inr rfl))), hwb⟩⟩
  | cleanupLock i =>
    rw [he.2] at hx hy hp hf hd
    exact ⟨⟨by simpa [next] using hx, by simpa [next] using hy⟩, ⟨hr, hc, hp⟩,
      ⟨hb, hq, hf, hd⟩, ⟨hws, hwb⟩⟩
  | main | session | fileOp | cleanup => cases hn

theorem step_preserves_invariant {e : Event} (h : Invariant s)
    (hs : machine.system.Step s e t) : Invariant t := by
  rcases hs with ⟨he, rfl⟩
  have he : Enabled s e := he
  cases e with
  | main streams => exact h.main (mainNext_step he)
  | session => exact h.session (sessionNext_step he)
  | fileOp i error => exact h.save (fileOpNext_step he)
  | cleanup => exact h.cleanup (cleanupNext_step he)
  | _ => exact h.enter he rfl

theorem reachable_invariant {files : Directory}
    (h : Reachable machine.system (initial files) s) : Invariant s :=
  h.invariant (initial_invariant files) fun _ _ _ => step_preserves_invariant

/-- When nothing of the manager runs or is scheduled and no save is in flight, both queues
are empty. -/
theorem idle_queues_empty {files : Directory} {s : State}
    (h : Reachable machine.system (initial files) s) (hi : Idle s) :
    s.pendingBuilds = [] ∧ s.saveRequests = [] := by
  obtain ⟨-, -, hf, hw⟩ := reachable_invariant h
  have hb : s.scheduledPendingBuilds ≠ true := fun he => by
    simpa [hi.main, hi.session, hi.pendingBuilds] using hf.builds he
  have hq : s.scheduledSaveRequest ≠ true := fun he => by
    simpa [hi.main, hi.session, hi.saveRequest] using hf.saves he
  have hd : s.scheduledFinishedSaves ≠ true := fun he => by
    rcases hf.finished he with hn | hn | hn
    · exact absurd hi.finishedSaves (Nat.pos_iff_ne_zero.mp hn)
    · simp [hi.session] at hn
    · have hs := hi.saves
      cases hm : s.mutex with
      | save i pc => simp [hm, Mutex.isSave] at hs
      | _ => simp [hm] at hn
  have hr : s.saveRequests = [] := by
    by_contra hne
    simpa [hq, hd, hi.main, hi.session, hi.processing] using hw.saves hne
  refine ⟨?_, hr⟩
  by_contra hne
  simpa [hb, hr, hi.main, hi.session] using hw.builds hne

def resumeSaveRun : List Event := List.flatten
  [[.saveResumeDownload 0], List.replicate 3 (.main default),
    [.processPendingBuilds], List.replicate 12 (.main (⟨1, []⟩, ⟨2, []⟩)),
    [.processSaveRequest], List.replicate 10 .session,
    List.replicate 4 (.fileOp 0 false), [.cleanupLock 0], List.replicate 5 .cleanup,
    [.processFinishedSaves], List.replicate 4 .session,
    [.processPendingBuilds], List.replicate 2 (.main default)]

theorem resumeSaveRun_queues_empty :
    machine.Accepts (initial fun _ => none) resumeSaveRun ∧
      (machine.replay (initial fun _ => none) resumeSaveRun).pendingBuilds = [] ∧
      (machine.replay (initial fun _ => none) resumeSaveRun).saveRequests = [] := by
  have ha : machine.Accepts (initial fun _ => none) resumeSaveRun := by decide +kernel
  have hi : Idle (machine.replay (initial fun _ => none) resumeSaveRun) := by
    constructor <;> decide +kernel
  exact ⟨ha, idle_queues_empty ⟨_, ha.execution⟩ hi⟩

/-- While `m_mutex` is free, the counter of the queue is exact, and that of the saves in flight is
not too large. -/
theorem counters_when_free {files : Directory} {s : State}
    (h : Reachable machine.system (initial files) s) (hm : s.mutex = .free) :
    s.saveRequestCounter = s.saveRequests.length ∧
      s.processingSaveCounter ≤ s.processingSaves.length := by
  obtain ⟨hx, hc, -, -⟩ := reachable_invariant h
  have hmain : mainHoldsMutex s.main = false := by simpa [hm] using hx.main
  have hsession : sessionHoldsMutex s.session = false := by simpa [hm] using hx.session
  refine ⟨Nat.le_antisymm ?_ (hc.requests (storing_holdsMutex hmain)), ?_⟩
  · rcases hc.covered with hl | hp | hr
    · exact hl
    · cases hs : s.session <;> simp_all
    · cases hs : s.main <;> simp_all
  · simpa [hm] using hc.processing

theorem resumeSaveRun_counter :
    (machine.replay (initial fun _ => none) (resumeSaveRun.take 16)).saveRequestCounter = 1 := by
  have ha : machine.Accepts (initial fun _ => none) (resumeSaveRun.take 16) := by decide +kernel
  exact (counters_when_free ⟨_, ha.execution⟩ (by decide +kernel)).1

end SessionWakeup
