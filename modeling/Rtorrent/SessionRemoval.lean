import Rtorrent.SessionLatestBytes
import Rtorrent.SessionShutdown

/-! # Removal of a download from the session

`remove_download` takes the download out of both queues and waits until no save of it is in
flight. Only the main thread makes new requests, so none appears until it is asked for. -/
namespace SessionRemoval

open SessionDownloadStorer SessionWakeup SessionLatestBytes SessionShutdown TransitionSystems
open SessionManagerModel hiding State initial Event machine Enabled next

@[simp] def flushHoldsMutex : FlushPc → Bool
  | .queue _ | .store _ => true
  | _ => false

@[simp] def shutdownHoldsMutex : ShutdownPc → Bool
  | .check | .requests | .store _ | .insert _ | .saves => true
  | _ => false

structure Owners (x : State) : Prop where
  flushing : x.flush ≠ .none → x.manager.main = .idle
  closing : x.shutdown ≠ .none → x.manager.session = .idle
  main : mainHoldsMutex x.manager.main = true ∨ flushHoldsMutex x.flush = true →
    x.manager.mutex = .main
  session : sessionHoldsMutex x.manager.session = true ∨ shutdownHoldsMutex x.shutdown = true →
    x.manager.mutex = .session

theorem initial_owners (files : Directory) : Owners (initial files) := by
  constructor <;> simp [initial, SessionManagerModel.initial]

variable {s t : SessionManagerModel.State} {o : Prop} {pc : MainPc} {qc : SessionPc} {m : Mutex}

theorem mutex_main (hp : s.main = pc) (hs : MainStep s pc t)
    (hm : mainHoldsMutex s.main = true → s.mutex = .main) (ho : o → s.mutex = .session) :
    (mainHoldsMutex t.main = true → t.mutex = .main) ∧ (o → t.mutex = .session) := by
  rw [hp] at hm
  cases hs with
  | fullLock _ hf | removeLock _ hf | removeWait _ hf | buildsLock _ hf =>
    rw [hf] at ho
    exact ⟨fun _ => rfl, fun h => nomatch ho h⟩
  | unlockCallback | unlockReturn | removeBusy =>
    rw [hm rfl] at ho
    exact ⟨by simp, fun h => nomatch ho h⟩
  | builds _ k _ _ ht => cases ht <;> cases k <;> exact ⟨by simp_all [afterPendingBuilds], ho⟩
  | saves _ _ _ ht => cases ht <;> exact ⟨by simp, ho⟩
  | buildsStop rs =>
    refine ⟨?_, ho⟩
    cases rs <;> simp [afterBuildsLoop]
  | fullQueue r t ht => cases ht <;> exact ⟨fun _ => hm rfl, ho⟩
  | buildsQueue r rs t ht => cases ht <;> exact ⟨fun _ => hm rfl, ho⟩
  | _ => exact ⟨by simp_all, ho⟩

theorem mutex_session (hp : s.session = qc) (hs : SessionStep s qc t)
    (hm : sessionHoldsMutex s.session = true → s.mutex = .session) (ho : o → s.mutex = .main) :
    (sessionHoldsMutex t.session = true → t.mutex = .session) ∧ (o → t.mutex = .main) := by
  rw [hp] at hm
  cases hs with
  | savesLock hf | finishedLock hf =>
    rw [hf] at ho
    exact ⟨fun _ => rfl, fun h => nomatch ho h⟩
  | unlockBuilds | unlockReturn =>
    rw [hm rfl] at ho
    exact ⟨by simp, fun h => nomatch ho h⟩
  | builds _ _ _ ht | saves _ _ _ ht => cases ht <;> exact ⟨by simp_all, ho⟩
  | _ => exact ⟨by simp_all, ho⟩

theorem mainStep_session (hs : MainStep s pc t) : t.session = s.session := by
  cases hs with
  | builds _ _ _ _ ht | saves _ _ _ ht | fullQueue _ _ ht | buildsQueue _ _ _ ht =>
    cases ht <;> rfl
  | _ => rfl

theorem sessionStep_main (hs : SessionStep s qc t) : t.main = s.main := by
  cases hs with
  | builds _ _ _ ht | saves _ _ _ ht => cases ht <;> rfl
  | _ => rfl

variable {i : ℕ} {error : Bool}

theorem saveStep_main (hs : SaveStep s i error t) : t.main = s.main := by
  cases hs <;> rfl

theorem cleanupStep_main (hs : CleanupStep s m t) : t.main = s.main := by cases hs <;> rfl

variable {x y : State} {fc : FlushPc} {sc : ShutdownPc}

theorem shutdownStep_main (hs : ShutdownStep x sc y) :
    y.manager.main = x.manager.main ∧ y.flush = x.flush := by
  cases hs <;> exact ⟨rfl, rfl⟩

theorem Owners.main_step (h : Owners x) (hf : x.flush = .none)
    (hs : MainStep x.manager x.manager.main t) : Owners { x with manager := t } := by
  rcases h with ⟨-, hc, hm, hq⟩
  rw [← mainStep_session hs] at hc hq
  have ho := mutex_main rfl hs (fun h => hm (.inl h)) hq
  exact ⟨fun h => absurd hf h, hc, by simpa [hf] using ho.1, ho.2⟩

theorem Owners.session_step (h : Owners x) (hc : x.shutdown = .none)
    (hs : SessionStep x.manager x.manager.session t) : Owners { x with manager := t } := by
  rcases h with ⟨hf, -, hm, hq⟩
  rw [← sessionStep_main hs] at hf hm
  have ho := mutex_session rfl hs (fun h => hq (.inl h)) hm
  exact ⟨hf, fun h => absurd hc h, ho.2, by simpa [hc] using ho.1⟩

theorem Owners.congr (h : Owners x) (hx : t.mutex = x.manager.mutex)
    (ht : t.main = x.manager.main ∨ x.flush = .none ∧ mainHoldsMutex t.main = false)
    (hs : t.session = x.manager.session ∨
      x.shutdown = .none ∧ sessionHoldsMutex t.session = false) :
    Owners { x with manager := t } := by
  rcases h with ⟨hf, hc, hm, hq⟩
  rw [← hx] at hm hq
  constructor
  · intro hn
    rcases ht with ht | ht
    · exact ht.trans (hf hn)
    · exact absurd ht.1 hn
  · intro hn
    rcases hs with hs | hs
    · exact hs.trans (hc hn)
    · exact absurd hs.1 hn
  · rcases ht with ht | ht
    · simpa only [ht] using hm
    · simp only [ht, Bool.false_eq_true, flushHoldsMutex, or_self, false_implies]
  · rcases hs with hs | hs
    · simpa only [hs] using hq
    · simp only [hs, Bool.false_eq_true, shutdownHoldsMutex, or_self, false_implies]

theorem Owners.save_step (h : Owners x) (hs : SaveStep x.manager i error t) :
    Owners { x with manager := t } := by
  cases hs <;> exact h.congr rfl (.inl rfl) (.inl rfl)

theorem Owners.cleanup_step (h : Owners x) (hp : x.manager.mutex = m)
    (hs : CleanupStep x.manager m t) : Owners { x with manager := t } := by
  rcases h with ⟨hf, hc, hm, hq⟩
  rw [hp] at hm hq
  cases hs <;> exact ⟨hf, hc, (fun h => by cases hm h), fun h => by cases hq h⟩

theorem Owners.flush_step (h : Owners x) (hp : x.flush = fc) (hs : FlushStep x fc y) :
    Owners y := by
  rcases h with ⟨hi, hc, hm, hq⟩
  rw [hp] at hi hm
  cases hs with
  | clear | build => exact ⟨fun _ => hi nofun, hc, by simp [hi nofun], hq⟩
  | store => exact ⟨fun _ => hi nofun, hc, fun _ => hm (.inr rfl), hq⟩
  | stop rs => exact ⟨fun _ => hi nofun, hc, by cases rs <;> simp [hi nofun, afterFlushLoop], hq⟩
  | lock _ hl =>
    rw [hl] at hq
    exact ⟨fun _ => hi nofun, hc, fun _ => rfl, fun h => by cases hq h⟩
  | unlock =>
    rw [hm (.inr rfl)] at hq
    exact ⟨fun _ => hi nofun, hc, by simp [hi nofun], fun h => by cases hq h⟩
  | queue r rs t pc ht => cases ht <;> exact ⟨fun _ => rfl, hc, fun _ => hm (.inr rfl), hq⟩

theorem Owners.shutdown_step (h : Owners x) (hp : x.shutdown = sc) (hs : ShutdownStep x sc y) :
    Owners y := by
  rcases h with ⟨hf, hc, hm, hq⟩
  rw [hp] at hc hq
  cases hs with
  | lock hl | requestsWake hl | savesWake hl =>
    rw [hl] at hm
    exact ⟨hf, fun _ => hc nofun, (fun h => by cases hm h), fun _ => rfl⟩
  | refuse | finish | requestsWait | savesWait =>
    rw [hq (.inr rfl)] at hm
    exact ⟨hf, fun _ => hc nofun, (fun h => by cases hm h), by simp [hc nofun]⟩
  | _ => exact ⟨hf, fun _ => hc nofun, hm, fun _ => hq (.inr rfl)⟩

variable {e : Event}

theorem step_preserves_owners (h : Owners x) (hs : machine.system.Step x e y) :
    Owners y := by
  rcases hs with ⟨he, rfl⟩
  have he : Enabled x e := he
  cases e with
  | flush streams => exact h.flush_step rfl (flushNext_step he)
  | shutdown => exact h.shutdown_step rfl (shutdownNext_step he)
  | flushAllPendingBuilds =>
    rcases h with ⟨-, hc, hm, hq⟩
    exact ⟨fun _ => he.1, hc, by simp [machine, next, he.1], hq⟩
  | cleanup =>
    rcases h with ⟨hf, -, hm, hq⟩
    exact ⟨hf, fun _ => he.2.1, hm, by simp [machine, next, he.2.1]⟩
  | manager e =>
    rcases he with ⟨ha, he⟩
    cases e with
    | main streams => exact h.main_step ha.1 (mainNext_step he)
    | session => exact h.session_step ha (sessionNext_step he)
    | cleanup => exact h.cleanup_step rfl (cleanupNext_step he)
    | fileOp i error => exact h.save_step (fileOpNext_step he)
    | cleanupLock i =>
      rcases h with ⟨hf, hc, hm, hq⟩
      rw [he.2] at hm hq
      exact ⟨hf, hc, (fun h => by cases hm h), fun h => by cases hq h⟩
    | saveResumeDownload d =>
      by_cases hd : d ∈ x.manager.pendingBuilds
      · simpa [machine, next, SessionManagerModel.next, hd] using h
      · exact h.congr (by simp [SessionManagerModel.next, hd])
          (.inr ⟨ha.1, by simp [SessionManagerModel.next, hd]⟩)
          (.inl (by simp [SessionManagerModel.next, hd]))
    | saveFullDownload | removeDownload | processPendingBuilds =>
      exact h.congr rfl (.inr ⟨ha.1, rfl⟩) (.inl rfl)
    | processSaveRequest | processFinishedSaves =>
      exact h.congr rfl (.inl rfl) (.inr ⟨ha, rfl⟩)

theorem reachable_owners {files : Directory}
    (h : Reachable machine.system (initial files) x) :
    Owners x :=
  h.invariant (initial_owners files) fun _ _ _ => step_preserves_owners

/-- The requests that the main thread has built and not queued yet. -/
@[simp] def mainRequests : MainPc → List SaveRequest
  | .fullLock r | .fullQueue r => [r]
  | .buildsLoop rs | .buildsLock rs | .buildsQueue rs | .buildsStore rs => rs
  | _ => []

@[simp] def flushRequests : FlushPc → List SaveRequest
  | .loop rs | .lock rs | .queue rs | .store rs => rs
  | _ => []

/-- The request that `flush_all_and_wait_unsafe` has taken from the queue. -/
@[simp] def shutdownRequest : ShutdownPc → Option SaveRequest
  | .store r | .insert r => some r
  | _ => none

/-- No request of the download is pending, built, queued or taken from the queue. -/
structure Cancelled (d : Download) (s : SessionManagerModel.State) : Prop where
  pending : d ∉ s.pendingBuilds
  built : ∀ r ∈ mainRequests s.main, r.download ≠ d
  queued : ∀ r ∈ s.saveRequests, r.download ≠ d
  taken : ∀ r, heldRequest s.session = some r → r.download ≠ d

def NoSave (d : Download) (s : SessionManagerModel.State) : Prop :=
  ∀ p ∈ s.processingSaves, p.request.download ≠ d

/-- There is no pending build, no request and no save of the download. -/
structure Absent (d : Download) (x : State) : Prop where
  cancelled : Cancelled d x.manager
  flushed : ∀ r ∈ flushRequests x.flush, r.download ≠ d
  taken : ∀ r, shutdownRequest x.shutdown = some r → r.download ≠ d
  processing : NoSave d x.manager

/-- Every file of the download after some steps was there before them, with the same bytes. -/
def NoFileWritten (d : Download) (before after : Directory) : Prop :=
  ∀ file isNew b, after ⟨buildPath d, file, isNew⟩ = some b →
    before ⟨buildPath d, file, isNew⟩ = some b

/-- The download has no session file, complete or renamed into place. -/
def Unlinked (d : Download) (files : Directory) : Prop :=
  ∀ file, files ⟨buildPath d, file, false⟩ = none

theorem NoFileWritten.refl (d : Download) (files : Directory) : NoFileWritten d files files :=
  fun _ _ _ h => h

variable {d : Download} {fs gs : Directory}

theorem NoFileWritten.trans {hs : Directory} (h : NoFileWritten d fs gs)
    (k : NoFileWritten d gs hs) : NoFileWritten d fs hs :=
  fun file isNew b hb => h file isNew b (k file isNew b hb)

theorem NoFileWritten.unlinked (h : NoFileWritten d fs gs)
    (hu : Unlinked d fs) : Unlinked d gs := by
  intro file
  cases hg : gs ⟨buildPath d, file, false⟩ with
  | none => rfl
  | some b =>
    have hf := h file false b hg
    rw [hu file] at hf
    cases hf

theorem SameFiles.noFileWritten (h : SameFiles (buildPath d) gs fs) : NoFileWritten d fs gs := by
  intro file isNew b hb
  rw [← h file isNew, hb]

theorem unlinkFiles_noFileWritten (d d' : Download) (files : Directory) :
    NoFileWritten d files (unlinkFiles d' files) := by
  intro file isNew b hb
  by_cases hd : buildPath d = buildPath d' ∧ isNew = false
  · simp [unlinkFiles, hd] at hb
  · simpa [unlinkFiles, hd] using hb

theorem unlinkFiles_unlinked (d : Download) (files : Directory) :
    Unlinked d (unlinkFiles d files) := by
  intro file
  simp [unlinkFiles]

theorem buildPath_ne {d' : Download} (h : d' ≠ d) : buildPath d ≠ buildPath d' := by
  intro he
  exact h (congrArg Path.infoHash he).symm

variable {r : SaveRequest} {merged pushed : MainPc}

theorem enqueue_queued (hs : EnqueueStep s r merged pushed t)
    (hq : ∀ q ∈ s.saveRequests, q.download ≠ d) (hr : r.download ≠ d) :
    ∀ q ∈ t.saveRequests, q.download ≠ d := by
  cases hs with
  | merge before q after he hd =>
    have hn : (mergeRequest q r).download ≠ d := by
      rw [mergeRequest_download, hd]
      exact hr
    intro p hp
    rcases List.mem_append.mp hp with hp | hp
    · exact hq p (by simp [he, hp])
    rcases List.mem_cons.mp hp with rfl | hp
    · exact hn
    · exact hq p (by simp [he, hp])
  | push =>
    intro p hp
    rcases List.mem_append.mp hp with hp | hp
    · exact hq p hp
    · rw [List.mem_singleton.mp hp]
      exact hr

theorem Cancelled.enqueue (h : Cancelled d s) (hs : EnqueueStep s r merged pushed t)
    (hr : r.download ≠ d) (hm : ∀ q ∈ mainRequests merged, q.download ≠ d)
    (hp : ∀ q ∈ mainRequests pushed, q.download ≠ d) : Cancelled d t := by
  have hq := enqueue_queued hs h.queued hr
  cases hs with
  | merge => exact ⟨h.pending, hm, hq, h.taken⟩
  | push => exact ⟨h.pending, hp, hq, h.taken⟩

theorem built_append {rs : List SaveRequest} {d' : Download} {ds : List Download}
    (h : ∀ q ∈ rs, q.download ≠ d) (hr : r.download = d') (hd : d ∉ d' :: ds) :
    ∀ q ∈ rs ++ [r], q.download ≠ d := by
  intro q hq
  rcases List.mem_append.mp hq with hq | hq
  · exact h q hq
  · rw [List.mem_singleton.mp hq, hr]
    exact fun he => hd (by simp [he])

theorem Cancelled.main (h : Cancelled d s) (hm : s.main = pc) (hs : MainStep s pc t) :
    Cancelled d t := by
  have ⟨hp, hb, hq, ht⟩ := h
  rw [hm] at hb
  cases hs with
  | fullQueue r t he => exact h.enqueue he (hb r (by simp)) (by simp) (by simp)
  | buildsQueue r rs t he =>
    have hrs : ∀ q ∈ rs, q.download ≠ d := fun q hq => hb q (List.mem_cons_of_mem r hq)
    exact h.enqueue he (hb r (by simp)) hrs hrs
  | builds _ k _ _ he => cases he <;> cases k <;> exact ⟨hp, by simp [afterPendingBuilds], hq, ht⟩
  | saves _ _ _ he => cases he <;> exact ⟨hp, by simp, hq, ht⟩
  | buildsStop rs =>
    refine ⟨hp, ?_, hq, ht⟩
    cases rs with
    | nil => simp [afterBuildsLoop]
    | cons r rs => exact hb
  | buildsBuild rs d' ds r hd hr =>
    rw [hd] at hp
    exact ⟨fun hi => hp (List.mem_cons_of_mem d' hi), built_append hb hr hp, hq, ht⟩
  | removeFound =>
    exact ⟨fun hi => hp (List.mem_of_mem_filter hi), by simp,
      fun r hr => hq r (List.mem_of_mem_filter hr), ht⟩
  | removeNone => exact ⟨fun hi => hp (List.mem_of_mem_filter hi), by simp, hq, ht⟩
  | fullLock | buildsLock | buildsStore => exact ⟨hp, hb, hq, ht⟩
  | _ => exact ⟨hp, by simp, hq, ht⟩

theorem Cancelled.session (h : Cancelled d s) (hm : s.session = qc) (hs : SessionStep s qc t) :
    Cancelled d t := by
  have ⟨hp, hb, hq, ht⟩ := h
  rw [hm] at ht
  cases hs with
  | savesPop r rs he =>
    rw [he] at hq
    refine ⟨hp, hb, fun q hr => hq q (List.mem_cons_of_mem r hr), ?_⟩
    rintro _ ⟨⟩
    exact hq r (by simp)
  | savesStore => exact ⟨hp, hb, hq, ht⟩
  | builds _ _ _ he | saves _ _ _ he => cases he <;> exact ⟨hp, hb, hq, by simp [heldRequest]⟩
  | _ => exact ⟨hp, hb, hq, by simp [heldRequest]⟩

theorem noSave_insert {saves : List ProcessingSave} {p : ProcessingSave}
    (h : ∀ p ∈ saves, p.request.download ≠ d) (hp : p.request.download ≠ d) :
    ∀ q ∈ saves ++ [p], q.request.download ≠ d := by
  intro q hq
  rcases List.mem_append.mp hq with hq | hq
  · exact h q hq
  · rw [List.mem_singleton.mp hq]
    exact hp

theorem noSave_session (h : NoSave d s) (hc : Cancelled d s) (hm : s.session = qc)
    (hs : SessionStep s qc t) : NoSave d t ∧ NoFileWritten d s.files t.files := by
  cases hs with
  | savesInsert r =>
    exact ⟨noSave_insert h (hc.taken r (by simp [hm, heldRequest])), .refl d _⟩
  | builds _ _ _ ht | saves _ _ _ ht => cases ht <;> exact ⟨h, .refl d _⟩
  | _ => exact ⟨h, .refl d _⟩

theorem noSave_set {saves : List ProcessingSave} {p q : ProcessingSave}
    (h : ∀ p ∈ saves, p.request.download ≠ d) (hp : saves[i]? = some p)
    (hq : q.request = p.request) : ∀ r ∈ saves.set i q, r.request.download ≠ d := by
  intro r hr
  rcases List.mem_or_eq_of_mem_set hr with hr | rfl
  · exact h r hr
  · rw [hq]
    exact h p (List.mem_of_getElem? hp)

theorem noSave_save (h : NoSave d s) (hs : SaveStep s i error t) :
    NoSave d t ∧ NoFileWritten d s.files t.files := by
  cases hs with
  | run p o rest fs hp ho hf =>
    have hn : p.request.download ≠ d := h p (List.mem_of_getElem? hp)
    exact ⟨noSave_set h hp rfl, SameFiles.noFileWritten (FileOp.run_frame hf (buildPath_ne hn))⟩
  | fail p o rest hp => exact ⟨noSave_set h hp rfl, .refl d _⟩

theorem Cancelled.save (h : Cancelled d s) (hs : SaveStep s i error t) : Cancelled d t := by
  cases hs <;> exact ⟨h.pending, h.built, h.queued, h.taken⟩

theorem Cancelled.cleanup (h : Cancelled d s) (hs : CleanupStep s m t) : Cancelled d t := by
  cases hs <;> exact ⟨h.pending, h.built, h.queued, h.taken⟩

theorem noSave_cleanup (h : NoSave d s) (hs : CleanupStep s m t) :
    NoSave d t ∧ NoFileWritten d s.files t.files := by
  cases hs with
  | erase i => exact ⟨fun p hp => h p (List.mem_of_mem_eraseIdx hp), .refl d _⟩
  | _ => exact ⟨h, .refl d _⟩

theorem noSave_main (h : NoSave d s) (hs : MainStep s pc t) : NoSave d t := by
  cases hs with
  | builds _ _ _ _ ht | saves _ _ _ ht | fullQueue _ _ ht | buildsQueue _ _ _ ht =>
    cases ht <;> exact h
  | _ => exact h

theorem mainStep_files (d : Download) (hs : MainStep s pc t) :
    NoFileWritten d s.files t.files := by
  cases hs with
  | removeDone d' => exact unlinkFiles_noFileWritten d d' s.files
  | builds _ _ _ _ ht | saves _ _ _ ht | fullQueue _ _ ht | buildsQueue _ _ _ ht =>
    cases ht <;> exact .refl d _
  | _ => exact .refl d _

theorem Absent.flush (h : Absent d x) (hm : x.flush = fc) (hs : FlushStep x fc y) :
    Absent d y ∧ NoFileWritten d x.manager.files y.manager.files := by
  have ⟨hc, hf, ht, hn⟩ := h
  have ⟨hp, hb, hq, hk⟩ := hc
  rw [hm] at hf
  cases hs with
  | clear | unlock => exact ⟨⟨⟨hp, hb, hq, hk⟩, by simp, ht, hn⟩, .refl d _⟩
  | stop rs =>
    refine ⟨⟨hc, ?_, ht, hn⟩, .refl d _⟩
    cases rs with
    | nil => simp [afterFlushLoop]
    | cons r rs => exact hf
  | build rs d' ds r hd hr =>
    rw [hd] at hp
    exact ⟨⟨⟨fun hi => hp (List.mem_cons_of_mem d' hi), hb, hq, hk⟩, built_append hf hr hp, ht, hn⟩,
      .refl d _⟩
  | lock | store => exact ⟨⟨⟨hp, hb, hq, hk⟩, hf, ht, hn⟩, .refl d _⟩
  | queue r rs t pc he hpc =>
    have hrs : ∀ q ∈ flushRequests pc, q.download ≠ d := by
      rcases hpc with rfl | rfl <;> exact fun q hq => hf q (List.mem_cons_of_mem r hq)
    have hct : Cancelled d t := hc.enqueue he (hf r (by simp)) (by simp) (by simp)
    cases he <;> exact ⟨⟨hct, hrs, ht, hn⟩, .refl d _⟩

theorem Absent.shutdown (h : Absent d x) (hm : x.shutdown = sc) (hs : ShutdownStep x sc y) :
    Absent d y ∧ NoFileWritten d x.manager.files y.manager.files := by
  have ⟨⟨hp, hb, hq, hk⟩, hf, ht, hn⟩ := h
  rw [hm] at ht
  cases hs with
  | pop r rs he =>
    rw [he] at hq
    refine ⟨⟨⟨hp, hb, fun q hr => hq q (List.mem_cons_of_mem r hr), hk⟩, hf, ?_, hn⟩, .refl d _⟩
    rintro _ ⟨⟩
    exact hq r (by simp)
  | store => exact ⟨⟨⟨hp, hb, hq, hk⟩, hf, ht, hn⟩, .refl d _⟩
  | insert r =>
    exact ⟨⟨⟨hp, hb, hq, hk⟩, hf, by simp, noSave_insert hn (ht r rfl)⟩, .refl d _⟩
  | _ => exact ⟨⟨⟨hp, hb, hq, hk⟩, hf, by simp, hn⟩, .refl d _⟩

/-- The two functions that make requests for a download. -/
def Saves (d : Download) : Event → Prop
  | .manager (.saveResumeDownload d') | .manager (.saveFullDownload d' _ _ _) => d' = d
  | _ => False

theorem Absent.enter {e : SessionManagerModel.Event}
    (h : Absent d x) (hs : starts e = true) (he : ¬Saves d (.manager e)) :
    Absent d { x with manager := SessionManagerModel.next x.manager e } ∧
      NoFileWritten d x.manager.files (SessionManagerModel.next x.manager e).files := by
  have ⟨⟨hp, hb, hq, hk⟩, hf, ht, hn⟩ := h
  cases e with
  | saveResumeDownload d' =>
    have hd : d' ≠ d := he
    by_cases hi : d' ∈ x.manager.pendingBuilds
    · simpa only [SessionManagerModel.next, hi, ↓reduceIte] using ⟨h, NoFileWritten.refl d _⟩
    · simp only [SessionManagerModel.next, hi, ↓reduceIte]
      refine ⟨⟨⟨?_, by simp, hq, hk⟩, hf, ht, hn⟩, .refl d _⟩
      simpa using ⟨hp, hd.symm⟩
  | saveFullDownload d' =>
    have hd : d' ≠ d := he
    exact ⟨⟨⟨hp, by simpa [SessionManagerModel.next] using hd, hq, hk⟩, hf, ht, hn⟩, .refl d _⟩
  | removeDownload | processPendingBuilds =>
    exact ⟨⟨⟨hp, by simp [SessionManagerModel.next], hq, hk⟩, hf, ht, hn⟩, .refl d _⟩
  | processSaveRequest | processFinishedSaves =>
    exact ⟨⟨⟨hp, hb, hq, by simp [SessionManagerModel.next, heldRequest]⟩, hf, ht, hn⟩, .refl d _⟩
  | cleanupLock => exact ⟨⟨⟨hp, hb, hq, hk⟩, hf, ht, hn⟩, .refl d _⟩
  | main | session | fileOp | cleanup => cases hs

theorem Absent.step (h : Absent d x) (hs : machine.system.Step x e y)
    (hd : ¬Saves d e) :
    Absent d y ∧ NoFileWritten d x.manager.files y.manager.files := by
  rcases hs with ⟨he, rfl⟩
  have he : Enabled x e := he
  have ⟨hc, hf, ht, hn⟩ := h
  cases e with
  | flush streams => exact h.flush rfl (flushNext_step he)
  | shutdown => exact h.shutdown rfl (shutdownNext_step he)
  | flushAllPendingBuilds =>
    exact ⟨⟨hc, by simp [machine, next], ht, hn⟩, .refl d _⟩
  | cleanup =>
    exact ⟨⟨hc, hf, by simp [machine, next], hn⟩, .refl d _⟩
  | manager e =>
    cases e with
    | main streams =>
      have hs := mainNext_step he.2
      exact ⟨⟨hc.main rfl hs, hf, ht, noSave_main hn hs⟩, mainStep_files d hs⟩
    | session =>
      have hs := sessionNext_step he.2
      have hk := noSave_session hn hc rfl hs
      exact ⟨⟨hc.session rfl hs, hf, ht, hk.1⟩, hk.2⟩
    | fileOp i error =>
      have hs := fileOpNext_step he.2
      have hk := noSave_save hn hs
      exact ⟨⟨hc.save hs, hf, ht, hk.1⟩, hk.2⟩
    | cleanup =>
      have hs := cleanupNext_step he.2
      have hk := noSave_cleanup hn hs
      exact ⟨⟨hc.cleanup hs, hf, ht, hk.1⟩, hk.2⟩
    | _ => exact h.enter rfl hd

variable {es : List Event}

theorem Absent.execution (h : Absent d x) (hr : Execution machine.system x es y)
    (hd : ∀ e ∈ es, ¬Saves d e) :
    Absent d y ∧ NoFileWritten d x.manager.files y.manager.files := by
  induction hr with
  | nil => exact ⟨h, .refl d _⟩
  | cons hs _ ih =>
    have hn := h.step hs (hd _ (List.mem_cons_self ..))
    have hy := ih hn.1 fun e he => hd e (List.mem_cons_of_mem _ he)
    exact ⟨hy.1, hn.2.trans hy.2⟩

def scanning (d : Download) : MainPc → Prop
  | .removeStore d' | .removeScan d' | .removeWait d' | .pendingBuilds _ (some d') => d' = d
  | _ => False

inductive Removing (d : Download) (x : State) : Prop where
  | entered (hm : x.manager.main = .removeLock d ∨ x.manager.main = .removeQueues d)
      (hs : x.shutdown = .none)
  | cancelled (hm : scanning d x.manager.main) (hs : x.shutdown = .none)
      (hc : Cancelled d x.manager)
  | removed (hm : x.manager.main = .unlock false ∨ x.manager.main = .idle) (ha : Absent d x)
      (hu : Unlinked d x.manager.files)

def callsMain : Event → Bool
  | .manager (.saveResumeDownload _) | .manager (.saveFullDownload _ _ _ _)
  | .manager (.removeDownload _) | .manager .processPendingBuilds | .flushAllPendingBuilds => true
  | _ => false

theorem not_saves_of_callsMain (h : callsMain e = false) (d : Download) : ¬Saves d e := by
  cases e with
  | manager e =>
    cases e with
    | saveResumeDownload | saveFullDownload => cases h
    | _ => exact id
  | _ => exact id

theorem Owners.nothing_taken (h : Owners x)
    (hm : mainHoldsMutex x.manager.main = true) : heldRequest x.manager.session = none := by
  have ho := h.main (.inl hm)
  cases hs : x.manager.session with
  | savesStore r | savesInsert r =>
    have hn := h.session (.inl (by simp [hs]))
    rw [ho] at hn
    cases hn
  | _ => rfl

theorem Removing.main (h : Removing d x) (ho : Owners x) (hf : x.flush = .none)
    (hp : x.manager.main = pc) (hs : MainStep x.manager pc t) :
    Removing d { x with manager := t } := by
  cases h with
  | entered hm hd =>
    rw [hp] at hm
    rcases hm with rfl | rfl
    · cases hs with
      | removeLock => exact .entered (.inr rfl) hd
    · have ht := ho.nothing_taken (by simp [hp])
      cases hs with
      | removeFound => exact .cancelled rfl hd ⟨by simp, by simp, by simp, by simp [ht]⟩
      | removeNone _ hq => exact .cancelled rfl hd ⟨by simp, by simp, hq, by simp [ht]⟩
  | cancelled hm hd hc =>
    have hct := hc.main hp hs
    rw [hp] at hm
    cases hs with
    | builds _ k _ _ ht =>
      cases k with
      | none => cases hm
      | some d' => cases ht <;> exact .cancelled hm hd hct
    | removeStore | removeBusy | removeWait => exact .cancelled hm hd hct
    | removeDone d' hn =>
      cases hm
      exact .removed (.inl rfl) ⟨hct, by simp [hf], by simp [hd], hn⟩ (unlinkFiles_unlinked d _)
    | _ => cases hm
  | removed hm ha hu =>
    rw [hp] at hm
    rcases hm with rfl | rfl
    · cases hs with
      | unlockReturn =>
        rcases ha with ⟨⟨hp, hb, hq, hk⟩, hl, ht, hn⟩
        exact .removed (.inr rfl) ⟨⟨hp, by simp, hq, hk⟩, hl, ht, hn⟩ hu
    · cases hs

theorem Removing.other (h : Removing d x) (hm : t.main = x.manager.main)
    (hc : Cancelled d x.manager → Cancelled d t)
    (ha : Absent d x → Absent d { x with manager := t } ∧
      NoFileWritten d x.manager.files t.files) :
    Removing d { x with manager := t } := by
  cases h with
  | entered hp hs => exact .entered (by simpa only [hm] using hp) hs
  | cancelled hp hs hk => exact .cancelled (by simpa only [hm] using hp) hs (hc hk)
  | removed hp hk hu =>
    have hn := ha hk
    exact .removed (by simpa only [hm] using hp) hn.1 (hn.2.unlinked hu)

theorem Removing.step (h : Removing d x) (ho : Owners x) (hf : x.flush = .none)
    (hn : callsMain e = false)
    (hs : machine.system.Step x e y) : Removing d y ∧ y.flush = .none := by
  have ha : Absent d x → _ := fun ha => ha.step hs (not_saves_of_callsMain hn d)
  rcases hs with ⟨he, rfl⟩
  have he : Enabled x e := he
  cases e with
  | flushAllPendingBuilds => cases hn
  | flush streams => exact absurd hf he.1
  | cleanup =>
    have hi := he.1.1
    cases h with
    | entered hm => simp [hi] at hm
    | cancelled hm => simp [hi, scanning] at hm
    | removed hm hk hu => exact ⟨.removed hm (ha hk).1 hu, hf⟩
  | shutdown =>
    have hs := shutdownNext_step he
    cases h with
    | entered hm hd | cancelled hm hd =>
      have hr := he.1
      rw [hd] at hr
      cases hr
    | removed hm hk hu =>
      have hn := ha hk
      have hk := shutdownStep_main hs
      exact ⟨.removed (hk.1 ▸ hm) hn.1 (hn.2.unlinked hu), hk.2.trans hf⟩
  | manager e =>
    refine ⟨?_, hf⟩
    cases e with
    | main streams => exact h.main ho hf rfl (mainNext_step he.2)
    | session =>
      have hs := sessionNext_step he.2
      exact h.other (sessionStep_main hs) (fun hc => hc.session rfl hs) ha
    | fileOp i error =>
      have hs := fileOpNext_step he.2
      exact h.other (saveStep_main hs) (fun hc => hc.save hs) ha
    | cleanup =>
      have hs := cleanupNext_step he.2
      exact h.other (cleanupStep_main hs) (fun hc => hc.cleanup hs) ha
    | processSaveRequest | processFinishedSaves =>
      exact h.other rfl (fun hc => ⟨hc.pending, hc.built, hc.queued, nofun⟩) ha
    | cleanupLock i => exact h.other rfl (fun hc => ⟨hc.pending, hc.built, hc.queued, hc.taken⟩) ha
    | _ => cases hn

theorem Removing.execution (h : Removing d x) (ho : Owners x) (hf : x.flush = .none)
    (hr : Execution machine.system x es y)
    (hn : ∀ e ∈ es, callsMain e = false) : Removing d y := by
  induction hr with
  | nil => exact h
  | cons hs _ ih =>
    have hk := h.step ho hf (hn _ (List.mem_cons_self ..)) hs
    exact ih hk.1 (step_preserves_owners ho hs) hk.2 fun e he => hn e (List.mem_cons_of_mem _ he)

/-- When `remove_download` returns, nothing of the download is left. This stays so, and no file of
it is written, until one of the save functions is called for it. -/
theorem removed_download_absent {files : Directory} {x y z : State}
    {es fs : List Event} {d : Download}
    (hx : Reachable machine.system (initial files) x)
    (hr : Execution machine.system x (.manager (.removeDownload d) :: es) y)
    (hn : ∀ e ∈ es, callsMain e = false) (hy : y.manager.main = .idle)
    (hz : Execution machine.system y fs z) (hs : ∀ e ∈ fs, ¬Saves d e) :
    Absent d z ∧ Unlinked d z.manager.files ∧
      NoFileWritten d y.manager.files z.manager.files := by
  cases hr with
  | cons hc hr =>
    have ho := step_preserves_owners (reachable_owners hx) hc
    rcases hc with ⟨he, rfl⟩
    have he : Enabled x (.manager (.removeDownload d)) := he
    have hb : Removing d (machine.next x (.manager (.removeDownload d))) :=
      .entered (.inl rfl) he.1.2
    cases hb.execution ho he.1.1 hr hn with
    | entered hm => simp [hy] at hm
    | cancelled hm => simp [hy, scanning] at hm
    | removed _ ha hu =>
      have hw := ha.execution hz hs
      exact ⟨hw.1, hw.2.unlinked hu, hw.2⟩

def startedRun : List Event :=
  (fullSave ⟨1, []⟩ ⟨2, []⟩ ⟨3, []⟩ ++ Event.processSaveRequest :: List.replicate 10 .session).map
    .manager

/-- A save of the download is in flight, and `remove_download` waits for its end. -/
def removalRun : List Event := List.flatten
  [List.replicate 3 (.manager (.main default)), List.replicate 6 (.manager (.fileOp 0 false)),
    [.manager (.cleanupLock 0)], List.replicate 5 (.manager .cleanup),
    List.replicate 3 (.manager (.main default))]

def shutdownRun : List Event := List.flatten
  [[.flushAllPendingBuilds], List.replicate 2 (.flush default), [.cleanup],
    List.replicate 4 .shutdown]

def started : State :=
  machine.replay (initial fun _ => none) startedRun

def returned : State :=
  machine.replay started (.manager (.removeDownload 0) :: removalRun)

def stopped : State := machine.replay returned shutdownRun

theorem stopped_absent :
    stopped.shutdown = .done ∧ Absent 0 stopped ∧ Unlinked 0 stopped.manager.files := by
  have hx : machine.Accepts (initial fun _ => none) startedRun := by
    decide +kernel
  have hy : machine.Accepts started
      (.manager (.removeDownload 0) :: removalRun) := by decide +kernel
  have hz : machine.Accepts returned shutdownRun := by decide +kernel
  have hi : returned.manager.main = .idle := by decide +kernel
  have hk := removed_download_absent (y := returned) (z := stopped) ⟨_, hx.execution⟩ hy.execution
    (by decide) hi hz.execution (by simp [shutdownRun, Saves])
  exact ⟨by decide +kernel, hk.1, hk.2.1⟩

end SessionRemoval
