import Rtorrent.SessionDownloadStorer
import Rtorrent.TransitionSystems

/-! # The threads of an active session manager

The main thread, the session thread and one thread for each running save. A step is one
access that another thread can see: taking or releasing `m_mutex`, an access to an atomic,
queueing a callback, a file operation. What is done under a lock goes with such a step.
Only the main thread locks `m_pending_builds_mutex`. -/
namespace SessionManagerModel

open SessionDownloadStorer TransitionSystems

def maxConcurrentRequests : ℕ := 16
def maxConcurrentProcessing : ℕ := 16

inductive PendingBuildsPc where
  | load | exchange | schedule
  deriving DecidableEq, Repr

inductive SaveRequestPc where
  | loadRequests | loadProcessing | exchange | schedule
  deriving DecidableEq, Repr

/-- `unlock callback` releases `m_mutex` and then calls `callback_save_request` or returns.
`pendingBuilds pc next` is `callback_pending_builds`, called by `remove_completely_unsafe` for a
download or at the end of `save_resume_download`. -/
inductive MainPc where
  | idle
  | pendingBuilds (pc : PendingBuildsPc) (next : Option Download)
  | saveRequest (pc : SaveRequestPc)
  | fullLock (r : SaveRequest)
  | fullQueue (r : SaveRequest)
  | fullStore
  | unlock (callback : Bool)
  | removeLock (d : Download)
  | removeQueues (d : Download)
  | removeStore (d : Download)
  | removeScan (d : Download)
  | removeWait (d : Download)
  | buildsClear
  | buildsLoop (requests : List SaveRequest)
  | buildsLock (requests : List SaveRequest)
  | buildsQueue (requests : List SaveRequest)
  | buildsStore (requests : List SaveRequest)
  deriving DecidableEq, Repr

/-- `unlock builds` releases `m_mutex` and then calls `callback_pending_builds` or returns. -/
inductive SessionPc where
  | idle
  | savesLock
  | savesClear
  | savesLoop
  | savesStore (r : SaveRequest)
  | savesInsert (r : SaveRequest)
  | unlock (builds : Bool)
  | pendingBuilds (pc : PendingBuildsPc)
  | finishedLock
  | finishedClear
  | saveRequest (pc : SaveRequestPc)
  deriving DecidableEq, Repr

/-- The `cleanup_fn` of a save thread, which runs under `m_mutex`. -/
inductive CleanupPc where
  | exchange | schedule | erase | count | unlock
  deriving DecidableEq, Repr

inductive Mutex where
  | free
  | main
  | session
  | save (i : ℕ) (pc : CleanupPc)
  deriving DecidableEq, Repr

/-- An entry of `m_processing_saves` with the file operations its thread still has to do. -/
structure ProcessingSave where
  request : SaveRequest
  ops : List FileOp
  failed : Bool
  deriving DecidableEq, Repr

/-- A request that enters the queue. `keptTorrent` says that it was merged into a queued request
that already had a torrent stream. -/
structure Queued where
  request : SaveRequest
  keptTorrent : Bool
  deriving DecidableEq, Repr

structure State where
  pendingBuilds : List Download
  saveRequests : List SaveRequest
  saveRequestCounter : ℕ
  processingSaves : List ProcessingSave
  processingSaveCounter : ℕ
  finishedSaves : List ProcessingSave
  scheduledPendingBuilds : Bool
  scheduledSaveRequest : Bool
  scheduledFinishedSaves : Bool
  queuedPendingBuilds : ℕ
  queuedSaveRequest : ℕ
  queuedFinishedSaves : ℕ
  mutex : Mutex
  main : MainPc
  session : SessionPc
  files : Directory
  log : List Queued

def initial (files : Directory) : State :=
  { pendingBuilds := [], saveRequests := [], saveRequestCounter := 0
    processingSaves := [], processingSaveCounter := 0, finishedSaves := []
    scheduledPendingBuilds := false, scheduledSaveRequest := false
    scheduledFinishedSaves := false
    queuedPendingBuilds := 0, queuedSaveRequest := 0, queuedFinishedSaves := 0
    mutex := .free, main := .idle, session := .idle, files := files, log := [] }

/-- An existing torrent stream is kept; otherwise every stream is replaced. -/
def mergeRequest (old new : SaveRequest) : SaveRequest :=
  if old.torrentStream.isSome then
    { old with rtorrentStream := new.rtorrentStream, libtorrentStream := new.libtorrentStream }
  else
    { old with
      torrentStream := new.torrentStream
      rtorrentStream := new.rtorrentStream
      libtorrentStream := new.libtorrentStream }

theorem mergeRequest_download (q r : SaveRequest) : (mergeRequest q r).download = q.download := by
  rw [mergeRequest]
  split <;> rfl

/-- `none` when no queued request is for the same download. -/
def replaceSaveRequestUnsafe :
    List SaveRequest → SaveRequest → Except String (Option (List SaveRequest))
  | [], _ => .ok none
  | q :: qs, r =>
    if q.download = r.download then
      if q.path ≠ r.path then
        .error "SessionManager::replace_save_request_unsafe() path mismatch on replace"
      else .ok (some (mergeRequest q r :: qs))
    else (replaceSaveRequestUnsafe qs r).map (Option.map (q :: ·))

def keepsTorrent (queue : List SaveRequest) (r : SaveRequest) : Bool :=
  (queue.find? (fun q => q.download = r.download)).any (fun q => q.torrentStream.isSome)

/-- One step of a callback: the state after it and where to go on, or `none` when it returns. -/
def callbackPendingBuilds (s : State) : PendingBuildsPc → State × Option PendingBuildsPc
  | .load => (s, if maxConcurrentRequests ≤ s.saveRequestCounter then none else some .exchange)
  | .exchange =>
    ({ s with scheduledPendingBuilds := true },
      if s.scheduledPendingBuilds then none else some .schedule)
  | .schedule => ({ s with queuedPendingBuilds := s.queuedPendingBuilds + 1 }, none)

def callbackSaveRequest (s : State) : SaveRequestPc → State × Option SaveRequestPc
  | .loadRequests => (s, if s.saveRequestCounter = 0 then none else some .loadProcessing)
  | .loadProcessing =>
    (s, if maxConcurrentProcessing ≤ s.processingSaveCounter then none else some .exchange)
  | .exchange =>
    ({ s with scheduledSaveRequest := true },
      if s.scheduledSaveRequest then none else some .schedule)
  | .schedule => ({ s with queuedSaveRequest := s.queuedSaveRequest + 1 }, none)

def afterPendingBuilds : Option Download → MainPc
  | none => .idle
  | some d => .removeScan d

def afterBuildsLoop : List SaveRequest → MainPc
  | [] => .idle
  | r :: rs => .buildsLock (r :: rs)

/-- Put a request into the queue, merged or as a new entry. -/
def enqueueRequest (s : State) (r : SaveRequest) (merged pushed : MainPc) : State :=
  match replaceSaveRequestUnsafe s.saveRequests r with
  | .ok (some qs) =>
    { s with
      saveRequests := qs, main := merged
      log := s.log ++ [⟨r, keepsTorrent s.saveRequests r⟩] }
  | .ok none =>
    { s with
      saveRequests := s.saveRequests ++ [r], main := pushed
      log := s.log ++ [⟨r, false⟩] }
  | .error _ => { s with main := .unlock false }

/-- `streams` are the rtorrent and libtorrent streams of a build in this step. -/
def mainNext (s : State) (streams : Stream × Stream) : State :=
  match s.main with
  | .idle => s
  | .pendingBuilds pc next =>
    let r := callbackPendingBuilds s pc
    { r.1 with main := r.2.elim (afterPendingBuilds next) (.pendingBuilds · next) }
  | .saveRequest pc =>
    let r := callbackSaveRequest s pc
    { r.1 with main := r.2.elim .idle .saveRequest }
  | .fullLock r => { s with mutex := .main, main := .fullQueue r }
  | .fullQueue r => enqueueRequest s r (.unlock false) .fullStore
  | .fullStore => { s with saveRequestCounter := s.saveRequests.length, main := .unlock true }
  | .unlock callback =>
    { s with mutex := .free, main := if callback then .saveRequest .loadRequests else .idle }
  | .removeLock d => { s with mutex := .main, main := .removeQueues d }
  | .removeQueues d =>
    { s with
      pendingBuilds := s.pendingBuilds.filter (· ≠ d)
      saveRequests := s.saveRequests.filter (·.download ≠ d)
      main := if s.saveRequests.any (·.download = d) then .removeStore d else .removeScan d }
  | .removeStore d =>
    { s with saveRequestCounter := s.saveRequests.length, main := .pendingBuilds .load (some d) }
  | .removeScan d =>
    if s.processingSaves.any (·.request.download = d) then
      { s with mutex := .free, main := .removeWait d }
    else { s with files := unlinkFiles d s.files, main := .unlock false }
  | .removeWait d => { s with mutex := .main, main := .removeScan d }
  | .buildsClear => { s with scheduledPendingBuilds := false, main := .buildsLoop [] }
  | .buildsLoop rs =>
    match s.pendingBuilds with
    | [] => { s with main := afterBuildsLoop rs }
    | d :: ds =>
      if maxConcurrentRequests ≤ s.saveRequestCounter + rs.length then
        { s with main := afterBuildsLoop rs }
      else
        { s with
          pendingBuilds := ds
          main := .buildsLoop (rs ++ [⟨d, none, streams.1, streams.2⟩]) }
  | .buildsLock rs => { s with mutex := .main, main := .buildsQueue rs }
  | .buildsQueue [] => { s with main := .unlock true }
  | .buildsQueue (r :: rs) => enqueueRequest s r (.buildsQueue rs) (.buildsStore rs)
  | .buildsStore rs =>
    { s with saveRequestCounter := s.saveRequests.length, main := .buildsQueue rs }

def sessionNext (s : State) : State :=
  match s.session with
  | .idle => s
  | .savesLock => { s with mutex := .session, session := .savesClear }
  | .savesClear => { s with scheduledSaveRequest := false, session := .savesLoop }
  | .savesLoop =>
    match s.saveRequests with
    | [] => { s with session := .unlock true }
    | r :: rs =>
      if maxConcurrentProcessing ≤ s.processingSaves.length then
        { s with session := .unlock true }
      else { s with saveRequests := rs, session := .savesStore r }
  | .savesStore r =>
    { s with saveRequestCounter := s.saveRequests.length, session := .savesInsert r }
  | .savesInsert r =>
    { s with
      processingSaves := s.processingSaves ++ [⟨r, saveAndMoveStreams r.streams, false⟩]
      processingSaveCounter := s.processingSaves.length + 1
      session := .savesLoop }
  | .unlock builds =>
    { s with mutex := .free, session := if builds then .pendingBuilds .load else .idle }
  | .pendingBuilds pc =>
    let r := callbackPendingBuilds s pc
    { r.1 with session := r.2.elim .idle .pendingBuilds }
  | .finishedLock => { s with mutex := .session, session := .finishedClear }
  | .finishedClear =>
    { s with
      scheduledFinishedSaves := false, finishedSaves := []
      session := .saveRequest .loadRequests }
  | .saveRequest pc =>
    let r := callbackSaveRequest s pc
    { r.1 with session := r.2.elim (.unlock false) .saveRequest }

/-- One step of the `cleanup_fn` of the save thread that holds the mutex. -/
def cleanupNext (s : State) : State :=
  match s.mutex with
  | .save i .exchange =>
    { s with
      scheduledFinishedSaves := true
      mutex := .save i (if s.scheduledFinishedSaves then .erase else .schedule) }
  | .save i .schedule =>
    { s with queuedFinishedSaves := s.queuedFinishedSaves + 1, mutex := .save i .erase }
  | .save i .erase =>
    { s with
      finishedSaves := s.finishedSaves ++ s.processingSaves[i]?.toList
      processingSaves := s.processingSaves.eraseIdx i
      mutex := .save i .count }
  | .save i .count =>
    { s with processingSaveCounter := s.processingSaves.length, mutex := .save i .unlock }
  | .save _ .unlock => { s with mutex := .free }
  | _ => s

/-- The next file operation of the save at index `i`; `error` raises a `storage_error`. -/
def fileOpNext (s : State) (i : ℕ) (error : Bool) : State :=
  match s.processingSaves[i]? with
  | none => s
  | some p =>
    match p.ops with
    | [] => s
    | o :: rest =>
      match if error then none else o.run p.request.path s.files with
      | some fs =>
        { s with files := fs, processingSaves := s.processingSaves.set i { p with ops := rest } }
      | none =>
        { s with processingSaves := s.processingSaves.set i { p with ops := [], failed := true } }

inductive Event where
  | saveResumeDownload (d : Download)
  | saveFullDownload (d : Download) (torrent rtorrent libtorrent : Stream)
  | removeDownload (d : Download)
  | processPendingBuilds
  | main (streams : Stream × Stream)
  | processSaveRequest
  | processFinishedSaves
  | session
  | fileOp (i : ℕ) (error : Bool)
  | cleanupLock (i : ℕ)
  | cleanup
  deriving DecidableEq, Repr

def MainPc.awaitsMutex : MainPc → Bool
  | .fullLock _ | .removeLock _ | .removeWait _ | .buildsLock _ => true
  | _ => false

def SessionPc.awaitsMutex : SessionPc → Bool
  | .savesLock | .finishedLock => true
  | _ => false

def Mutex.isSave : Mutex → Bool
  | .save _ _ => true
  | _ => false

def Enabled (s : State) : Event → Prop
  | .saveResumeDownload _ | .saveFullDownload _ _ _ _ | .removeDownload _ => s.main = .idle
  | .processPendingBuilds => s.main = .idle ∧ 0 < s.queuedPendingBuilds
  | .main _ => s.main ≠ .idle ∧ (s.main.awaitsMutex = true → s.mutex = .free)
  | .processSaveRequest => s.session = .idle ∧ 0 < s.queuedSaveRequest
  | .processFinishedSaves => s.session = .idle ∧ 0 < s.queuedFinishedSaves
  | .session => s.session ≠ .idle ∧ (s.session.awaitsMutex = true → s.mutex = .free)
  | .fileOp i _ => (s.processingSaves[i]?).any (fun p => p.ops ≠ []) = true
  | .cleanupLock i => (s.processingSaves[i]?).any (fun p => p.ops = []) = true ∧ s.mutex = .free
  | .cleanup => s.mutex.isSave = true

instance (s : State) : ∀ e : Event, Decidable (Enabled s e)
  | .saveResumeDownload _ | .saveFullDownload _ _ _ _ | .removeDownload _ =>
    inferInstanceAs (Decidable (s.main = .idle))
  | .processPendingBuilds | .main _ | .processSaveRequest | .processFinishedSaves | .session
  | .cleanupLock _ => inferInstanceAs (Decidable (_ ∧ _))
  | .fileOp _ _ | .cleanup => inferInstanceAs (Decidable (_ = true))

def next (s : State) : Event → State
  | .saveResumeDownload d =>
    if d ∈ s.pendingBuilds then s
    else { s with pendingBuilds := s.pendingBuilds ++ [d], main := .pendingBuilds .load none }
  | .saveFullDownload d torrent rtorrent libtorrent =>
    { s with main := .fullLock ⟨d, some torrent, rtorrent, libtorrent⟩ }
  | .removeDownload d => { s with main := .removeLock d }
  | .processPendingBuilds =>
    { s with queuedPendingBuilds := s.queuedPendingBuilds - 1, main := .buildsClear }
  | .main streams => mainNext s streams
  | .processSaveRequest =>
    { s with queuedSaveRequest := s.queuedSaveRequest - 1, session := .savesLock }
  | .processFinishedSaves =>
    { s with queuedFinishedSaves := s.queuedFinishedSaves - 1, session := .finishedLock }
  | .session => sessionNext s
  | .fileOp i error => fileOpNext s i error
  | .cleanupLock i => { s with mutex := .save i .exchange }
  | .cleanup => cleanupNext s

def machine : Machine State Event := ⟨Enabled, next⟩

instance (s : State) (e : Event) : Decidable (machine.Enabled s e) :=
  inferInstanceAs (Decidable (Enabled s e))

/-- No function of the manager runs, no callback is scheduled and no save is in flight. -/
structure Idle (s : State) : Prop where
  main : s.main = .idle
  session : s.session = .idle
  pendingBuilds : s.queuedPendingBuilds = 0
  saveRequest : s.queuedSaveRequest = 0
  finishedSaves : s.queuedFinishedSaves = 0
  processing : s.processingSaves = []
  saves : s.mutex.isSave = false

/-- The mismatch check compares two values of `build_path` on one download. -/
theorem replaceSaveRequestUnsafe_ok (queue : List SaveRequest) (r : SaveRequest) :
    ∃ o, replaceSaveRequestUnsafe queue r = .ok o := by
  induction queue with
  | nil => exact ⟨none, rfl⟩
  | cons q qs ih =>
    rcases ih with ⟨o, ho⟩
    by_cases hd : q.download = r.download
    · have hp : q.path = r.path := congrArg buildPath hd
      exact ⟨_, by simp [replaceSaveRequestUnsafe, hd, hp]; rfl⟩
    · exact ⟨o.map (q :: ·), by simp [replaceSaveRequestUnsafe, hd, ho, Except.map]⟩

theorem replaceSaveRequestUnsafe_none {queue : List SaveRequest} {r : SaveRequest} :
    replaceSaveRequestUnsafe queue r = .ok none ↔ ∀ q ∈ queue, q.download ≠ r.download := by
  induction queue with
  | nil => simp [replaceSaveRequestUnsafe]
  | cons q qs ih =>
    obtain ⟨o, ho⟩ := replaceSaveRequestUnsafe_ok qs r
    by_cases hd : q.download = r.download
    · have hp : q.path = r.path := congrArg buildPath hd
      simp [replaceSaveRequestUnsafe, hd, hp]
    · cases o <;> simp_all [replaceSaveRequestUnsafe, Except.map]

theorem replaceSaveRequestUnsafe_some {queue qs : List SaveRequest} {r : SaveRequest}
    (h : replaceSaveRequestUnsafe queue r = .ok (some qs)) :
    ∃ before q after, queue = before ++ q :: after ∧ q.download = r.download ∧
      (∀ p ∈ before, p.download ≠ r.download) ∧ qs = before ++ mergeRequest q r :: after := by
  induction queue generalizing qs with
  | nil => cases h
  | cons p ps ih =>
    by_cases hd : p.download = r.download
    · have hp : p.path = r.path := congrArg buildPath hd
      refine ⟨[], p, ps, rfl, hd, by simp, ?_⟩
      simpa [replaceSaveRequestUnsafe, hd, hp] using h.symm
    · obtain ⟨o, ho⟩ := replaceSaveRequestUnsafe_ok ps r
      cases o with
      | none => simp [replaceSaveRequestUnsafe, hd, ho, Except.map] at h
      | some ts =>
        obtain ⟨before, q, after, hq, hqd, hb, rfl⟩ := ih ho
        refine ⟨p :: before, q, after, by simp [hq], hqd, by simpa using ⟨hd, hb⟩, ?_⟩
        simpa [replaceSaveRequestUnsafe, hd, ho, Except.map] using h.symm

/-- Queueing merges into the request of the same download or appends a new one. -/
inductive EnqueueStep (s : State) (r : SaveRequest) (merged pushed : MainPc) : State → Prop where
  | merge (before q after) (hq : s.saveRequests = before ++ q :: after)
      (hd : q.download = r.download) (hb : ∀ p ∈ before, p.download ≠ r.download) :
      EnqueueStep s r merged pushed
        { s with
          saveRequests := before ++ mergeRequest q r :: after, main := merged
          log := s.log ++ [⟨r, q.torrentStream.isSome⟩] }
  | push (hd : ∀ q ∈ s.saveRequests, q.download ≠ r.download) :
      EnqueueStep s r merged pushed
        { s with
          saveRequests := s.saveRequests ++ [r], main := pushed
          log := s.log ++ [⟨r, false⟩] }

theorem enqueueRequest_step (s : State) (r : SaveRequest) (merged pushed : MainPc) :
    EnqueueStep s r merged pushed (enqueueRequest s r merged pushed) := by
  obtain ⟨o, ho⟩ := replaceSaveRequestUnsafe_ok s.saveRequests r
  cases o with
  | none =>
    simp only [enqueueRequest, ho]
    exact .push (replaceSaveRequestUnsafe_none.mp ho)
  | some qs =>
    obtain ⟨before, q, after, hq, hd, hb, rfl⟩ := replaceSaveRequestUnsafe_some ho
    have hk : keepsTorrent s.saveRequests r = q.torrentStream.isSome := by
      have hn : before.find? (fun p => decide (p.download = r.download)) = none := by simpa using hb
      simp [keepsTorrent, hq, List.find?_append, hn, hd]
    simp only [enqueueRequest, ho, hk]
    exact .merge before q after hq hd hb

/-- A step of the callback and where it goes on, `none` when it returns. -/
inductive BuildsStep (s : State) : PendingBuildsPc → Option PendingBuildsPc → State → Prop where
  | full (hc : maxConcurrentRequests ≤ s.saveRequestCounter) : BuildsStep s .load none s
  | low : BuildsStep s .load (some .exchange) s
  | scheduled (hf : s.scheduledPendingBuilds = true) : BuildsStep s .exchange none s
  | exchange : BuildsStep s .exchange (some .schedule) { s with scheduledPendingBuilds := true }
  | schedule :
      BuildsStep s .schedule none { s with queuedPendingBuilds := s.queuedPendingBuilds + 1 }

theorem callbackPendingBuilds_step (s : State) (pc : PendingBuildsPc) :
    BuildsStep s pc (callbackPendingBuilds s pc).2 (callbackPendingBuilds s pc).1 := by
  cases pc with
  | load =>
    by_cases hc : maxConcurrentRequests ≤ s.saveRequestCounter
    · simpa [callbackPendingBuilds, hc] using .full hc
    · simpa [callbackPendingBuilds, hc] using .low
  | exchange =>
    cases hf : s.scheduledPendingBuilds with
    | true =>
      have hs : { s with scheduledPendingBuilds := true } = s := by rw [← hf]
      simpa [callbackPendingBuilds, hf, hs] using .scheduled hf
    | false => simpa [callbackPendingBuilds, hf] using .exchange
  | schedule => exact .schedule

inductive RequestStep (s : State) : SaveRequestPc → Option SaveRequestPc → State → Prop where
  | empty (hc : s.saveRequestCounter = 0) : RequestStep s .loadRequests none s
  | nonempty : RequestStep s .loadRequests (some .loadProcessing) s
  | full (hc : maxConcurrentProcessing ≤ s.processingSaveCounter) :
      RequestStep s .loadProcessing none s
  | low : RequestStep s .loadProcessing (some .exchange) s
  | scheduled (hf : s.scheduledSaveRequest = true) : RequestStep s .exchange none s
  | exchange : RequestStep s .exchange (some .schedule) { s with scheduledSaveRequest := true }
  | schedule : RequestStep s .schedule none { s with queuedSaveRequest := s.queuedSaveRequest + 1 }

theorem callbackSaveRequest_step (s : State) (pc : SaveRequestPc) :
    RequestStep s pc (callbackSaveRequest s pc).2 (callbackSaveRequest s pc).1 := by
  cases pc with
  | loadRequests =>
    by_cases hc : s.saveRequestCounter = 0
    · simpa [callbackSaveRequest, hc] using .empty hc
    · simpa [callbackSaveRequest, hc] using .nonempty
  | loadProcessing =>
    by_cases hc : maxConcurrentProcessing ≤ s.processingSaveCounter
    · simpa [callbackSaveRequest, hc] using .full hc
    · simpa [callbackSaveRequest, hc] using .low
  | exchange =>
    cases hf : s.scheduledSaveRequest with
    | true =>
      have hs : { s with scheduledSaveRequest := true } = s := by rw [← hf]
      simpa [callbackSaveRequest, hf, hs] using .scheduled hf
    | false => simpa [callbackSaveRequest, hf] using .exchange
  | schedule => exact .schedule

inductive MainStep (s : State) : MainPc → State → Prop where
  | builds (pc k o t) (ht : BuildsStep s pc o t) :
      MainStep s (.pendingBuilds pc k)
        { t with main := o.elim (afterPendingBuilds k) (.pendingBuilds · k) }
  | saves (pc o t) (ht : RequestStep s pc o t) :
      MainStep s (.saveRequest pc) { t with main := o.elim .idle .saveRequest }
  | fullLock (r) (hf : s.mutex = .free) :
      MainStep s (.fullLock r) { s with mutex := .main, main := .fullQueue r }
  | fullQueue (r t) (ht : EnqueueStep s r (.unlock false) .fullStore t) :
      MainStep s (.fullQueue r) t
  | fullStore :
      MainStep s .fullStore
        { s with saveRequestCounter := s.saveRequests.length, main := .unlock true }
  | unlockCallback :
      MainStep s (.unlock true) { s with mutex := .free, main := .saveRequest .loadRequests }
  | unlockReturn : MainStep s (.unlock false) { s with mutex := .free, main := .idle }
  | removeLock (d) (hf : s.mutex = .free) :
      MainStep s (.removeLock d) { s with mutex := .main, main := .removeQueues d }
  | removeFound (d) :
      MainStep s (.removeQueues d)
        { s with
          pendingBuilds := s.pendingBuilds.filter (· ≠ d)
          saveRequests := s.saveRequests.filter (·.download ≠ d), main := .removeStore d }
  | removeNone (d) (hd : ∀ r ∈ s.saveRequests, r.download ≠ d) :
      MainStep s (.removeQueues d)
        { s with pendingBuilds := s.pendingBuilds.filter (· ≠ d), main := .removeScan d }
  | removeStore (d) :
      MainStep s (.removeStore d)
        { s with
          saveRequestCounter := s.saveRequests.length, main := .pendingBuilds .load (some d) }
  | removeBusy (d) : MainStep s (.removeScan d) { s with mutex := .free, main := .removeWait d }
  | removeDone (d) (hd : ∀ p ∈ s.processingSaves, p.request.download ≠ d) :
      MainStep s (.removeScan d) { s with files := unlinkFiles d s.files, main := .unlock false }
  | removeWait (d) (hf : s.mutex = .free) :
      MainStep s (.removeWait d) { s with mutex := .main, main := .removeScan d }
  | buildsClear :
      MainStep s .buildsClear { s with scheduledPendingBuilds := false, main := .buildsLoop [] }
  | buildsStop (rs)
      (hp : s.pendingBuilds = [] ∨ maxConcurrentRequests ≤ s.saveRequestCounter + rs.length) :
      MainStep s (.buildsLoop rs) { s with main := afterBuildsLoop rs }
  | buildsBuild (rs d ds r) (hp : s.pendingBuilds = d :: ds) (hr : r.download = d) :
      MainStep s (.buildsLoop rs) { s with pendingBuilds := ds, main := .buildsLoop (rs ++ [r]) }
  | buildsLock (rs) (hf : s.mutex = .free) :
      MainStep s (.buildsLock rs) { s with mutex := .main, main := .buildsQueue rs }
  | buildsEnd : MainStep s (.buildsQueue []) { s with main := .unlock true }
  | buildsQueue (r rs t) (ht : EnqueueStep s r (.buildsQueue rs) (.buildsStore rs) t) :
      MainStep s (.buildsQueue (r :: rs)) t
  | buildsStore (rs) :
      MainStep s (.buildsStore rs)
        { s with saveRequestCounter := s.saveRequests.length, main := .buildsQueue rs }

theorem mainNext_step {s : State} {streams : Stream × Stream} (h : Enabled s (.main streams)) :
    MainStep s s.main (mainNext s streams) := by
  rcases h with ⟨hi, hw⟩
  unfold mainNext
  cases hm : s.main with
  | idle => exact absurd hm hi
  | pendingBuilds pc k => exact .builds pc k _ _ (callbackPendingBuilds_step s pc)
  | saveRequest pc => exact .saves pc _ _ (callbackSaveRequest_step s pc)
  | fullLock r => exact .fullLock r (hw (by rw [hm]; rfl))
  | fullQueue r => exact .fullQueue r _ (enqueueRequest_step ..)
  | fullStore => exact .fullStore
  | unlock callback =>
    cases callback with
    | true => exact .unlockCallback
    | false => exact .unlockReturn
  | removeLock d => exact .removeLock d (hw (by rw [hm]; rfl))
  | removeQueues d =>
    by_cases hd : ∀ r ∈ s.saveRequests, r.download ≠ d
    · have hk : s.saveRequests.filter (·.download ≠ d) = s.saveRequests :=
        List.filter_eq_self.mpr (by simpa using hd)
      have ha : s.saveRequests.any (·.download = d) = false := by simpa using hd
      simpa only [hk, ha, Bool.false_eq_true, ↓reduceIte] using MainStep.removeNone d hd
    · have ha : s.saveRequests.any (·.download = d) = true := by simpa using hd
      simpa only [ha, ↓reduceIte] using MainStep.removeFound d
  | removeStore d => exact .removeStore d
  | removeScan d =>
    by_cases hd : ∀ p ∈ s.processingSaves, p.request.download ≠ d
    · have ha : s.processingSaves.any (·.request.download = d) = false := by simpa using hd
      simpa [ha] using MainStep.removeDone d hd
    · have ha : s.processingSaves.any (·.request.download = d) = true := by simpa using hd
      simpa only [ha, ↓reduceIte] using MainStep.removeBusy d
  | removeWait d => exact .removeWait d (hw (by rw [hm]; rfl))
  | buildsClear => exact .buildsClear
  | buildsLoop rs =>
    cases hp : s.pendingBuilds with
    | nil => simpa [hp] using MainStep.buildsStop rs (.inl hp)
    | cons d ds =>
      by_cases hc : maxConcurrentRequests ≤ s.saveRequestCounter + rs.length
      · simpa [hp, hc] using MainStep.buildsStop rs (.inr hc)
      · simpa [hp, hc] using MainStep.buildsBuild rs d ds _ hp rfl
  | buildsLock rs => exact .buildsLock rs (hw (by rw [hm]; rfl))
  | buildsQueue rs =>
    cases rs with
    | nil => exact .buildsEnd
    | cons r rs => exact .buildsQueue r rs _ (enqueueRequest_step ..)
  | buildsStore rs => exact .buildsStore rs

inductive SessionStep (s : State) : SessionPc → State → Prop where
  | savesLock (hf : s.mutex = .free) :
      SessionStep s .savesLock { s with mutex := .session, session := .savesClear }
  | savesClear :
      SessionStep s .savesClear { s with scheduledSaveRequest := false, session := .savesLoop }
  | savesStop (hq : s.saveRequests = [] ∨ maxConcurrentProcessing ≤ s.processingSaves.length) :
      SessionStep s .savesLoop { s with session := .unlock true }
  | savesPop (r rs) (hq : s.saveRequests = r :: rs)
      (hl : s.processingSaves.length < maxConcurrentProcessing) :
      SessionStep s .savesLoop { s with saveRequests := rs, session := .savesStore r }
  | savesStore (r) :
      SessionStep s (.savesStore r)
        { s with saveRequestCounter := s.saveRequests.length, session := .savesInsert r }
  | savesInsert (r) :
      SessionStep s (.savesInsert r)
        { s with
          processingSaves := s.processingSaves ++ [⟨r, saveAndMoveStreams r.streams, false⟩]
          processingSaveCounter := s.processingSaves.length + 1, session := .savesLoop }
  | unlockBuilds :
      SessionStep s (.unlock true) { s with mutex := .free, session := .pendingBuilds .load }
  | unlockReturn : SessionStep s (.unlock false) { s with mutex := .free, session := .idle }
  | builds (pc o t) (ht : BuildsStep s pc o t) :
      SessionStep s (.pendingBuilds pc) { t with session := o.elim .idle .pendingBuilds }
  | finishedLock (hf : s.mutex = .free) :
      SessionStep s .finishedLock { s with mutex := .session, session := .finishedClear }
  | finishedClear :
      SessionStep s .finishedClear
        { s with
          scheduledFinishedSaves := false, finishedSaves := []
          session := .saveRequest .loadRequests }
  | saves (pc o t) (ht : RequestStep s pc o t) :
      SessionStep s (.saveRequest pc) { t with session := o.elim (.unlock false) .saveRequest }

theorem sessionNext_step {s : State} (h : Enabled s .session) :
    SessionStep s s.session (sessionNext s) := by
  rcases h with ⟨hi, hw⟩
  unfold sessionNext
  cases hm : s.session with
  | idle => exact absurd hm hi
  | savesLock => exact .savesLock (hw (by rw [hm]; rfl))
  | savesClear => exact .savesClear
  | savesLoop =>
    cases hq : s.saveRequests with
    | nil => simpa [hq] using SessionStep.savesStop (.inl hq)
    | cons r rs =>
      by_cases hc : maxConcurrentProcessing ≤ s.processingSaves.length
      · simpa [hq, hc] using SessionStep.savesStop (.inr hc)
      · simpa [hq, hc] using SessionStep.savesPop r rs hq (Nat.lt_of_not_le hc)
  | savesStore r => exact .savesStore r
  | savesInsert r => exact .savesInsert r
  | unlock builds =>
    cases builds with
    | true => exact .unlockBuilds
    | false => exact .unlockReturn
  | pendingBuilds pc => exact .builds pc _ _ (callbackPendingBuilds_step s pc)
  | finishedLock => exact .finishedLock (hw (by rw [hm]; rfl))
  | finishedClear => exact .finishedClear
  | saveRequest pc => exact .saves pc _ _ (callbackSaveRequest_step s pc)

inductive SaveStep (s : State) (i : ℕ) (error : Bool) : State → Prop where
  | run (p o rest fs) (hp : s.processingSaves[i]? = some p) (ho : p.ops = o :: rest)
      (hf : o.run p.request.path s.files = some fs) :
      SaveStep s i error
        { s with files := fs, processingSaves := s.processingSaves.set i { p with ops := rest } }
  | fail (p o rest) (hp : s.processingSaves[i]? = some p) (ho : p.ops = o :: rest)
      (hf : error = true ∨ o.run p.request.path s.files = none) :
      SaveStep s i error
        { s with processingSaves := s.processingSaves.set i { p with ops := [], failed := true } }

theorem fileOpNext_step {s : State} {i : ℕ} {error : Bool} (h : Enabled s (.fileOp i error)) :
    SaveStep s i error (fileOpNext s i error) := by
  obtain ⟨p, hp, hne⟩ : ∃ p, s.processingSaves[i]? = some p ∧ p.ops ≠ [] := by
    simpa [Enabled, Option.any_eq_true] using h
  obtain ⟨o, rest, ho⟩ := List.exists_cons_of_ne_nil hne
  cases hr : if error then none else o.run p.request.path s.files with
  | none =>
    have hf : error = true ∨ o.run p.request.path s.files = none := by cases error <;> simp_all
    simpa [fileOpNext, hp, ho, hr] using SaveStep.fail p o rest hp ho hf
  | some fs =>
    have hf : o.run p.request.path s.files = some fs := by cases error <;> simp_all
    simpa [fileOpNext, hp, ho, hr] using SaveStep.run p o rest fs hp ho hf

inductive CleanupStep (s : State) : Mutex → State → Prop where
  | scheduled (i) (hf : s.scheduledFinishedSaves = true) :
      CleanupStep s (.save i .exchange) { s with mutex := .save i .erase }
  | exchange (i) :
      CleanupStep s (.save i .exchange)
        { s with scheduledFinishedSaves := true, mutex := .save i .schedule }
  | schedule (i) :
      CleanupStep s (.save i .schedule)
        { s with queuedFinishedSaves := s.queuedFinishedSaves + 1, mutex := .save i .erase }
  | erase (i) :
      CleanupStep s (.save i .erase)
        { s with
          finishedSaves := s.finishedSaves ++ s.processingSaves[i]?.toList
          processingSaves := s.processingSaves.eraseIdx i, mutex := .save i .count }
  | count (i) :
      CleanupStep s (.save i .count)
        { s with processingSaveCounter := s.processingSaves.length, mutex := .save i .unlock }
  | unlock (i) : CleanupStep s (.save i .unlock) { s with mutex := .free }

theorem cleanupNext_step {s : State} (h : Enabled s .cleanup) :
    CleanupStep s s.mutex (cleanupNext s) := by
  unfold cleanupNext
  cases hm : s.mutex with
  | save i pc =>
    cases pc with
    | exchange =>
      cases hf : s.scheduledFinishedSaves with
      | true => simpa [hf] using CleanupStep.scheduled i hf
      | false => simpa [hf] using CleanupStep.exchange i
    | schedule => exact .schedule i
    | erase => exact .erase i
    | count => exact .count i
    | unlock => exact .unlock i
  | _ => simp [Enabled, hm, Mutex.isSave] at h

end SessionManagerModel
