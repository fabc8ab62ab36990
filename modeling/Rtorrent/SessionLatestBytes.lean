import Rtorrent.SessionWakeup

/-! # The session files hold the latest streams

What the files of a download will hold is read off the queue, the request in the session
thread's hands, the save in flight and the directory, in this order. Every step keeps that
value in agreement with the log of requests. -/
namespace SessionLatestBytes

open SessionDownloadStorer SessionManagerModel SessionWakeup TransitionSystems

/-- The stream a request adds for a file: none for a torrent stream that the merge drops. -/
def carried (f : SessionFile) (q : Queued) : Option Bytes :=
  if f = .torrent ∧ q.keptTorrent = true then none else q.request.stream f

/-- The last stream that the requests of a download brought. -/
def latest (stream : Queued → Option Bytes) (d : Download) (log : List Queued) : Option Bytes :=
  log.foldl (fun b q => if q.request.download = d then (stream q).or b else b) none

theorem latest_append (stream : Queued → Option Bytes) (d : Download) (log : List Queued)
    (q : Queued) : latest stream d (log ++ [q]) =
      if q.request.download = d then (stream q).or (latest stream d log)
      else latest stream d log := by
  simp [latest]

def queuedStream (queue : List SaveRequest) (d : Download) (f : SessionFile) : Option Bytes :=
  (queue.find? (·.download = d)).bind (·.stream f)

/-- The request that `process_next_save_request_unsafe` has taken from the queue. -/
def heldRequest : SessionPc → Option SaveRequest
  | .savesStore r | .savesInsert r => some r
  | _ => none

def heldStream (pc : SessionPc) (d : Download) (f : SessionFile) : Option Bytes :=
  ((heldRequest pc).filter (·.download = d)).bind (·.stream f)

def remainingOps (saves : List ProcessingSave) (d : Download) : List FileOp :=
  ((saves.find? (·.request.download = d)).map (·.ops)).getD []

def removing : MainPc → Option Download
  | .removeLock d | .removeQueues d | .removeStore d | .removeScan d | .removeWait d => some d
  | .pendingBuilds _ next => next
  | _ => none

/-- The download is not removed and no file operation fails by itself. -/
def InScope (d : Download) : Event → Prop
  | .removeDownload d' => d' ≠ d
  | .fileOp _ error => error = false
  | _ => True

instance (d : Download) : ∀ e : Event, Decidable (InScope d e)
  | .removeDownload d' => inferInstanceAs (Decidable (d' ≠ d))
  | .fileOp _ error => inferInstanceAs (Decidable (error = false))
  | .saveResumeDownload _ | .saveFullDownload _ _ _ _ | .processPendingBuilds | .main _
  | .processSaveRequest | .processFinishedSaves | .session | .cleanupLock _ | .cleanup =>
    isTrue trivial

/-- No request of the download is dequeued while an earlier save of it is in flight. -/
def NoOverlap (d : Download) (s : State) (e : Event) : Prop :=
  e = .session → s.session = .savesLoop →
    s.processingSaves.length < maxConcurrentProcessing →
    (s.saveRequests.head?).any (·.download = d) = true →
    d ∉ s.processingSaves.map (·.request.download)

instance (d : Download) (s : State) (e : Event) : Decidable (NoOverlap d s e) :=
  inferInstanceAs (Decidable (_ → _ → _ → _ → _))

/-- Nothing of the download is pending, queued or in flight. -/
structure Settled (d : Download) (s : State) : Prop where
  main : s.main = .idle
  pending : d ∉ s.pendingBuilds
  queued : ∀ r ∈ s.saveRequests, r.download ≠ d
  held : (heldRequest s.session).all (·.download ≠ d) = true
  processing : ∀ p ∈ s.processingSaves, p.request.download ≠ d

structure Shape (d : Download) (s : State) : Prop where
  removing : removing s.main ≠ some d
  queue : (s.saveRequests.map (·.download)).Nodup
  processing : (s.processingSaves.map (·.request.download)).Pairwise (fun a b => a ≠ d ∨ b ≠ d)
  held : ∀ r, heldRequest s.session = some r → r.download = d →
    d ∉ s.processingSaves.map (·.request.download)
  cleanup : ∀ i pc, s.mutex = .save i pc → pc ≠ .count → pc ≠ .unlock →
    ∃ p, s.processingSaves[i]? = some p ∧ p.ops = []

/-- The files of the download once everything of it has drained. -/
def Content (d : Download) (s : State) : Prop :=
  ∃ fs, FileOp.runAll (buildPath d) (remainingOps s.processingSaves d) s.files = some fs ∧
    ∀ f b, latest (carried f) d s.log = some b →
      (queuedStream s.saveRequests d f).or
        ((heldStream s.session d f).or (fs ⟨buildPath d, f, false⟩)) = some b

theorem initial_shape (d : Download) (files : Directory) : Shape d (initial files) := by
  constructor <;> simp [initial, removing, heldRequest]

theorem initial_content (d : Download) (files : Directory) : Content d (initial files) :=
  ⟨files, rfl, by simp [initial, latest]⟩

theorem mergeRequest_stream (q r : SaveRequest) (f : SessionFile) :
    (mergeRequest q r).stream f =
      (carried f ⟨r, q.torrentStream.isSome⟩).or (q.stream f) := by
  cases hq : q.torrentStream <;> cases f <;>
    simp [mergeRequest, SaveRequest.stream, SaveRequest.streams, Streams.stream, carried, hq]

variable {s t : State} {r : SaveRequest} {merged pushed : MainPc}

theorem enqueue_queuedStream (h : EnqueueStep s r merged pushed t) :
    ∃ kept, t.log = s.log ++ [⟨r, kept⟩] ∧ ∀ d f, queuedStream t.saveRequests d f =
      if r.download = d then (carried f ⟨r, kept⟩).or (queuedStream s.saveRequests d f)
      else queuedStream s.saveRequests d f := by
  cases h with
  | merge before q after hq hd hb =>
    refine ⟨_, rfl, ?_⟩
    intro d f
    by_cases hr : r.download = d
    · have hn : before.find? (·.download = d) = none := by simpa [hr] using hb
      simp [queuedStream, hq, hn, hd, hr, List.find?_append, mergeRequest_download,
        mergeRequest_stream]
    · have hn : q.download ≠ d := hd ▸ hr
      simp [queuedStream, hq, hr, hn, List.find?_append, mergeRequest_download]
  | push hd =>
    refine ⟨false, rfl, ?_⟩
    intro d f
    by_cases hr : r.download = d
    · have hn : s.saveRequests.find? (·.download = d) = none := by simpa [hr] using hd
      simp [queuedStream, hn, hr, List.find?_append, carried]
    · simp [queuedStream, hr, List.find?_append]

variable {d : Download}

theorem enqueue_shape (h : Shape d s) (hs : EnqueueStep s r merged pushed t)
    (hm : removing merged ≠ some d) (hp : removing pushed ≠ some d) : Shape d t := by
  rcases h with ⟨-, hq, hf, hh, hc⟩
  cases hs with
  | merge before q after hb =>
    exact ⟨hm, by simpa [hb, mergeRequest_download] using hq, hf, hh, hc⟩
  | push hd =>
    refine ⟨hp, ?_, hf, hh, hc⟩
    simp only [List.map_append, List.map_cons, List.map_nil]
    exact List.nodup_append.mpr ⟨hq, by simp, by simpa using hd⟩

theorem enqueue_content (h : Content d s) (hs : EnqueueStep s r merged pushed t) : Content d t := by
  rcases h with ⟨fs, hr, hl⟩
  obtain ⟨kept, hlog, hq⟩ := enqueue_queuedStream hs
  have ht : t.processingSaves = s.processingSaves ∧ t.files = s.files ∧ t.session = s.session := by
    cases hs <;> exact ⟨rfl, rfl, rfl⟩
  refine ⟨fs, by rw [ht.1, ht.2.1]; exact hr, ?_⟩
  intro f b hb
  rw [hlog, latest_append] at hb
  rw [hq, ht.2.2]
  by_cases hd : r.download = d
  · simp only [hd, ↓reduceIte] at hb ⊢
    cases hc : carried f ⟨r, kept⟩ with
    | some c => simpa [hc] using hb
    | none => simpa [hc] using hl f b (by simpa [hc] using hb)
  · simp only [hd, ↓reduceIte] at hb ⊢
    exact hl f b hb

theorem removing_afterBuildsLoop (rs : List SaveRequest) :
    removing (afterBuildsLoop rs) = none := by
  cases rs <;> rfl

variable {pc : MainPc} {qc : SessionPc} {m : Mutex}

theorem shape_main (h : Shape d s) (hm : s.main = pc) (hs : MainStep s pc t) : Shape d t := by
  have ⟨hr, hq, hf, hh, hc⟩ := h
  rw [hm] at hr
  cases hs with
  | fullQueue r t ht => exact enqueue_shape h ht (by simp [removing]) (by simp [removing])
  | buildsQueue r rs t ht => exact enqueue_shape h ht (by simp [removing]) (by simp [removing])
  | removeFound => exact ⟨hr, hq.sublist (List.filter_sublist.map _), hf, hh, hc⟩
  | builds _ k _ _ ht => cases ht <;> cases k <;> exact ⟨hr, hq, hf, hh, hc⟩
  | saves _ _ _ ht => cases ht <;> exact ⟨hr, hq, hf, hh, hc⟩
  | buildsStop rs => exact ⟨by simp [removing_afterBuildsLoop], hq, hf, hh, hc⟩
  | unlockCallback | unlockReturn | fullLock | removeLock | removeBusy | removeWait | buildsLock =>
    exact ⟨hr, hq, hf, hh, by simp⟩
  | removeDone => exact ⟨by simp [removing], hq, hf, hh, hc⟩
  | _ => exact ⟨hr, hq, hf, hh, hc⟩

theorem Content.frame (h : Content d s) (hf : SameFiles (buildPath d) s.files t.files)
    (ho : remainingOps t.processingSaves d = remainingOps s.processingSaves d)
    (hq : ∀ f, queuedStream t.saveRequests d f = queuedStream s.saveRequests d f)
    (hh : ∀ f, heldStream t.session d f = heldStream s.session d f) (hl : t.log = s.log) :
    Content d t := by
  rcases h with ⟨fs, hr, hb⟩
  obtain ⟨gs, hg, hs⟩ := FileOp.runAll_congr hf hr
  refine ⟨gs, by rw [ho]; exact hg, ?_⟩
  intro f b he
  rw [hq, hh, ← hs f false]
  exact hb f b (hl ▸ he)

theorem queuedStream_filter {d' : Download} (hd : d' ≠ d) (queue : List SaveRequest)
    (f : SessionFile) :
    queuedStream (queue.filter (·.download ≠ d')) d f = queuedStream queue d f := by
  have hp : (fun r : SaveRequest => decide (decide (r.download ≠ d') = true ∧
      decide (r.download = d) = true)) = fun r => decide (r.download = d) := by
    funext r
    by_cases hr : r.download = d
    · simp [hr, Ne.symm hd]
    · simp [hr]
  simp only [queuedStream, List.find?_filter, hp]

theorem content_main (hs : Shape d s) (h : Content d s) (hp : s.main = pc)
    (hm : MainStep s pc t) : Content d t := by
  have hr := hs.removing
  rw [hp] at hr
  cases hm with
  | fullQueue r t ht => exact enqueue_content h ht
  | buildsQueue r rs t ht => exact enqueue_content h ht
  | removeFound d' =>
    have hd : d' ≠ d := by simpa [removing] using hr
    exact h.frame (fun _ _ => rfl) rfl (queuedStream_filter hd _) (fun _ => rfl) rfl
  | removeDone d' =>
    have hd : buildPath d ≠ buildPath d' := by simpa [removing, buildPath, eq_comm] using hr
    exact h.frame (unlinkFiles_frame _ hd).symm rfl (fun _ => rfl) (fun _ => rfl) rfl
  | builds _ _ _ _ ht => cases ht <;> exact h
  | saves _ _ _ ht => cases ht <;> exact h
  | _ => exact h

variable {saves : List ProcessingSave}

theorem remainingOps_of_not_mem (h : d ∉ saves.map (·.request.download)) :
    remainingOps saves d = [] := by
  have hn : saves.find? (·.request.download = d) = none := by
    simpa using h
  simp [remainingOps, hn]

theorem queuedStream_of_not_mem {queue : List SaveRequest}
    (h : d ∉ queue.map (·.download)) (f : SessionFile) : queuedStream queue d f = none := by
  have hn : queue.find? (·.download = d) = none := by
    simpa using h
  simp [queuedStream, hn]

theorem queuedStream_cons (r : SaveRequest) (rs : List SaveRequest) (d : Download)
    (f : SessionFile) : queuedStream (r :: rs) d f =
      if r.download = d then r.stream f else queuedStream rs d f := by
  by_cases hd : r.download = d <;> simp [queuedStream, hd]

theorem heldStream_some (h : heldRequest qc = some r) (d : Download) (f : SessionFile) :
    heldStream qc d f = if r.download = d then r.stream f else none := by
  by_cases hd : r.download = d <;> simp [heldStream, h, hd, Option.filter_some]

theorem heldStream_none (h : heldRequest qc = none) (d : Download)
    (f : SessionFile) : heldStream qc d f = none := by
  simp [heldStream, h]

theorem shape_session (hx : Exclusion s) (h : Shape d s) (hn : NoOverlap d s .session)
    (hm : s.session = qc) (hs : SessionStep s qc t) : Shape d t := by
  rcases h with ⟨hr, hq, hf, hh, hc⟩
  rw [hm] at hh
  cases hs with
  | savesPop r rs hl hp =>
    refine ⟨hr, ?_, hf, ?_, hc⟩
    · rw [hl] at hq
      exact (List.nodup_cons.mp hq).2
    · intro q he hd
      cases he
      exact hn rfl hm hp (by simp [hl, hd])
  | savesStore => exact ⟨hr, hq, hf, hh, hc⟩
  | savesInsert r =>
    have hl : s.mutex = .session := hx.session.mpr (by simp [hm])
    refine ⟨hr, hq, ?_, by simp [heldRequest], by simp [hl]⟩
    have hd : ∀ a ∈ s.processingSaves.map (·.request.download), a ≠ d ∨ r.download ≠ d := by
      intro a ha
      by_cases hd : r.download = d
      · exact .inl fun he => hh r rfl hd (he ▸ ha)
      · exact .inr hd
    simpa [List.pairwise_append] using ⟨hf, by simpa using hd⟩
  | savesLock | finishedLock | unlockBuilds | unlockReturn =>
    exact ⟨hr, hq, hf, by simp [heldRequest], by simp⟩
  | builds _ _ _ ht | saves _ _ _ ht => cases ht <;> exact ⟨hr, hq, hf, by simp [heldRequest], hc⟩
  | _ => exact ⟨hr, hq, hf, by simp [heldRequest], hc⟩

theorem content_session (hs : Shape d s) (h : Content d s) (hp : s.session = qc)
    (hm : SessionStep s qc t) : Content d t := by
  cases hm with
  | savesPop r rs hl =>
    have hq := hs.queue
    rw [hl, List.map_cons, List.nodup_cons] at hq
    rcases h with ⟨fs, hr, hb⟩
    refine ⟨fs, hr, ?_⟩
    intro f b he
    have hv := hb f b he
    rw [hl, queuedStream_cons, heldStream_none (by rw [hp]; rfl)] at hv
    rw [heldStream_some rfl]
    by_cases hd : r.download = d
    · have hn := queuedStream_of_not_mem (hd ▸ hq.1) f
      simpa [hn, hd] using hv
    · simpa [hd] using hv
  | savesInsert r =>
    have hheld : heldRequest s.session = some r := by rw [hp]; rfl
    have hh := heldStream_some hheld d
    by_cases hd : r.download = d
    · have hn := hs.held r hheld hd
      rcases h with ⟨fs, hr, hb⟩
      obtain ⟨gs, hg, hv⟩ := runAll_saveAndMoveStreams r.path s.files
        fun _ _ => SaveRequest.stream_ne_nil
      have ho : remainingOps (s.processingSaves ++ [⟨r, saveAndMoveStreams r.streams, false⟩]) d =
          saveAndMoveStreams r.streams := by
        have hf : s.processingSaves.find? (·.request.download = d) = none := by simpa using hn
        simp [remainingOps, List.find?_append, hf, hd]
      rw [remainingOps_of_not_mem hn] at hr
      cases hr
      refine ⟨gs, by rw [ho, ← hd]; exact hg, ?_⟩
      intro f b he
      have hp : buildPath d = r.path := by rw [← hd]; rfl
      rw [hp, hv, heldStream_none rfl]
      simpa [hh, hd, hp, SaveRequest.stream] using hb f b he
    · refine h.frame (fun _ _ => rfl) ?_ (fun _ => rfl) ?_ rfl
      · simp [remainingOps, List.find?_append, hd]
      · intro f
        rw [hh, if_neg hd, heldStream_none rfl]
  | builds _ _ _ ht | saves _ _ _ ht =>
    cases ht <;> exact h.frame (fun _ _ => rfl) rfl (fun _ => rfl) (by rw [hp]; exact fun _ => rfl)
      rfl
  | _ => exact h.frame (fun _ _ => rfl) rfl (fun _ => rfl) (by rw [hp]; exact fun _ => rfl) rfl

variable {i : ℕ} {p : ProcessingSave}

theorem remainingOps_eq (hs : (saves.map (·.request.download)).Pairwise (fun a b => a ≠ d ∨ b ≠ d))
    (hp : saves[i]? = some p) (hd : p.request.download = d) : remainingOps saves d = p.ops := by
  induction saves generalizing i with
  | nil => simp at hp
  | cons q saves ih =>
    rw [List.map_cons, List.pairwise_cons] at hs
    cases i with
    | zero =>
      cases hp
      simp [remainingOps, hd]
    | succ i =>
      have hm : d ∈ saves.map (·.request.download) :=
        List.mem_map.mpr ⟨p, List.mem_of_getElem? hp, hd⟩
      have hq : q.request.download ≠ d := by simpa using hs.1 d hm
      simpa [remainingOps, hq] using ih hs.2 hp

variable {q : ProcessingSave}

theorem remainingOps_set (hp : saves[i]? = some p) (hd : p.request.download ≠ d)
    (hq : q.request = p.request) : remainingOps (saves.set i q) d = remainingOps saves d := by
  induction saves generalizing i with
  | nil => rfl
  | cons r saves ih =>
    cases i with
    | zero =>
      cases hp
      simp [remainingOps, hd, hq]
    | succ i =>
      have hr := ih hp
      by_cases he : r.request.download = d
      · simp [remainingOps, he]
      · simpa [remainingOps, he] using hr

theorem remainingOps_eraseIdx
    (hs : (saves.map (·.request.download)).Pairwise (fun a b => a ≠ d ∨ b ≠ d))
    (hp : saves[i]? = some p) (ho : p.ops = []) :
    remainingOps (saves.eraseIdx i) d = remainingOps saves d := by
  induction saves generalizing i with
  | nil => rfl
  | cons q saves ih =>
    rw [List.map_cons, List.pairwise_cons] at hs
    by_cases hd : q.request.download = d
    · cases i with
      | zero =>
        cases hp
        have hn : d ∉ saves.map (·.request.download) := fun hm => by simpa [hd] using hs.1 d hm
        rw [List.eraseIdx_zero, List.tail_cons, remainingOps_of_not_mem hn]
        simp [remainingOps, hd, ho]
      | succ i => simp [remainingOps, hd]
    · cases i with
      | zero => simp [remainingOps, hd]
      | succ i => simpa [remainingOps, hd] using ih hs.2 hp

theorem map_download_set (hp : saves[i]? = some p) (hq : q.request = p.request) :
    (saves.set i q).map (·.request.download) = saves.map (·.request.download) := by
  rw [List.map_set, hq]
  apply List.ext_getElem?
  intro j
  by_cases hj : i = j
  · subst hj
    simp [List.getElem?_set_self', hp]
  · simp [List.getElem?_set_ne hj]

theorem shape_set (h : Shape d s)
    (hp : s.processingSaves[i]? = some p) (ho : p.ops ≠ []) (q : ProcessingSave)
    (hr : q.request = p.request) (files : Directory) :
    Shape d { s with files := files, processingSaves := s.processingSaves.set i q } := by
  rcases h with ⟨hm, hq, hf, hh, hc⟩
  have he := map_download_set hp hr
  refine ⟨hm, hq, by simpa only [he] using hf, by simpa only [he] using hh, ?_⟩
  intro j pc hl hn hu
  obtain ⟨r, hj, hro⟩ := hc j pc hl hn hu
  have hij : i ≠ j := by
    rintro rfl
    rw [hp] at hj
    exact ho (Option.some.inj hj ▸ hro)
  exact ⟨r, by rw [List.getElem?_set_ne hij]; exact hj, hro⟩

theorem shape_save {error : Bool} (h : Shape d s) (hs : SaveStep s i error t) : Shape d t := by
  cases hs with
  | run p o rest fs hp ho => exact shape_set h hp (by simp [ho]) { p with ops := rest } rfl fs
  | fail p o rest hp ho =>
    exact shape_set h hp (by simp [ho]) { p with ops := [], failed := true } rfl s.files

/-- A save of the download advances through its own operations, others work under another path. -/
theorem content_save (hs : Shape d s) (h : Content d s)
    (hm : SaveStep s i false t) : Content d t := by
  cases hm with
  | run p o rest fs hp ho hf =>
    by_cases hd : p.request.download = d
    · rcases h with ⟨gs, hr, hb⟩
      have hpath : p.request.path = buildPath d := congrArg buildPath hd
      have hset : (s.processingSaves.set i { p with ops := rest })[i]? =
          some { p with ops := rest } := by
        rw [List.getElem?_set_self']
        simp [hp]
      have hpair := hs.processing
      rw [← map_download_set hp (q := { p with ops := rest }) rfl] at hpair
      rw [remainingOps_eq hs.processing hp hd, ho, FileOp.runAll, ← hpath, hf] at hr
      refine ⟨gs, ?_, hb⟩
      rw [remainingOps_eq hpair hset hd, ← hpath]
      exact hr
    · have hpath : buildPath d ≠ p.request.path := by
        simpa [SaveRequest.path, buildPath, eq_comm] using hd
      exact h.frame (FileOp.run_frame hf hpath).symm (remainingOps_set hp hd rfl) (fun _ => rfl)
        (fun _ => rfl) rfl
  | fail p o rest hp ho hf =>
    have hf : o.run p.request.path s.files = none := by simpa using hf
    by_cases hd : p.request.download = d
    · rcases h with ⟨gs, hr, -⟩
      have hpath : p.request.path = buildPath d := congrArg buildPath hd
      rw [remainingOps_eq hs.processing hp hd, ho, FileOp.runAll, ← hpath, hf] at hr
      cases hr
    · exact h.frame (fun _ _ => rfl) (remainingOps_set hp hd rfl) (fun _ => rfl) (fun _ => rfl) rfl

theorem shape_cleanup (h : Shape d s) (hm : s.mutex = m) (hs : CleanupStep s m t) :
    Shape d t := by
  rcases h with ⟨hr, hq, hf, hh, hc⟩
  cases hs with
  | erase i =>
    have hl := (List.eraseIdx_sublist s.processingSaves i).map (·.request.download)
    exact ⟨hr, hq, hf.sublist hl, fun r he hd hm => hh r he hd (hl.subset hm), by simp⟩
  | scheduled i | exchange i | schedule i =>
    have hp := hc i _ hm (by simp) (by simp)
    refine ⟨hr, hq, hf, hh, ?_⟩
    intro j pc he _ _
    cases he
    exact hp
  | count | unlock => exact ⟨hr, hq, hf, hh, by simp⟩

theorem content_cleanup (hs : Shape d s) (h : Content d s) (hp : s.mutex = m)
    (hm : CleanupStep s m t) : Content d t := by
  cases hm with
  | erase i =>
    obtain ⟨p, hp, ho⟩ := hs.cleanup i _ hp (by simp) (by simp)
    exact h.frame (fun _ _ => rfl) (remainingOps_eraseIdx hs.processing hp ho) (fun _ => rfl)
      (fun _ => rfl) rfl
  | _ => exact h

structure Invariant (d : Download) (s : State) : Prop where
  wakeup : SessionWakeup.Invariant s
  shape : Shape d s
  content : Content d s

theorem initial_invariant (d : Download) (files : Directory) : Invariant d (initial files) :=
  ⟨SessionWakeup.initial_invariant files, initial_shape d files, initial_content d files⟩

variable {e : Event}

theorem enter_shape (h : Shape d s) (he : Enabled s e)
    (hn : starts e = true) (hi : InScope d e) : Shape d (next s e) := by
  rcases h with ⟨hr, hq, hf, hh, hc⟩
  cases e with
  | saveResumeDownload d' =>
    simp only [next]
    split
    · exact ⟨hr, hq, hf, hh, hc⟩
    · exact ⟨by simp [removing], hq, hf, hh, hc⟩
  | removeDownload d' => exact ⟨by simpa [next, removing, InScope] using hi, hq, hf, hh, hc⟩
  | saveFullDownload | processPendingBuilds =>
    exact ⟨by simp [next, removing], hq, hf, hh, hc⟩
  | processSaveRequest | processFinishedSaves =>
    exact ⟨hr, hq, hf, by simp [next, heldRequest], hc⟩
  | cleanupLock i =>
    obtain ⟨p, hp, ho⟩ : ∃ p, s.processingSaves[i]? = some p ∧ p.ops = [] := by
      simpa [Option.any_eq_true] using he.1
    refine ⟨hr, hq, hf, hh, ?_⟩
    intro j pc hl _ _
    cases hl
    exact ⟨p, hp, ho⟩
  | main | session | fileOp | cleanup => cases hn

theorem enter_content (h : Content d s)
    (he : Enabled s e) (hn : starts e = true) : Content d (next s e) := by
  cases e with
  | saveResumeDownload d' =>
    simp only [next]
    split <;> exact h
  | processSaveRequest | processFinishedSaves =>
    refine h.frame (fun _ _ => rfl) rfl (fun _ => rfl) (fun f => ?_) rfl
    rw [he.1]
    rfl
  | saveFullDownload | removeDownload | processPendingBuilds | cleanupLock => exact h
  | main | session | fileOp | cleanup => cases hn

theorem step_preserves_invariant (h : Invariant d s)
    (hi : InScope d e) (hn : NoOverlap d s e) (hs : machine.system.Step s e t) :
    Invariant d t := by
  have hw := SessionWakeup.step_preserves_invariant h.wakeup hs
  rcases hs with ⟨he, rfl⟩
  have he : Enabled s e := he
  rcases h with ⟨hx, hq, hc⟩
  cases e with
  | main streams =>
    exact ⟨hw, shape_main hq rfl (mainNext_step he), content_main hq hc rfl (mainNext_step he)⟩
  | session =>
    exact ⟨hw, shape_session hx.exclusion hq hn rfl (sessionNext_step he),
      content_session hq hc rfl (sessionNext_step he)⟩
  | fileOp i error =>
    cases hi
    exact ⟨hw, shape_save hq (fileOpNext_step he), content_save hq hc (fileOpNext_step he)⟩
  | cleanup =>
    exact ⟨hw, shape_cleanup hq rfl (cleanupNext_step he),
      content_cleanup hq hc rfl (cleanupNext_step he)⟩
  | _ => exact ⟨hw, enter_shape hq he rfl hi, enter_content hc he rfl⟩

def orderly (d : Download) : Machine State Event :=
  machine.guarded fun s e => InScope d e ∧ NoOverlap d s e

instance (d : Download) (s : State) (e : Event) : Decidable ((orderly d).Enabled s e) :=
  inferInstanceAs (Decidable ((InScope d e ∧ NoOverlap d s e) ∧ Enabled s e))

theorem orderly_invariant {files : Directory}
    (h : Reachable (orderly d).system (initial files) s) : Invariant d s :=
  h.invariant (initial_invariant d files) fun _ _ _ hi hs =>
    step_preserves_invariant hi hs.1.1.1 hs.1.1.2 ⟨hs.1.2, hs.2⟩

/-- Once nothing of a download is pending, queued or in flight, each of its files holds the latest
stream for it, not counting a torrent stream that a merge drops. -/
theorem settled_files_latest {d : Download} {files : Directory} {s : State}
    (h : Reachable (orderly d).system (initial files) s) (hs : Settled d s)
    {f : SessionFile} {b : Bytes} (hb : latest (carried f) d s.log = some b) :
    s.files ⟨buildPath d, f, false⟩ = some b := by
  obtain ⟨fs, hr, hv⟩ := (orderly_invariant h).content
  have hq : d ∉ s.saveRequests.map (·.download) := by simpa using hs.queued
  have hp : d ∉ s.processingSaves.map (·.request.download) := by simpa using hs.processing
  have hh : heldStream s.session d f = none := by
    cases he : heldRequest s.session with
    | none => exact heldStream_none he d f
    | some r =>
      have hn : r.download ≠ d := by simpa [he] using hs.held
      rw [heldStream_some he, if_neg hn]
  rw [remainingOps_of_not_mem hp] at hr
  cases hr
  simpa [queuedStream_of_not_mem hq, hh] using hv f b hb

theorem resumeSaveRun_files_latest :
    (machine.replay (initial fun _ => none) resumeSaveRun).files ⟨buildPath 0, .rtorrent, false⟩ =
      some [1] := by
  have ha : (orderly 0).Accepts (initial fun _ => none) resumeSaveRun := by decide +kernel
  have hs : Settled 0 ((orderly 0).replay (initial fun _ => none) resumeSaveRun) := by
    constructor <;> decide +kernel
  exact settled_files_latest ⟨_, ha.execution⟩ hs (by decide +kernel)

def fullSave (torrent rtorrent libtorrent : Stream) : List Event :=
  .saveFullDownload 0 torrent rtorrent libtorrent :: List.replicate 8 (.main default)

/-- A second full save is merged into the first one while that is still queued. -/
def mergedSaveRun : List Event := List.flatten
  [fullSave ⟨1, []⟩ ⟨2, []⟩ ⟨3, []⟩, [.saveFullDownload 0 ⟨4, []⟩ ⟨5, []⟩ ⟨6, []⟩],
    List.replicate 3 (.main default),
    [.processSaveRequest], List.replicate 10 .session,
    List.replicate 6 (.fileOp 0 false), [.cleanupLock 0], List.replicate 5 .cleanup]

/-- A second full save is dequeued while the first one is in flight. The first writes its `.new`
files over those of the second, which then renames them. -/
def overlappingSaveRun : List Event := List.flatten
  [fullSave ⟨1, []⟩ ⟨2, []⟩ ⟨3, []⟩, [.processSaveRequest], List.replicate 10 .session,
    fullSave ⟨4, []⟩ ⟨5, []⟩ ⟨6, []⟩, [.processSaveRequest], List.replicate 9 .session,
    List.replicate 3 (.fileOp 1 false), List.replicate 3 (.fileOp 0 false),
    List.replicate 3 (.fileOp 1 false), [.fileOp 0 false],
    [.cleanupLock 0], List.replicate 5 .cleanup, [.cleanupLock 0], List.replicate 4 .cleanup]

abbrev final (run : List Event) : State := machine.replay (initial fun _ => none) run

theorem latest_stream_lost :
    (machine.Accepts (initial fun _ => none) mergedSaveRun ∧
      (∀ e ∈ mergedSaveRun, InScope 0 e) ∧ Settled 0 (final mergedSaveRun) ∧
      latest (·.request.stream .torrent) 0 (final mergedSaveRun).log = some [4] ∧
      (final mergedSaveRun).files ⟨buildPath 0, .torrent, false⟩ = some [1]) ∧
    (machine.Accepts (initial fun _ => none) overlappingSaveRun ∧
      (∀ e ∈ overlappingSaveRun, InScope 0 e) ∧ Settled 0 (final overlappingSaveRun) ∧
      latest (·.request.stream .rtorrent) 0 (final overlappingSaveRun).log = some [5] ∧
      (final overlappingSaveRun).files ⟨buildPath 0, .rtorrent, false⟩ = some [2]) := by
  refine ⟨⟨by decide +kernel, by decide +kernel, ?_, by decide +kernel, by decide +kernel⟩,
    by decide +kernel, by decide +kernel, ?_, by decide +kernel, by decide +kernel⟩ <;>
  constructor <;> decide +kernel

end SessionLatestBytes
