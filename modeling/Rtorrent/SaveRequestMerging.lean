import Rtorrent.SessionManagerModel

/-! # Save requests that are merged in the queue

What one merged request saves, compared with saving the requests that were merged one after
another. -/
namespace SaveRequestMerging

open SessionDownloadStorer SessionManagerModel

/-- A request is put into the queue, or the one at the front is taken out to be saved. -/
inductive QueueEvent where
  | put (r : SaveRequest)
  | popFront
  deriving DecidableEq, Repr

def put (queue : List SaveRequest) (r : SaveRequest) : Except String (List SaveRequest) := do
  match ← replaceSaveRequestUnsafe queue r with
  | some qs => .ok qs
  | none => .ok (queue ++ [r])

def queueNext (queue : List SaveRequest) : QueueEvent → Except String (List SaveRequest)
  | .put r => put queue r
  | .popFront => .ok queue.tail

def queueRun : List QueueEvent → List SaveRequest → Except String (List SaveRequest)
  | [], queue => .ok queue
  | e :: es, queue => do
    let queue ← queueNext queue e
    queueRun es queue

def Keeps (d : Download) : List QueueEvent → List SaveRequest → Prop
  | [], _ => True
  | .put r :: es, queue => ∀ qs, put queue r = .ok qs → Keeps d es qs
  | .popFront :: es, queue => (∀ q ∈ queue.head?, q.download ≠ d) ∧ Keeps d es queue.tail

def requestsOf (d : Download) : List QueueEvent → List SaveRequest
  | [] => []
  | .put r :: es => if r.download = d then r :: requestsOf d es else requestsOf d es
  | .popFront :: es => requestsOf d es

def queuedOf (d : Download) (queue : List SaveRequest) : List SaveRequest :=
  queue.filter fun q => q.download = d

def saveAll : List SaveRequest → Directory → Option Directory
  | [], fs => some fs
  | r :: rs, fs => (FileOp.runAll r.path (saveAndMoveStreams r.streams) fs).bind (saveAll rs)

section

variable {d : Download} {queue qs : List SaveRequest} {r q : SaveRequest}

theorem put_merges (h : replaceSaveRequestUnsafe queue r = .ok (some qs)) :
    put queue r = .ok qs := by
  rw [put, h]
  rfl

theorem put_appends (h : replaceSaveRequestUnsafe queue r = .ok none) :
    put queue r = .ok (queue ++ [r]) := by
  rw [put, h]
  rfl

theorem queuedOf_eq_nil (h : ∀ q ∈ queue, q.download ≠ d) : queuedOf d queue = [] := by
  rw [queuedOf, List.filter_eq_nil_iff]
  intro q hq
  simpa using h q hq

theorem put_own (queue : List SaveRequest) (hr : r.download = d) :
    ∃ qs, put queue r = .ok qs ∧
      queuedOf d qs = match queuedOf d queue with
        | [] => [r]
        | q :: rest => mergeRequest q r :: rest := by
  obtain ⟨o, ho⟩ := replaceSaveRequestUnsafe_ok queue r
  cases o with
  | none =>
    have hnone := replaceSaveRequestUnsafe_none.mp ho
    refine ⟨queue ++ [r], put_appends ho, ?_⟩
    rw [hr] at hnone
    rw [queuedOf_eq_nil hnone, queuedOf, List.filter_append, ← queuedOf, queuedOf_eq_nil hnone]
    simp [hr]
  | some qs =>
    obtain ⟨before, q, after, hq, hqd, hbefore, rfl⟩ := replaceSaveRequestUnsafe_some ho
    rw [hr] at hqd hbefore
    have hmerged : (mergeRequest q r).download = d := by
      rw [mergeRequest]
      split <;> exact hqd
    refine ⟨_, put_merges ho, ?_⟩
    rw [hq, queuedOf, queuedOf, List.filter_append, List.filter_append, ← queuedOf,
      queuedOf_eq_nil hbefore]
    simp [hqd, hmerged]

theorem put_other (queue : List SaveRequest) (hr : r.download ≠ d) :
    ∃ qs, put queue r = .ok qs ∧ queuedOf d qs = queuedOf d queue := by
  obtain ⟨o, ho⟩ := replaceSaveRequestUnsafe_ok queue r
  cases o with
  | none =>
    refine ⟨queue ++ [r], put_appends ho, ?_⟩
    simp [queuedOf, hr]
  | some qs =>
    obtain ⟨before, q, after, hq, hqd, -, rfl⟩ := replaceSaveRequestUnsafe_some ho
    have hqd' : q.download ≠ d := by rwa [hqd]
    have hmerged : (mergeRequest q r).download ≠ d := by
      rw [mergeRequest]
      split <;> exact hqd'
    refine ⟨_, put_merges ho, ?_⟩
    simp [hq, queuedOf, hqd', hmerged]

/-- The one request that is queued after these were put in, if there are any. -/
def mergeAll (queued : List SaveRequest) : List SaveRequest → List SaveRequest
  | [] => queued
  | r :: rs =>
    mergeAll (match queued with
      | [] => [r]
      | q :: rest => mergeRequest q r :: rest) rs

theorem queueRun_queued {es : List QueueEvent} (hk : Keeps d es queue) :
    ∃ qs, queueRun es queue = .ok qs ∧
      queuedOf d qs = mergeAll (queuedOf d queue) (requestsOf d es) := by
  induction es generalizing queue with
  | nil => exact ⟨queue, rfl, rfl⟩
  | cons e es ih =>
    cases e with
    | put r =>
      by_cases hr : r.download = d
      · obtain ⟨qs, hput, hqueued⟩ := put_own queue hr
        obtain ⟨ts, hrun, hts⟩ := ih (hk qs hput)
        refine ⟨ts, ?_, ?_⟩
        · rw [queueRun, queueNext, hput]
          exact hrun
        · rw [hts, hqueued, requestsOf, if_pos hr]
          rfl
      · obtain ⟨qs, hput, hqueued⟩ := put_other queue hr
        obtain ⟨ts, hrun, hts⟩ := ih (hk qs hput)
        refine ⟨ts, ?_, ?_⟩
        · rw [queueRun, queueNext, hput]
          exact hrun
        · rw [hts, hqueued, requestsOf, if_neg hr]
    | popFront =>
      obtain ⟨hfront, hk⟩ := hk
      obtain ⟨ts, hrun, hts⟩ := ih hk
      refine ⟨ts, hrun, ?_⟩
      rw [hts, requestsOf]
      cases queue with
      | nil => rfl
      | cons q rest =>
        have hq : q.download ≠ d := hfront q rfl
        simp [queuedOf, hq]

theorem mergeAll_singleton (q : SaveRequest) (rs : List SaveRequest) :
    mergeAll [q] rs = [rs.foldl mergeRequest q] := by
  induction rs generalizing q with
  | nil => rfl
  | cons r rs ih => exact ih (mergeRequest q r)

theorem download_of_mem_requestsOf {es : List QueueEvent} (hr : r ∈ requestsOf d es) :
    r.download = d := by
  induction es with
  | nil => simp [requestsOf] at hr
  | cons e es ih =>
    cases e with
    | put q =>
      rw [requestsOf] at hr
      split at hr
      · obtain rfl | hr := List.mem_cons.mp hr
        · assumption
        · exact ih hr
      · exact ih hr
    | popFront => exact ih hr

end

def saved (r : SaveRequest) (fs : Directory) : Directory := fun name =>
  if name.path = r.path ∧ (r.stream name.file).isSome then
    if name.isNew then none else r.stream name.file
  else fs name

def torrentBytes (r : SaveRequest) : Option Bytes := r.torrentStream.map Stream.bytes

def torrentName (d : Download) : FileName := ⟨buildPath d, .torrent, false⟩

/-- The directories have the same files, up to the torrent file of one download. -/
def SameButTorrent (d : Download) (fs gs : Directory) : Prop :=
  ∀ name, name ≠ torrentName d → fs name = gs name

section

variable {d : Download} {q r : SaveRequest} {fs gs : Directory}

theorem runAll_eq_saved (r : SaveRequest) (fs : Directory) :
    FileOp.runAll r.path (saveAndMoveStreams r.streams) fs = some (saved r fs) := by
  cases ht : r.torrentStream
  all_goals
    simp only [saveAndMoveStreams, SaveRequest.streams, ht, Option.map_none, Option.toList_none,
      Option.map_some,
      Option.toList_some, List.nil_append, List.append_nil, List.cons_append, FileOp.runAll,
      FileOp.run, Stream.bytes_ne_nil, if_false, Option.bind_some]
    simp only [Function.update_apply, FileName.mk.injEq, reduceCtorEq, and_false, false_and,
      if_false, if_true, Option.map_some, Option.bind_some, Option.some.injEq]
    funext name
    obtain ⟨path, file, isNew⟩ := name
    by_cases hp : path = r.path <;> cases file <;> cases isNew <;>
      simp [saved, SaveRequest.stream, SaveRequest.streams, Streams.stream, ht, hp]

theorem saveAll_eq_foldl (rs : List SaveRequest) (fs : Directory) :
    saveAll rs fs = some (rs.foldl (fun fs r => saved r fs) fs) := by
  induction rs generalizing fs with
  | nil => rfl
  | cons r rs ih =>
    rw [saveAll, runAll_eq_saved, Option.bind_some, ih]
    rfl

theorem saved_sameButTorrent (r : SaveRequest) (h : SameButTorrent d fs gs) :
    SameButTorrent d (saved r fs) (saved r gs) := by
  intro name hname
  simp only [saved, h name hname]

theorem foldl_saved_sameButTorrent (rs : List SaveRequest) (h : SameButTorrent d fs gs) :
    SameButTorrent d (rs.foldl (fun fs r => saved r fs) fs)
      (rs.foldl (fun fs r => saved r fs) gs) := by
  induction rs generalizing fs gs with
  | nil => exact h
  | cons r rs ih => exact ih (saved_sameButTorrent r h)

theorem mergeRequest_torrent (q r : SaveRequest) :
    torrentBytes (mergeRequest q r) = (torrentBytes q).or (torrentBytes r) := by
  rw [mergeRequest]
  cases hq : q.torrentStream <;> simp [torrentBytes, hq]

theorem mergeRequest_resumeStreams (q r : SaveRequest) :
    (mergeRequest q r).rtorrentStream = r.rtorrentStream ∧
      (mergeRequest q r).libtorrentStream = r.libtorrentStream := by
  rw [mergeRequest]
  split <;> exact ⟨rfl, rfl⟩

theorem saved_mergeRequest (hq : q.download = d) (hr : r.download = d) (fs : Directory) :
    SameButTorrent d (saved (mergeRequest q r) fs) (saved r (saved q fs)) := by
  rintro ⟨path, file, isNew⟩ hname
  obtain ⟨hrt, hlt⟩ := mergeRequest_resumeStreams q r
  have hm : (mergeRequest q r).path = buildPath d := by
    rw [SaveRequest.path, mergeRequest_download, hq]
  have hqp : q.path = buildPath d := by rw [SaveRequest.path, hq]
  have hrp : r.path = buildPath d := by rw [SaveRequest.path, hr]
  by_cases hp : path = buildPath d
  · cases file with
    | torrent =>
      have hnew : isNew = true := by
        cases isNew
        · exact absurd (by rw [hp, torrentName]) hname
        · rfl
      have hm' : (mergeRequest q r).stream .torrent = _ := mergeRequest_torrent q r
      have hq' : q.stream .torrent = torrentBytes q := rfl
      have hr' : r.stream .torrent = torrentBytes r := rfl
      cases hqt : torrentBytes q <;> cases hrt' : torrentBytes r <;>
        simp [saved, hm, hqp, hrp, hp, hnew, hm', hq', hr', hqt, hrt']
    | libtorrentResume =>
      simp [saved, SaveRequest.stream, SaveRequest.streams, Streams.stream, hm, hrp, hp, hlt]
    | rtorrent =>
      simp [saved, SaveRequest.stream, SaveRequest.streams, Streams.stream, hm, hrp, hp, hrt]
  · simp [saved, hm, hqp, hrp, hp]

theorem saved_foldl_mergeRequest {rs : List SaveRequest} (hq : q.download = d)
    (hrs : ∀ r ∈ rs, r.download = d) (fs : Directory) :
    SameButTorrent d (saved (rs.foldl mergeRequest q) fs)
      (rs.foldl (fun fs r => saved r fs) (saved q fs)) := by
  induction rs generalizing q with
  | nil => exact fun _ _ => rfl
  | cons r rs ih =>
    obtain ⟨hr, hrs⟩ := List.forall_mem_cons.mp hrs
    have hm : (mergeRequest q r).download = d := by rw [mergeRequest_download, hq]
    intro name hname
    calc saved (rs.foldl mergeRequest (mergeRequest q r)) fs name
        = rs.foldl (fun fs r => saved r fs) (saved (mergeRequest q r) fs) name :=
          ih hm hrs name hname
      _ = rs.foldl (fun fs r => saved r fs) (saved r (saved q fs)) name :=
          foldl_saved_sameButTorrent rs (saved_mergeRequest hq hr fs) name hname

theorem saved_torrent (hr : r.download = d) (fs : Directory) :
    saved r fs (torrentName d) = (torrentBytes r).or (fs (torrentName d)) := by
  have hp : r.path = buildPath d := by rw [SaveRequest.path, hr]
  have hs : r.stream .torrent = torrentBytes r := rfl
  cases ht : torrentBytes r <;> simp [saved, torrentName, hs, ht, hp]

theorem foldl_saved_torrent {rs : List SaveRequest} (hrs : ∀ r ∈ rs, r.download = d)
    (fs : Directory) :
    rs.foldl (fun fs r => saved r fs) fs (torrentName d) =
      (rs.reverse.findSome? torrentBytes).or (fs (torrentName d)) := by
  induction rs generalizing fs with
  | nil => rfl
  | cons r rs ih =>
    obtain ⟨hr, hrs⟩ := List.forall_mem_cons.mp hrs
    rw [List.foldl_cons, ih hrs, saved_torrent hr, List.reverse_cons, List.findSome?_append]
    cases ht : torrentBytes r <;> simp [ht]

theorem foldl_mergeRequest_torrent (q : SaveRequest) (rs : List SaveRequest) :
    torrentBytes (rs.foldl mergeRequest q) = (q :: rs).findSome? torrentBytes := by
  induction rs generalizing q with
  | nil => cases h : torrentBytes q <;> simp [h]
  | cons r rs ih =>
    rw [List.foldl_cons, ih]
    cases hq : torrentBytes q <;> simp [List.findSome?_cons, mergeRequest_torrent, hq]

theorem foldl_mergeRequest_download (q : SaveRequest) (rs : List SaveRequest) :
    (rs.foldl mergeRequest q).download = q.download := by
  induction rs generalizing q with
  | nil => rfl
  | cons r rs ih => rw [List.foldl_cons, ih, mergeRequest_download]

theorem findSome_reverse_isSome (rs : List SaveRequest) :
    (rs.reverse.findSome? torrentBytes).isSome =
      (rs.findSome? torrentBytes).isSome := by
  rw [Bool.eq_iff_iff, List.findSome?_isSome_iff, List.findSome?_isSome_iff]
  simp only [List.mem_reverse]

theorem or_eq_or_iff {a b x : Option Bytes} (h : b.isSome = a.isSome) :
    a.or x = b.or x ↔ a = b := by
  cases a <;> cases b <;> simp at h ⊢

theorem SameButTorrent.eq_iff (h : SameButTorrent d fs gs) :
    fs = gs ↔ fs (torrentName d) = gs (torrentName d) := by
  constructor
  · intro hfs
    rw [hfs]
  · intro ht
    funext name
    by_cases hname : name = torrentName d
    · rw [hname, ht]
    · exact h name hname

/-- A merged request and the requests one after another leave the same files, but for the torrent
file, where merging keeps the first torrent stream and saving in order the last one. -/
theorem merged_save_files {queue : List SaveRequest} {es : List QueueEvent}
    (hnone : queuedOf d queue = []) (hk : Keeps d es queue) (hrs : requestsOf d es ≠ []) :
    ∃ qs m, queueRun es queue = .ok qs ∧ queuedOf d qs = [m] ∧
      ∀ fs, ∃ gs hs, FileOp.runAll m.path (saveAndMoveStreams m.streams) fs = some gs ∧
        saveAll (requestsOf d es) fs = some hs ∧ SameButTorrent d gs hs ∧
        gs (torrentName d) =
          ((requestsOf d es).findSome? torrentBytes).or (fs (torrentName d)) ∧
        hs (torrentName d) =
          ((requestsOf d es).reverse.findSome? torrentBytes).or
            (fs (torrentName d)) ∧
        (gs = hs ↔ (requestsOf d es).findSome? torrentBytes =
          (requestsOf d es).reverse.findSome? torrentBytes) := by
  have hown : ∀ r ∈ requestsOf d es, r.download = d := fun r hr => download_of_mem_requestsOf hr
  obtain ⟨qs, hrun, hqueued⟩ := queueRun_queued hk
  obtain ⟨q, rs, hq⟩ := List.exists_cons_of_ne_nil hrs
  rw [hq] at hown hqueued ⊢
  obtain ⟨hqd, hrsd⟩ := List.forall_mem_cons.mp hown
  have hmd : (rs.foldl mergeRequest q).download = d := by rw [foldl_mergeRequest_download, hqd]
  refine ⟨qs, rs.foldl mergeRequest q, hrun, ?_, fun fs => ?_⟩
  · rw [hqueued, hnone]
    exact mergeAll_singleton q rs
  have hsame : SameButTorrent d (saved (rs.foldl mergeRequest q) fs)
      ((q :: rs).foldl (fun fs r => saved r fs) fs) := saved_foldl_mergeRequest hqd hrsd fs
  have hmerged := saved_torrent hmd fs
  have hordered := foldl_saved_torrent hown fs
  rw [foldl_mergeRequest_torrent] at hmerged
  refine ⟨_, _, runAll_eq_saved _ fs, saveAll_eq_foldl _ fs, hsame, hmerged, hordered, ?_⟩
  rw [hsame.eq_iff, hmerged, hordered]
  exact or_eq_or_iff (findSome_reverse_isSome _)

def resumeSave (rtorrent libtorrent : UInt8) : SaveRequest :=
  ⟨0, none, ⟨rtorrent, []⟩, ⟨libtorrent, []⟩⟩

def fullSave (torrent rtorrent libtorrent : UInt8) : SaveRequest :=
  ⟨0, some ⟨torrent, []⟩, ⟨rtorrent, []⟩, ⟨libtorrent, []⟩⟩

theorem resume_full_resume_saved :
    ∃ qs m, queueRun [.put (resumeSave 1 2), .put (fullSave 9 3 4), .put (resumeSave 5 6)] [] =
        .ok qs ∧ queuedOf 0 qs = [m] ∧
      ∀ fs, ∃ gs, FileOp.runAll m.path (saveAndMoveStreams m.streams) fs = some gs ∧
        saveAll [resumeSave 1 2, fullSave 9 3 4, resumeSave 5 6] fs = some gs := by
  have hkeeps : Keeps 0 [.put (resumeSave 1 2), .put (fullSave 9 3 4), .put (resumeSave 5 6)]
      [] := by
    simp [Keeps]
  obtain ⟨qs, m, hrun, hm, h⟩ := merged_save_files rfl hkeeps (by decide)
  refine ⟨qs, m, hrun, hm, fun fs => ?_⟩
  obtain ⟨gs, hs, hgs, hhs, -, -, -, heq⟩ := h fs
  obtain rfl : gs = hs := heq.mpr (by decide)
  exact ⟨gs, hgs, hhs⟩

/-- Two full saves with different torrent streams: the merged request writes the first one. -/
theorem full_full_differs :
    queueRun [.put (fullSave 1 3 4), .put (fullSave 2 5 6)] [] = .ok [fullSave 1 5 6] ∧
      (FileOp.runAll (buildPath 0) (saveAndMoveStreams (fullSave 1 5 6).streams)
        fun _ => none).map (· (torrentName 0)) = some (some [1]) ∧
      (saveAll [fullSave 1 3 4, fullSave 2 5 6] fun _ => none).map (· (torrentName 0)) =
        some (some [2]) :=
  ⟨rfl, rfl, rfl⟩

end

end SaveRequestMerging
