import Mathlib.Data.List.Basic

/-! # Session files of a download

`save_and_move_streams` puts up to three byte streams into their files: all the `.new` files
are written first and then renamed. -/
namespace SessionDownloadStorer

/-- A loaded download. Its info-hash is unique among the loaded downloads. -/
abbrev Download := ℕ

abbrev Bytes := List UInt8

inductive SessionFile where
  | torrent
  | libtorrentResume
  | rtorrent
  deriving DecidableEq, Repr

/-- The session path followed by the info-hash and `.torrent`. -/
structure Path where
  infoHash : ℕ
  deriving DecidableEq, Repr

def buildPath (d : Download) : Path := ⟨d⟩

/-- A path with the suffix of one of the three files, and `.new` after it if `isNew`. -/
structure FileName where
  path : Path
  file : SessionFile
  isNew : Bool
  deriving DecidableEq, Repr

abbrev Directory := FileName → Option Bytes

/-- The arguments of `save_and_move_streams`. Only the torrent stream can be null. -/
structure Streams where
  torrent : Option Bytes
  rtorrent : Bytes
  libtorrent : Bytes
  deriving DecidableEq, Repr

def Streams.stream (x : Streams) : SessionFile → Option Bytes
  | .torrent => x.torrent
  | .libtorrentResume => some x.libtorrent
  | .rtorrent => some x.rtorrent

/-- The stream of a request is a bencoded object, which has a byte at least. -/
structure Stream where
  first : UInt8
  rest : Bytes
  deriving DecidableEq, Inhabited, Repr

def Stream.bytes (s : Stream) : Bytes := s.first :: s.rest

@[simp] theorem Stream.bytes_ne_nil (s : Stream) : s.bytes ≠ [] := List.cons_ne_nil _ _

structure SaveRequest where
  download : Download
  torrentStream : Option Stream
  rtorrentStream : Stream
  libtorrentStream : Stream
  deriving DecidableEq, Repr

/-- Every request takes its path from `build_path`. -/
def SaveRequest.path (r : SaveRequest) : Path := buildPath r.download

def SaveRequest.streams (r : SaveRequest) : Streams :=
  ⟨r.torrentStream.map Stream.bytes, r.rtorrentStream.bytes, r.libtorrentStream.bytes⟩

def SaveRequest.stream (r : SaveRequest) (file : SessionFile) : Option Bytes :=
  r.streams.stream file

/-- The two file-system effects of a save: `save_stream` on a `.new` file and `rename`. -/
inductive FileOp where
  | saveStream (file : SessionFile) (stream : Bytes)
  | rename (file : SessionFile)
  deriving DecidableEq, Repr

def saveAndMoveStreams (x : Streams) : List FileOp :=
  (x.torrent.map (FileOp.saveStream .torrent)).toList ++
    [.saveStream .libtorrentResume x.libtorrent, .saveStream .rtorrent x.rtorrent] ++
    (x.torrent.map (fun _ => FileOp.rename .torrent)).toList ++
    [.rename .libtorrentResume, .rename .rtorrent]

/-- `none` is a `storage_error`: `operator<<` sets the failbit when the stream has no bytes, and a
rename needs its `.new` file. -/
def FileOp.run (path : Path) (fs : Directory) : FileOp → Option Directory
  | .saveStream file stream =>
    if stream = [] then none else some (Function.update fs ⟨path, file, true⟩ (some stream))
  | .rename file =>
    (fs ⟨path, file, true⟩).map fun stream =>
      Function.update (Function.update fs ⟨path, file, true⟩ none) ⟨path, file, false⟩ (some stream)

def FileOp.runAll (path : Path) : List FileOp → Directory → Option Directory
  | [], fs => some fs
  | o :: ops, fs => (o.run path fs).bind (runAll path ops)

def unlinkFiles (d : Download) (fs : Directory) : Directory := fun name =>
  if name.path = buildPath d ∧ name.isNew = false then none else fs name

/-- The two directories have the same files under one path. -/
def SameFiles (path : Path) (fs gs : Directory) : Prop :=
  ∀ file isNew, fs ⟨path, file, isNew⟩ = gs ⟨path, file, isNew⟩

variable {path : Path} {fs gs : Directory}

theorem SameFiles.symm (h : SameFiles path fs gs) : SameFiles path gs fs :=
  fun file isNew => (h file isNew).symm

variable {o : FileOp}

theorem FileOp.runAll_nil : FileOp.runAll path [] fs = some gs ↔ fs = gs := Option.some_inj

theorem FileOp.runAll_saveStream {file : SessionFile} {stream : Bytes} {ops : List FileOp} :
    FileOp.runAll path (.saveStream file stream :: ops) fs = some gs ↔ stream ≠ [] ∧
      FileOp.runAll path ops (Function.update fs ⟨path, file, true⟩ (some stream)) = some gs := by
  by_cases h : stream = [] <;> simp [FileOp.runAll, FileOp.run, h]

theorem FileOp.runAll_rename {file : SessionFile} {ops : List FileOp} :
    FileOp.runAll path (.rename file :: ops) fs = some gs ↔ ∃ stream,
      fs ⟨path, file, true⟩ = some stream ∧ FileOp.runAll path ops
        (Function.update (Function.update fs ⟨path, file, true⟩ none) ⟨path, file, false⟩
          (some stream)) = some gs := by
  cases h : fs ⟨path, file, true⟩ <;> simp [FileOp.runAll, FileOp.run, h]

/-- A file operation of one download leaves the files of every other download alone. -/
theorem FileOp.run_frame {other : Path}
    (h : o.run path fs = some gs) (hp : other ≠ path) : SameFiles other gs fs := by
  intro file isNew
  cases o with
  | saveStream f b =>
    obtain ⟨-, h⟩ := Option.ite_none_left_eq_some.mp h
    cases h
    simp [hp]
  | rename f =>
    obtain ⟨b, -, rfl⟩ := Option.map_eq_some_iff.mp h
    simp [hp]

theorem unlinkFiles_frame {d : Download} (fs : Directory) (h : path ≠ buildPath d) :
    SameFiles path (unlinkFiles d fs) fs := by
  intro file isNew
  simp [unlinkFiles, h]

variable {fs' : Directory}

theorem FileOp.run_congr (hs : SameFiles path fs fs') (h : o.run path fs = some gs) :
    ∃ gs', o.run path fs' = some gs' ∧ SameFiles path gs gs' := by
  cases o with
  | saveStream f b =>
    obtain ⟨hb, h⟩ := Option.ite_none_left_eq_some.mp h
    cases h
    refine ⟨_, if_neg hb, ?_⟩
    intro file isNew
    simp [Function.update_apply, hs file isNew]
  | rename f =>
    obtain ⟨b, hb, rfl⟩ := Option.map_eq_some_iff.mp h
    refine ⟨_, by rw [FileOp.run, ← hs, hb]; rfl, ?_⟩
    intro file isNew
    simp [Function.update_apply, hs file isNew]

/-- What a list of operations does to the files of its path depends on those files only. -/
theorem FileOp.runAll_congr {ops : List FileOp}
    (hs : SameFiles path fs fs') (h : FileOp.runAll path ops fs = some gs) :
    ∃ gs', FileOp.runAll path ops fs' = some gs' ∧ SameFiles path gs gs' := by
  induction ops generalizing fs fs' with
  | nil =>
    cases h
    exact ⟨fs', rfl, hs⟩
  | cons o ops ih =>
    obtain ⟨fs₁, ho, hr⟩ := Option.bind_eq_some_iff.mp h
    obtain ⟨fs₂, ho', hs'⟩ := FileOp.run_congr hs ho
    obtain ⟨gs', hr', hg⟩ := ih hs' hr
    exact ⟨gs', by simp [FileOp.runAll, ho', hr'], hg⟩

/-- An undisturbed save succeeds and leaves each of its streams in its file. -/
theorem runAll_saveAndMoveStreams {x : Streams} (path : Path) (fs : Directory)
    (hx : ∀ file stream, x.stream file = some stream → stream ≠ []) :
    ∃ gs, FileOp.runAll path (saveAndMoveStreams x) fs = some gs ∧
      ∀ f, gs ⟨path, f, false⟩ = (x.stream f).or (fs ⟨path, f, false⟩) := by
  have hr : x.rtorrent ≠ [] := hx .rtorrent _ rfl
  have hl : x.libtorrent ≠ [] := hx .libtorrentResume _ rfl
  cases ht : x.torrent with
  | none =>
    refine ⟨_, by simp [saveAndMoveStreams, ht, hr, hl, FileOp.runAll, FileOp.run]; rfl, ?_⟩
    intro f
    cases f <;> simp [Streams.stream, ht]
  | some b =>
    have hb : b ≠ [] := hx .torrent b ht
    refine ⟨_, by simp [saveAndMoveStreams, ht, hb, hr, hl, FileOp.runAll, FileOp.run]; rfl, ?_⟩
    intro f
    cases f <;> simp [Streams.stream, ht]

theorem SaveRequest.stream_ne_nil {r : SaveRequest} {file : SessionFile} {stream : Bytes}
    (h : r.stream file = some stream) : stream ≠ [] := by
  cases file with
  | torrent =>
    obtain ⟨s, -, rfl⟩ := Option.map_eq_some_iff.mp h
    exact s.bytes_ne_nil
  | libtorrentResume =>
    cases h
    exact r.libtorrentStream.bytes_ne_nil
  | rtorrent =>
    cases h
    exact r.rtorrentStream.bytes_ne_nil

end SessionDownloadStorer
