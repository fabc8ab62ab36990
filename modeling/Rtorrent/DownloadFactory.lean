import Rtorrent.ObjectPrinting

/-! # The download factory

Loading and committing are tasks of the scheduler, and the callback of a request runs later.
The finished slot deletes the factory, which takes its tasks out of the scheduler. Commands
and the library change the rest of the program in any way, with any result. -/
namespace DownloadFactory

open FallibleRuns RpcTextParser TransitionSystems
open RpcCommandMap (Error)
open ObjectPrinting (expandPath)
open XmlRpcDocument (decodeBase64)

inductive Mark where
  | loaded
  | commited
  | created
  | finished
  deriving DecidableEq, Repr

structure Factory (ω : Type) where
  world : ω
  uri : Text
  hasStream : Bool
  isLoaded : Bool
  isCommited : Bool
  session : Bool
  initLoad : Bool
  tiedToFile : Bool
  commands : List Text
  loadTask : Bool
  commitTask : Bool
  httpGet : Bool
  log : List Mark

structure Environment (ω : Type) where
  home : Option Text
  cacheInsert : Text → Run Error ω Bool
  /-- No result when the file cannot be opened, and whether the stream is good. -/
  readFile : Text → Run Error ω (Option Bool)
  loadStream : Text → Run Error ω Unit
  httpInsert : Text → Run Error ω Unit
  /-- `false` when the stream is no torrent. -/
  downloadAdd : Run Error ω Bool
  command : String → Run Error ω ℤ
  initializeRtorrent : Run Error ω Unit
  fileSplitAll : Run Error ω Unit
  hasDirectory : ω → Bool
  resumeLoad : Run Error ω Unit
  /-- `false` for `end()`. -/
  insertDownload : Run Error ω Bool
  parseCommandMultiple : Text → Run Error ω Unit
  isListed : ω → Bool

abbrev FactoryRun (ω α : Type) := Run Error (Factory ω) α

def startsWith (start : String) (uri : Text) : Bool := start.toList.isPrefixOf uri

def isNetworkUri (uri : Text) : Bool :=
  startsWith "http://" uri || startsWith "https://" uri || startsWith "ftp://" uri

def isMagnetUri (uri : Text) : Bool := startsWith "magnet:?" uri

def isDataUri (uri : Text) : Bool := startsWith "data:" uri

def isInputError (e : Error) : Bool := e.1 == .inputError || e.1 == .untrustedError

def isLocalError (e : Error) : Bool := isInputError e || e.1 == .localError

variable {ω : Type}

def lift {α : Type} (f : Run Error ω α) : FactoryRun ω α := fun s =>
  ((f s.world).1, { s with world := (f s.world).2 })

def record (mark : Mark) : FactoryRun ω Unit :=
  Run.modify fun s => { s with log := s.log ++ [mark] }

/-- The slot, which deletes the factory. -/
def slotFinished : FactoryRun ω Unit :=
  Run.modify fun s => { s with loadTask := false, commitTask := false, log := s.log ++ [.finished] }

def catchInputError {σ : Type} (x : Run Error σ Unit) : Run Error σ Unit :=
  Run.handle x fun e => if isInputError e then pure () else Run.fail e

section

variable (env : Environment ω)

def expanded (path : Text) : Except Error Text :=
  match expandPath env.home path with
  | .ok path => .ok path
  | .error (.error kind what) => .error (kind, what)
  | .error .outOfFuel => .error (.internalError, "")

def setFrom (key source : String) : Run Error ω Unit := do
  let _ ← env.command source
  let _ ← env.command key
  pure ()

def setAll : List (String × String) → Run Error ω Unit
  | [] => pure ()
  | (key, source) :: rest => do
    setFrom env key source
    setAll rest

def limitCommands : List (String × String) :=
  [("d.uploads_min.set", "throttle.min_uploads"), ("d.uploads_max.set", "throttle.max_uploads"),
    ("d.downloads_min.set", "throttle.min_downloads"),
    ("d.downloads_max.set", "throttle.max_downloads"),
    ("d.peers_min.set", "throttle.min_peers.normal"),
    ("d.peers_max.set", "throttle.max_peers.normal"),
    ("d.tracker_numwant.set", "trackers.numwant"), ("d.max_file_size.set", "system.file.max_size")]

def setSeedLimit (key source : String) : Run Error ω Unit := do
  let limit ← env.command source
  if 0 ≤ limit then setFrom env key source else pure ()

def splitFiles : Run Error ω Unit := do
  let size ← env.command "system.file.split_size"
  if 0 ≤ size then do
    let _ ← env.command "system.file.split_size"
    let _ ← env.command "system.file.split_suffix"
    env.fileSplitAll
  else pure ()

def setSeedLimits : Run Error ω Unit := do
  let complete ← env.command "d.complete"
  if complete ≠ 0 then do
    setSeedLimit env "d.peers_min.set" "throttle.min_peers.seed"
    setSeedLimit env "d.peers_max.set" "throttle.max_peers.seed"
  else pure ()

def commandIf (condition : Bool) (key : String) : Run Error ω Unit :=
  if condition then do
    let _ ← env.command key
    pure ()
  else pure ()

/-- What is done to a new download outside of a `try` block. -/
def configure (s : Factory ω) : Run Error ω Unit := do
  env.initializeRtorrent
  setAll env limitCommands
  setSeedLimits env
  commandIf env s.initLoad "trackers.delay_scrape"
  splitFiles env
  let world ← Run.get
  let _ ← env.command (if env.hasDirectory world then "d.directory_base.set"
    else "d.directory.set")
  commandIf env (!s.session && s.tiedToFile) "d.tied_to_file.set"
  let _ ← env.command "d.peer_exchange.set"
  pure ()

def openSession (s : Factory ω) : Run Error ω Unit := do
  let path ← Run.ofExcept (expanded env s.uri)
  env.loadStream (path ++ ".rtorrent".toList)
  env.loadStream (path ++ ".libtorrent_resume".toList)

/-- `DownloadList::create`, which catches a `local_error`. -/
def createDownload : Run Error ω Bool :=
  Run.handle env.downloadAdd fun e => if isLocalError e then pure false else Run.fail e

def parseCommands : List Text → Run Error ω Unit
  | [] => pure ()
  | text :: texts => do
    env.parseCommandMultiple text
    parseCommands texts

def runCommands (s : Factory ω) : Run Error ω Unit := do
  parseCommands env s.commands
  let world ← Run.get
  if !env.isListed world then
    Run.fail (.inputError, "The newly created download was removed.")
  else do
    commandIf env (!s.session) "d.state.set"
    catchInputError (commandIf env true
      (if s.session then "event.download.inserted_session" else "event.download.inserted_new"))

/-- The commands cannot change the factory's own fields. -/
def receiveSuccess : FactoryRun ω Unit := do
  let s ← Run.get
  lift (openSession env s)
  let created ← lift (createDownload env)
  if !created then slotFinished
  else do
    record .created
    lift (configure env s)
    lift (catchInputError env.resumeLoad)
    let inserted ← lift env.insertDownload
    if !inserted then slotFinished
    else do
      lift (catchInputError (runCommands env s))
      slotFinished

def receiveLoaded : FactoryRun ω Unit := do
  Run.modify fun s => { s with isLoaded := true, log := s.log ++ [.loaded] }
  let s ← Run.get
  if s.isCommited then receiveSuccess env else pure ()

def receiveCommit : FactoryRun ω Unit := do
  Run.modify fun s => { s with isCommited := true, log := s.log ++ [.commited] }
  let s ← Run.get
  if s.isLoaded then receiveSuccess env else pure ()

/-- The message is only logged. -/
def receiveFailed (_msg : String) : FactoryRun ω Unit := slotFinished

def receiveLoad : FactoryRun ω Unit := do
  let s ← Run.get
  if s.hasStream then
    Run.fail (.internalError,
      "DownloadFactory::load*() called on an object with m_stream != NULL")
  else if isNetworkUri s.uri then do
    Run.modify fun s => { s with hasStream := true }
    lift (env.httpInsert s.uri)
    Run.modify fun s => { s with httpGet := true, tiedToFile := false }
  else if isMagnetUri s.uri then do
    Run.modify fun s => { s with hasStream := true, tiedToFile := false }
    receiveLoaded env
  else do
    let path ← Run.ofExcept (expanded env s.uri)
    match ← lift (env.readFile path) with
    | none => receiveFailed "Could not open file"
    | some false => receiveFailed "Reading torrent file failed"
    | some true => receiveLoaded env

inductive Task where
  | load
  | commit
  | httpDone
  | httpFailed (error : String)
  deriving DecidableEq, Repr

def handler : Task → FactoryRun ω Unit
  | .load => do
    Run.modify fun s => { s with loadTask := false }
    receiveLoad env
  | .commit => do
    Run.modify fun s => { s with commitTask := false }
    receiveCommit env
  | .httpDone => do
    Run.modify fun s => { s with httpGet := false }
    receiveLoaded env
  | .httpFailed error => do
    Run.modify fun s => { s with httpGet := false }
    receiveFailed error

def Enabled (s : Factory ω) : Task → Prop
  | .load => s.loadTask = true
  | .commit => s.commitTask = true
  | .httpDone => s.httpGet = true
  | .httpFailed _ => s.httpGet = true

def machine : Machine (Factory ω) Task := ⟨Enabled, fun s task => (handler env task s).2⟩

def Quiescent (s : Factory ω) : Prop := ∀ task, ¬ Enabled s task

def createTied : BitVec 32 := 0x2
def createRawData : BitVec 32 := 0x8

def behindFirst (pattern : Text) : Text → Option Text
  | [] => none
  | c :: rest =>
    if pattern.isPrefixOf (c :: rest) then some ((c :: rest).drop pattern.length)
    else behindFirst pattern rest

def decodeDataUri (uri : Text) : Except Error Text :=
  match behindFirst "base64,".toList (uri.drop 5) with
  | none => .error (.inputError, "Invalid data uri: not base64 encoded.")
  | some [] => .error (.inputError, "Empty base64.")
  | some text =>
    match decodeBase64 text with
    | .ok data => .ok data
    | .error (.inputError what) => .error (.inputError, what)
    | .error (.rpcError type what) => .error (.rpcError type, what)
    | .error .nullPointer => .error (.internalError, "")

namespace Factory

def load (uri : Text) (f : Factory ω) : Factory ω := { f with uri := uri, loadTask := true }

def loadRawData (f : Factory ω) : Factory ω :=
  { f with hasStream := true, isLoaded := true, log := f.log ++ [.loaded] }

def commit (f : Factory ω) : Factory ω := { f with commitTask := true }

def new (world : ω) (session initLoad tiedToFile : Bool) (commands : List Text) : Factory ω :=
  { world := world, uri := [], hasStream := false, isLoaded := false, isCommited := false
    session := session, initLoad := initLoad, tiedToFile := tiedToFile, commands := commands
    loadTask := false, commitTask := false, httpGet := false, log := [] }

end Factory

inductive Request where
  | tryCreateDownload (uri : Text) (flags : BitVec 32) (commands : List Text)
  | load (uri : Text) (session initLoad tiedToFile : Bool) (commands : List Text)

/-- A file that was tried before is skipped. -/
def checkCache (uri : Text) (flags : BitVec 32) : Run Error ω Bool :=
  if RpcCommandMap.hasFlag flags createTied && !RpcCommandMap.hasFlag flags createRawData &&
      !isNetworkUri uri && !isMagnetUri uri && !isDataUri uri then env.cacheInsert uri
  else pure true

/-- The constructor calls a command. -/
def newFactory (world : ω) (session initLoad tiedToFile : Bool) (commands : List Text) :
    Option (Factory ω) :=
  match env.command "directory.default" world with
  | (.ok _, world) => some (.new world session initLoad tiedToFile commands)
  | (.error _, _) => none

/-- `try_create_download` with a new factory. Where the data cannot be decoded, the exception
leaves the factory behind. -/
def handOver (uri : Text) (flags : BitVec 32) (f : Factory ω) : Factory ω :=
  if isDataUri uri then
    match decodeDataUri uri with
    | .ok _ => { f.loadRawData with tiedToFile := false }.commit
    | .error _ => f
  else if RpcCommandMap.hasFlag flags createRawData then f.loadRawData.commit
  else (f.load uri).commit

def made (world : ω) : Request → Option (Factory ω)
  | .tryCreateDownload uri flags commands =>
    match checkCache env uri flags world with
    | (.ok true, world) =>
      (newFactory env world false false (RpcCommandMap.hasFlag flags createTied) commands).map
        (handOver uri flags)
    | _ => none
  | .load uri session initLoad tiedToFile commands =>
    (newFactory env world session initLoad tiedToFile commands).map fun f => (f.load uri).commit

def markLoaded (s : Factory ω) : Factory ω :=
  { s with isLoaded := true, log := s.log ++ [.loaded] }

def markCommited (s : Factory ω) : Factory ω :=
  { s with isCommited := true, log := s.log ++ [.commited] }

def Returns {σ α : Type} (next : α → σ → Prop) (x : Run Error σ α) (s : σ) : Prop :=
  Ends next (fun _ _ => False) x s

/-- The commands that run on an inserted download throw nothing but an `input_error`. -/
def InsertReturns (s : Factory ω) (world : ω) : Prop :=
  Returns (fun inserted w => inserted = true →
    Ends (fun _ _ => True) (fun e _ => isInputError e = true) (runCommands env s) w)
    env.insertDownload world

/-- The download is set up, and reading its resume data throws nothing but an
`input_error`. -/
def SetupReturns (s : Factory ω) (world : ω) : Prop :=
  Returns (fun _ w =>
    Ends (fun _ w => InsertReturns env s w)
      (fun e w => isInputError e = true ∧ InsertReturns env s w) env.resumeLoad w)
    (configure env s) world

/-- The session files are read, and creating the download throws nothing but a
`local_error`. -/
def SuccessReturns (s : Factory ω) : Prop :=
  Returns (fun _ w =>
    Ends (fun created w => created = true → SetupReturns env s w)
      (fun e _ => isLocalError e = true) env.downloadAdd w)
    (openSession env s) s.world

def LoadReturns (s : Factory ω) : Prop :=
  if isNetworkUri s.uri then Returns (fun _ _ => True) (env.httpInsert s.uri) s.world
  else if isMagnetUri s.uri then
    s.isCommited = true →
      SuccessReturns env (markLoaded { s with hasStream := true, tiedToFile := false })
  else ∃ path, expanded env s.uri = .ok path ∧
    Returns (fun good w => good = some true → s.isCommited = true →
      SuccessReturns env (markLoaded { s with world := w })) (env.readFile path) s.world

/-- No exception leaves the task. -/
def Contained (s : Factory ω) : Task → Prop
  | .load => LoadReturns env { s with loadTask := false }
  | .commit => s.isLoaded = true → SuccessReturns env (markCommited { s with commitTask := false })
  | .httpDone => s.isCommited = true → SuccessReturns env (markLoaded { s with httpGet := false })
  | .httpFailed _ => True

def Decodes : Request → Prop
  | .tryCreateDownload uri _ _ => isDataUri uri = true → ∃ data, decodeDataUri uri = .ok data
  | .load _ _ _ _ _ => True

/-- A download is created at most once, behind loading and commit. -/
structure CreatedOnce (log : List Mark) : Prop where
  once : log.count .created ≤ 1
  behind : ∀ before after, log = before ++ .created :: after → .loaded ∈ before ∧ .commited ∈ before

structure Completed (s : Factory ω) : Prop where
  finished : s.log.count .finished = 1
  created : CreatedOnce s.log

theorem ends_lift_bind_iff {α β : Type} {f : Run Error ω α} {g : α → FactoryRun ω β}
    {Q : β → Factory ω → Prop} {F : Error → Factory ω → Prop} {s : Factory ω} :
    Ends Q F (lift f >>= g) s ↔ Ends (fun a w => Ends Q F (g a) { s with world := w })
      (fun e w => F e { s with world := w }) f s.world := by
  rw [ends_bind_iff]
  unfold Ends lift
  rcases f s.world with ⟨e | a, w⟩
  · rfl
  · rfl

def Breaks (s t : Factory ω) : Prop :=
  ∃ world marks, (marks = [] ∨ marks = [.created]) ∧
    t = { s with world := world, log := s.log ++ marks }

def Finishes (s t : Factory ω) : Prop :=
  ∃ world marks, (marks = [] ∨ marks = [.created]) ∧
    t = { s with
      world := world, loadTask := false, commitTask := false
      log := s.log ++ marks ++ [.finished] }

variable {s t : Factory ω}

theorem breaks_world (s : Factory ω) (world : ω) : Breaks s { s with world := world } :=
  ⟨world, [], .inl rfl, by rw [List.append_nil]⟩

theorem breaks_created (s : Factory ω) (world : ω) :
    Breaks s { s with world := world, log := s.log ++ [.created] } :=
  ⟨world, [.created], .inr rfl, rfl⟩

theorem slotFinished_finishes (h : Breaks s t) :
    Ends (fun _ u => Finishes s u) (fun _ u => Breaks s u) slotFinished t := by
  obtain ⟨w, marks, hm, rfl⟩ := h
  exact ⟨w, marks, hm, rfl⟩

variable {α : Type} {f : Run Error ω α}

theorem ends_lift_bind {β : Type} {g : α → FactoryRun ω β} {Q : β → Factory ω → Prop}
    (hf : ∀ w, Breaks t { s with world := w })
    (hq : ∀ a w, Ends Q (fun _ u => Breaks t u) (g a) { s with world := w }) :
    Ends Q (fun _ u => Breaks t u) (lift f >>= g) s := by
  rw [ends_lift_bind_iff, Ends]
  split
  · exact hq _ _
  · exact hf _

theorem receiveSuccess_ends (s : Factory ω) :
    Ends (fun _ t => Finishes s t) (fun _ t => Breaks s t) (receiveSuccess env) s := by
  refine ends_get (ends_lift_bind (breaks_world s) fun _ w => ?_)
  refine ends_lift_bind (breaks_world s) fun created w => ?_
  cases created with
  | false => exact slotFinished_finishes (breaks_world s w)
  | true =>
    refine ends_modify (ends_lift_bind (breaks_created s) fun _ w => ?_)
    refine ends_lift_bind (breaks_created s) fun _ w => ?_
    refine ends_lift_bind (breaks_created s) fun inserted w => ?_
    cases inserted with
    | false => exact slotFinished_finishes (breaks_created s w)
    | true =>
      refine ends_lift_bind (breaks_created s) fun _ w => ?_
      exact slotFinished_finishes (breaks_created s w)

/-! The condition is when it returns. -/

theorem catchInputError_returns_iff {σ : Type} {x : Run Error σ Unit} {next : Unit → σ → Prop}
    {s : σ} : Returns next (catchInputError x) s ↔
      Ends next (fun e t => isInputError e = true ∧ next () t) x s := by
  refine ends_handle_iff.trans (ends_congr (fun _ _ => Iff.rfl) fun e t => ?_)
  cases he : isInputError e with
  | true => exact ⟨fun h => ⟨rfl, h⟩, fun h => h.2⟩
  | false => exact ⟨fun h => h.elim, fun h => by cases h.1⟩

theorem insertReturns_iff (s t : Factory ω) : InsertReturns env s t.world ↔
    Returns (fun _ _ => True) (do
      let inserted ← lift env.insertDownload
      if !inserted then slotFinished
      else do
        lift (catchInputError (runCommands env s))
        slotFinished) t := by
  refine .symm (ends_lift_bind_iff.trans (ends_congr (fun inserted w => ?_) fun _ _ => Iff.rfl))
  cases inserted with
  | false => exact ⟨fun _ h => (by cases h), fun _ => trivial⟩
  | true =>
    refine Iff.trans ?_ (forall_prop_of_true rfl).symm
    refine ends_lift_bind_iff.trans (catchInputError_returns_iff.trans ?_)
    exact ends_congr (fun _ _ => Iff.rfl) fun e _ => and_iff_left trivial

theorem successReturns_iff (s : Factory ω) :
    SuccessReturns env s ↔ Returns (fun _ _ => True) (receiveSuccess env) s := by
  refine .symm (ends_lift_bind_iff.trans (ends_congr (fun _ w => ?_) fun _ _ => Iff.rfl))
  refine ends_lift_bind_iff.trans
    (ends_handle_iff.trans (ends_congr (fun created w => ?_) fun e w => ?_))
  · cases created with
    | false => exact ⟨fun _ h => (by cases h), fun _ => trivial⟩
    | true =>
      refine Iff.trans ?_ (forall_prop_of_true rfl).symm
      refine ends_lift_bind_iff.trans (ends_congr (fun _ w => ?_) fun _ _ => Iff.rfl)
      refine ends_lift_bind_iff.trans (catchInputError_returns_iff.trans ?_)
      refine ends_congr (fun _ w => (insertReturns_iff env s _).symm) fun e w => ?_
      exact and_congr_right fun _ => (insertReturns_iff env s _).symm
  · cases he : isLocalError e with
    | true => exact ⟨fun _ => rfl, fun _ => trivial⟩
    | false => exact ⟨fun h => h.elim, fun h => by cases h⟩

theorem receiveSuccess_cases (s : Factory ω) :
    SuccessReturns env s ∧ Finishes s (receiveSuccess env s).2 ∨
      ¬ SuccessReturns env s ∧ Breaks s (receiveSuccess env s).2 := by
  have h := receiveSuccess_ends env s
  rw [successReturns_iff, Returns]
  unfold Ends at h ⊢
  cases hs : receiveSuccess env s with
  | mk r t =>
    rw [hs] at h
    cases r with
    | ok a => exact .inl ⟨trivial, h⟩
    | error e => exact .inr ⟨not_false, h⟩

structure Waiting (s : Factory ω) : Prop where
  unfinished : .finished ∉ s.log
  uncreated : .created ∉ s.log
  loaded : s.isLoaded = true → .loaded ∈ s.log
  commited : s.isCommited = true → .commited ∈ s.log
  load : s.isLoaded = false → s.loadTask ≠ s.httpGet
  idle : s.isLoaded = true → s.loadTask = false ∧ s.httpGet = false
  commit : s.commitTask = !s.isCommited
  apart : s.isLoaded = true → s.isCommited = false
  stream : s.loadTask = true → s.hasStream = false

structure Done (s : Factory ω) : Prop where
  finished : s.log.count .finished = 1
  created : CreatedOnce s.log
  load : s.loadTask = false
  commit : s.commitTask = false
  http : s.httpGet = false

/-- An exception has left a task. The factory is not deleted and the slot is not called. -/
structure Stuck (s : Factory ω) : Prop where
  unfinished : .finished ∉ s.log
  created : CreatedOnce s.log
  load : s.loadTask = false
  http : s.httpGet = false
  commit : s.commitTask = true → s.isLoaded = false

structure Loading (s : Factory ω) : Prop where
  unfinished : .finished ∉ s.log
  uncreated : .created ∉ s.log
  commited : s.isCommited = true → .commited ∈ s.log
  unloaded : s.isLoaded = false
  load : s.loadTask = false
  http : s.httpGet = false
  commit : s.commitTask = !s.isCommited

structure Ready (s : Factory ω) : Prop where
  unfinished : .finished ∉ s.log
  uncreated : .created ∉ s.log
  loaded : .loaded ∈ s.log
  commited : .commited ∈ s.log
  load : s.loadTask = false
  http : s.httpGet = false
  commit : s.commitTask = false

/-- Every task runs once, and only a load task leaves a request. -/
def pending (s : Factory ω) : ℕ := 2 * s.loadTask.toNat + s.commitTask.toNat + s.httpGet.toNat

def Leaves (good : Prop) (left : ℕ) (s : Factory ω) : Prop :=
  pending s ≤ left ∧ (good ∧ (Waiting s ∨ Done s) ∨ ¬ good ∧ Stuck s)

variable {good : Prop} {n : ℕ}

theorem leaves_waiting (hgood : good) (h : Waiting s) (hp : pending s ≤ n) : Leaves good n s :=
  ⟨hp, .inl ⟨hgood, .inl h⟩⟩

theorem leaves_done (hgood : good) (h : Done s) : Leaves good n s := by
  refine ⟨?_, .inl ⟨hgood, .inr h⟩⟩
  rw [pending, h.load, h.commit, h.http]
  exact Nat.zero_le n

theorem leaves_stuck (hbad : ¬ good) (h : Stuck s) (hp : s.commitTask.toNat ≤ n) :
    Leaves good n s := by
  refine ⟨?_, .inr ⟨hbad, h⟩⟩
  rw [pending, h.load, h.http]
  simpa using hp

theorem Leaves.mono {m : ℕ} (h : Leaves good n s) (hm : n ≤ m) : Leaves good m s :=
  ⟨h.1.trans hm, h.2⟩

variable {log : List Mark}

theorem createdOnce_of_not_mem (h : .created ∉ log) : CreatedOnce log where
  once := by rw [List.count_eq_zero_of_not_mem h]; exact Nat.zero_le 1
  behind before after heq := by
    refine absurd ?_ h
    rw [heq]
    exact List.mem_append_right _ List.mem_cons_self

variable {mark : Mark}

theorem append_mark_eq {before after : List Mark} {other : Mark}
    (h : log ++ [mark] = before ++ other :: after) :
    log = before ∧ mark = other ∨ ∃ front, log = before ++ other :: front := by
  rcases List.eq_nil_or_concat after with rfl | ⟨front, last, rfl⟩
  · obtain ⟨hlog, hmark⟩ := List.append_inj' h rfl
    exact .inl ⟨hlog, List.singleton_inj.mp hmark⟩
  · rw [List.concat_eq_append, ← List.cons_append, ← List.append_assoc] at h
    exact .inr ⟨front, List.append_inj_left' h rfl⟩

theorem createdOnce_append (h : CreatedOnce log)
    (hm : mark ≠ .created) : CreatedOnce (log ++ [mark]) where
  once := by
    rw [List.count_append, List.count_singleton, beq_eq_false_iff_ne.mpr hm]
    exact h.once
  behind before after heq := by
    rcases append_mark_eq heq with ⟨_, hmark⟩ | ⟨front, hlog⟩
    · exact absurd hmark hm
    · exact h.behind before front hlog

theorem createdOnce_created (hc : .created ∉ log) (hl : .loaded ∈ log)
    (hm : .commited ∈ log) : CreatedOnce (log ++ [.created]) where
  once := by
    rw [List.count_append, List.count_eq_zero_of_not_mem hc]
    exact Nat.le_refl 1
  behind before after heq := by
    rcases append_mark_eq heq with ⟨hlog, _⟩ | ⟨front, hlog⟩
    · rw [← hlog]
      exact ⟨hl, hm⟩
    · refine absurd ?_ hc
      rw [hlog]
      exact List.mem_append_right _ List.mem_cons_self

theorem ready_createdOnce (h : Ready s) {marks : List Mark} (hm : marks = [] ∨ marks = [.created]) :
    CreatedOnce (s.log ++ marks) ∧ .finished ∉ s.log ++ marks := by
  rcases hm with rfl | rfl
  · rw [List.append_nil]
    exact ⟨createdOnce_of_not_mem h.uncreated, h.unfinished⟩
  · exact ⟨createdOnce_created h.uncreated h.loaded h.commited, by simp [h.unfinished]⟩

theorem finished_once (h : .finished ∉ log) : (log ++ [Mark.finished]).count .finished = 1 := by
  rw [List.count_append, List.count_eq_zero_of_not_mem h]
  rfl

theorem ready_leaves (h : Ready s) : Leaves (SuccessReturns env s) 0 (receiveSuccess env s).2 := by
  rcases receiveSuccess_cases env s with ⟨hr, w, marks, hm, ht⟩ | ⟨hr, w, marks, hm, ht⟩
  · obtain ⟨hcreated, hfinished⟩ := ready_createdOnce h hm
    rw [ht]
    exact leaves_done hr
      ⟨finished_once hfinished, createdOnce_append hcreated (by decide), rfl, rfl, h.http⟩
  · obtain ⟨hcreated, hfinished⟩ := ready_createdOnce h hm
    rw [ht]
    refine leaves_stuck hr ⟨hfinished, hcreated, h.load, h.http, fun hc => ?_⟩ ?_
    · cases h.commit.symm.trans hc
    · exact (congrArg Bool.toNat h.commit).le

theorem loading_stuck (h : Loading s) : Stuck s :=
  ⟨h.unfinished, createdOnce_of_not_mem h.uncreated, h.load, h.http, fun _ => h.unloaded⟩

theorem loading_failed (h : Loading s) (msg : String) : Done (receiveFailed msg s).2 :=
  ⟨finished_once h.unfinished, createdOnce_append (createdOnce_of_not_mem h.uncreated) (by decide),
    rfl, rfl, h.http⟩

theorem receiveLoaded_apply (s : Factory ω) :
    receiveLoaded env s =
      (if s.isCommited then receiveSuccess env else pure ()) (markLoaded s) := rfl

theorem next_commit_unloaded (h : s.isLoaded = false) :
    (machine env).next s .commit = markCommited { s with commitTask := false } := by
  show ((if s.isLoaded then receiveSuccess env else pure ()) _).2 = _
  rw [if_neg (Bool.eq_false_iff.mp h)]
  rfl

theorem next_commit_loaded (h : s.isLoaded = true) :
    (machine env).next s .commit =
      (receiveSuccess env (markCommited { s with commitTask := false })).2 := by
  show ((if s.isLoaded then receiveSuccess env else pure ()) _).2 = _
  rw [if_pos h]
  rfl

theorem not_mem_append_mark {other : Mark} (h : mark ∉ log)
    (hne : mark ≠ other) : mark ∉ log ++ [other] := by
  simp [h, hne]

theorem loading_waits (h : Loading s) (hc : s.isCommited = false) : Waiting (markLoaded s) where
  unfinished := not_mem_append_mark h.unfinished (by decide)
  uncreated := not_mem_append_mark h.uncreated (by decide)
  loaded _ := List.mem_append_right _ List.mem_cons_self
  commited h := by cases hc.symm.trans h
  load h := by cases h
  idle _ := ⟨h.load, h.http⟩
  commit := h.commit
  apart _ := hc
  stream hl := by cases h.load.symm.trans hl

theorem loading_ready (h : Loading s) (hc : s.isCommited = true) : Ready (markLoaded s) where
  unfinished := not_mem_append_mark h.unfinished (by decide)
  uncreated := not_mem_append_mark h.uncreated (by decide)
  loaded := List.mem_append_right _ List.mem_cons_self
  commited := List.mem_append_left _ (h.commited hc)
  load := h.load
  http := h.http
  commit := h.commit.trans (by rw [hc]; rfl)

theorem loading_leaves (h : Loading s) :
    Leaves (s.isCommited = true → SuccessReturns env (markLoaded s)) s.commitTask.toNat
      (receiveLoaded env s).2 := by
  rw [receiveLoaded_apply]
  cases hc : s.isCommited with
  | false =>
    refine leaves_waiting (fun h => (by cases h)) (loading_waits h hc) ?_
    show 2 * s.loadTask.toNat + s.commitTask.toNat + s.httpGet.toNat ≤ _
    simp [h.load, h.http]
  | true =>
    rw [forall_prop_of_true rfl]
    exact (ready_leaves env (loading_ready h hc)).mono (Nat.zero_le _)

theorem waiting_unloaded (h : Waiting s)
    (ht : s.loadTask = true ∨ s.httpGet = true) : s.isLoaded = false := by
  by_contra hl
  obtain ⟨hload, hhttp⟩ := h.idle (eq_true_of_ne_false hl)
  rcases ht with ht | ht
  · cases hload.symm.trans ht
  · cases hhttp.symm.trans ht

theorem loading_of_load (h : Waiting s) (ht : s.loadTask = true) :
    Loading { s with loadTask := false } := by
  have hl := waiting_unloaded h (.inl ht)
  have hne := h.load hl
  rw [ht] at hne
  exact ⟨h.unfinished, h.uncreated, h.commited, hl, rfl, Bool.eq_false_iff.mpr hne.symm, h.commit⟩

theorem loading_of_http (h : Waiting s) (ht : s.httpGet = true) :
    Loading { s with httpGet := false } := by
  have hl := waiting_unloaded h (.inr ht)
  have hne := h.load hl
  rw [ht] at hne
  exact ⟨h.unfinished, h.uncreated, h.commited, hl, Bool.eq_false_iff.mpr hne, rfl, h.commit⟩

theorem Loading.update (h : Loading s) (world : ω) (hasStream tiedToFile : Bool) :
    Loading { s with world := world, hasStream := hasStream, tiedToFile := tiedToFile } :=
  ⟨h.unfinished, h.uncreated, h.commited, h.unloaded, h.load, h.http, h.commit⟩

theorem loading_requested (h : Loading s) (world : ω) :
    Waiting { s with world := world, hasStream := true, httpGet := true, tiedToFile := false } where
  unfinished := h.unfinished
  uncreated := h.uncreated
  loaded hl := by cases h.unloaded.symm.trans hl
  commited := h.commited
  load _ := by
    rw [h.load]
    exact Bool.false_ne_true
  idle hl := by cases h.unloaded.symm.trans hl
  commit := h.commit
  apart hl := by cases h.unloaded.symm.trans hl
  stream hl := by cases h.load.symm.trans hl

theorem returns_of_ok {σ : Type} {x : Run Error σ α} {s t : σ} {next : α → σ → Prop}
    {a : α} (h : x s = (.ok a, t)) : Returns next x s = next a t := by
  rw [Returns, Ends, h]

theorem returns_of_error {σ : Type} {x : Run Error σ α} {s t : σ} {next : α → σ → Prop}
    {e : Error} (h : x s = (.error e, t)) : Returns next x s = False := by
  rw [Returns, Ends, h]

theorem lift_bind {β : Type} {r : Except Error α} {w : ω} (h : f s.world = (r, w))
    (g : α → FactoryRun ω β) :
    (lift f >>= g) s = (Run.ofExcept r >>= g) { s with world := w } := by
  rw [Run.bind_apply, lift, h]
  cases r with
  | ok a => rfl
  | error e => rfl

theorem leaves_network (h : Loading s) (hs : s.hasStream = false) (hn : isNetworkUri s.uri = true) :
    Leaves (LoadReturns env s) (s.commitTask.toNat + 1) (receiveLoad env s).2 := by
  have hrun : receiveLoad env s = (do
      lift (env.httpInsert s.uri)
      Run.modify fun s => { s with httpGet := true, tiedToFile := false } : FactoryRun ω Unit)
        { s with hasStream := true } := by
    unfold receiveLoad
    rw [Run.get_bind, hs, if_neg Bool.false_ne_true, if_pos hn]
    rfl
  rw [hrun, LoadReturns, if_pos hn]
  rcases hi : env.httpInsert s.uri s.world with ⟨e | a, w⟩
  · rw [returns_of_error hi, lift_bind (s := { s with hasStream := true }) hi]
    exact leaves_stuck not_false (loading_stuck (h.update w true s.tiedToFile)) (Nat.le_succ _)
  · rw [returns_of_ok hi, lift_bind (s := { s with hasStream := true }) hi]
    refine leaves_waiting trivial (loading_requested h w) ?_
    show 2 * s.loadTask.toNat + s.commitTask.toNat + 1 ≤ _
    simp [h.load]

theorem leaves_file (h : Loading s) (path : Text) :
    Leaves (Returns (fun good w => good = some true → s.isCommited = true →
        SuccessReturns env (markLoaded { s with world := w })) (env.readFile path) s.world)
      s.commitTask.toNat
      ((do
        match ← lift (env.readFile path) with
        | none => receiveFailed "Could not open file"
        | some false => receiveFailed "Reading torrent file failed"
        | some true => receiveLoaded env : FactoryRun ω Unit) s).2 := by
  rcases hi : env.readFile path s.world with ⟨e | good, w⟩
  · rw [returns_of_error hi, lift_bind hi]
    exact leaves_stuck not_false (loading_stuck (h.update w s.hasStream s.tiedToFile)) le_rfl
  · have hl : Loading { s with world := w } := h.update w s.hasStream s.tiedToFile
    rw [returns_of_ok hi, lift_bind hi, Run.ofExcept_ok_bind]
    rcases good with _ | _ | _
    · exact leaves_done (fun h => (by cases h)) (loading_failed hl _)
    · exact leaves_done (fun h => (by cases h)) (loading_failed hl _)
    · rw [forall_prop_of_true rfl]
      exact loading_leaves env hl

theorem leaves_load (h : Loading s) (hs : s.hasStream = false) :
    Leaves (LoadReturns env s) (s.commitTask.toNat + 1) (receiveLoad env s).2 := by
  cases hn : isNetworkUri s.uri with
  | true => exact leaves_network env h hs hn
  | false =>
    unfold receiveLoad LoadReturns
    rw [Run.get_bind, if_neg (Bool.eq_false_iff.mp hs), hn, if_neg Bool.false_ne_true,
      if_neg Bool.false_ne_true]
    refine Leaves.mono ?_ (Nat.le_succ _)
    cases hm : isMagnetUri s.uri with
    | true =>
      rw [if_pos rfl, if_pos rfl]
      have hl := loading_leaves env (h.update s.world true false)
      exact hl
    | false =>
      rw [if_neg Bool.false_ne_true, if_neg Bool.false_ne_true]
      cases expanded env s.uri with
      | error e => exact leaves_stuck (fun ⟨_, h, _⟩ => (by cases h)) (loading_stuck h) le_rfl
      | ok path =>
        rw [Run.ofExcept_ok_bind]
        have hl := leaves_file env h path
        simpa only [Except.ok.injEq, exists_eq_left'] using hl

theorem commit_waits (h : Waiting s) (hl : s.isLoaded = false) :
    Waiting (markCommited { s with commitTask := false }) where
  unfinished := not_mem_append_mark h.unfinished (by decide)
  uncreated := not_mem_append_mark h.uncreated (by decide)
  loaded h := by cases hl.symm.trans h
  commited _ := List.mem_append_right _ List.mem_cons_self
  load := h.load
  idle := h.idle
  commit := rfl
  apart h := by cases hl.symm.trans h
  stream := h.stream

theorem commit_ready (h : Waiting s) (hl : s.isLoaded = true) :
    Ready (markCommited { s with commitTask := false }) where
  unfinished := not_mem_append_mark h.unfinished (by decide)
  uncreated := not_mem_append_mark h.uncreated (by decide)
  loaded := List.mem_append_left _ (h.loaded hl)
  commited := List.mem_append_right _ List.mem_cons_self
  load := (h.idle hl).1
  http := (h.idle hl).2
  commit := rfl

theorem leaves_commit (h : Waiting s) (he : s.commitTask = true) :
    Leaves (Contained env s .commit) (pending s - 1) ((machine env).next s .commit) := by
  cases hl : s.isLoaded with
  | false =>
    rw [next_commit_unloaded env hl]
    refine leaves_waiting (fun h => (by cases hl.symm.trans h)) (commit_waits h hl) ?_
    show 2 * s.loadTask.toNat + 0 + s.httpGet.toNat ≤ _
    rw [pending, he, Bool.toNat_true]
    omega
  | true =>
    rw [next_commit_loaded env hl, Contained, forall_prop_of_true hl]
    exact (ready_leaves env (commit_ready h hl)).mono (Nat.zero_le _)

variable {task : Task}

theorem enabled_pending (he : Enabled s task) : 0 < pending s := by
  cases task <;> simp only [Enabled] at he <;> rw [pending, he, Bool.toNat_true] <;> omega

theorem waiting_step (h : Waiting s) (he : Enabled s task) :
    Leaves (Contained env s task) (pending s - 1) ((machine env).next s task) := by
  cases task with
  | load =>
    refine (leaves_load env (loading_of_load h he) (h.stream he)).mono ?_
    rw [pending, show s.loadTask = true from he, Bool.toNat_true]
    dsimp only
    omega
  | commit => exact leaves_commit env h he
  | httpDone =>
    refine (loading_leaves env (loading_of_http h he)).mono ?_
    rw [pending, show s.httpGet = true from he, Bool.toNat_true]
    dsimp only
    omega
  | httpFailed error => exact leaves_done trivial (loading_failed (loading_of_http h he) error)

theorem done_quiescent (h : Done s) (task : Task) : ¬ Enabled s task := by
  intro he
  cases task with
  | load => cases h.load.symm.trans he
  | commit => cases h.commit.symm.trans he
  | httpDone => cases h.http.symm.trans he
  | httpFailed error => cases h.http.symm.trans he

theorem stuck_step (h : Stuck s) (he : Enabled s task) :
    Stuck ((machine env).next s task) ∧ ((machine env).next s task).commitTask = false := by
  cases task with
  | load => cases h.load.symm.trans he
  | httpDone => cases h.http.symm.trans he
  | httpFailed error => cases h.http.symm.trans he
  | commit =>
    rw [next_commit_unloaded env (h.commit he)]
    exact ⟨⟨not_mem_append_mark h.unfinished (by decide), createdOnce_append h.created (by decide),
      h.load, h.http, fun h => (by cases h)⟩, rfl⟩

variable {tasks : List Task}

theorem stuck_run (hrun : Execution (machine env).system s tasks t) (h : Stuck s) : Stuck t := by
  refine hrun.preserves ?_ h
  rintro s task t hs ⟨he, rfl⟩
  exact (stuck_step env hs he).1

theorem done_run (hrun : Execution (machine env).system s tasks t) (h : Done s) :
    tasks = [] ∧ t = s := by
  cases hrun with
  | nil => exact ⟨rfl, rfl⟩
  | cons hstep _ => exact absurd hstep.1 (done_quiescent h _)

theorem stuck_not_completed (h : Stuck s) : ¬ Completed s := by
  intro hc
  have hzero := hc.finished
  rw [List.count_eq_zero_of_not_mem h.unfinished] at hzero
  cases hzero

theorem waiting_not_quiescent (h : Waiting s) : ¬ Quiescent s := by
  intro hq
  have hload := hq .load
  have hhttp := hq .httpDone
  have hcommit := hq .commit
  simp only [Enabled, Bool.not_eq_true] at hload hhttp hcommit
  cases hl : s.isLoaded with
  | false => exact h.load hl (hload.trans hhttp.symm)
  | true =>
    have hc := h.commit
    rw [hcommit, h.apart hl] at hc
    cases hc

theorem waiting_run (hrun : Execution (machine env).system s tasks t) (h : Waiting s)
    (hq : Quiescent t) :
    Completed t ↔ ((machine env).guarded (Contained env)).Accepts s tasks := by
  induction hrun with
  | nil s => exact absurd hq (waiting_not_quiescent h)
  | cons hstep hrest ih =>
    obtain ⟨he, rfl⟩ := hstep
    rcases (waiting_step env h he).2 with ⟨hgood, hw | hd⟩ | ⟨hbad, hs⟩
    · exact (ih hw hq).trans ⟨fun ha => ⟨⟨hgood, he⟩, ha⟩, fun ha => ha.2⟩
    · obtain ⟨rfl, rfl⟩ := done_run env hrest hd
      exact ⟨fun _ => ⟨⟨hgood, he⟩, trivial⟩, fun _ => ⟨hd.finished, hd.created⟩⟩
    · refine ⟨fun hc => ?_, fun ha => absurd ha.1.1 hbad⟩
      exact absurd hc (stuck_not_completed (stuck_run env hrest hs))

variable {world : ω} {session initLoad tiedToFile : Bool} {commands : List Text} {f : Factory ω}

theorem newFactory_eq (h : newFactory env world session initLoad tiedToFile commands = some f) :
    ∃ world, f = .new world session initLoad tiedToFile commands := by
  unfold newFactory at h
  split at h
  · exact ⟨_, (Option.some.inj h).symm⟩
  · cases h

theorem load_waiting (uri : Text) :
    Waiting (((Factory.new world session initLoad tiedToFile commands).load uri).commit) where
  unfinished := List.not_mem_nil
  uncreated := List.not_mem_nil
  loaded h := by cases h
  commited h := by cases h
  load _ := Bool.noConfusion
  idle h := by cases h
  commit := rfl
  apart h := by cases h
  stream _ := rfl

theorem rawData_waiting :
    Waiting ((Factory.new world session initLoad tiedToFile commands).loadRawData.commit) where
  unfinished := (by decide : Mark.finished ∉ [Mark.loaded])
  uncreated := (by decide : Mark.created ∉ [Mark.loaded])
  loaded _ := List.mem_singleton_self _
  commited h := by cases h
  load h := by cases h
  idle _ := ⟨rfl, rfl⟩
  commit := rfl
  apart _ := rfl
  stream h := by cases h

theorem new_stuck : Stuck (Factory.new world session initLoad tiedToFile commands) :=
  ⟨List.not_mem_nil, createdOnce_of_not_mem List.not_mem_nil, rfl, rfl, fun _ => rfl⟩

theorem handOver_leaves (uri : Text) (flags : BitVec 32) :
    Leaves (isDataUri uri = true → ∃ data, decodeDataUri uri = .ok data) 3
      (handOver uri flags (Factory.new world session initLoad tiedToFile commands)) := by
  unfold handOver
  split
  · next hd =>
    rw [forall_prop_of_true hd]
    cases decodeDataUri uri with
    | ok data =>
      have hw : Waiting (Factory.new world session initLoad false commands).loadRawData.commit :=
        rawData_waiting
      exact leaves_waiting ⟨data, rfl⟩ hw (Nat.le_add_left 1 2)
    | error e =>
      refine leaves_stuck ?_ new_stuck (Nat.zero_le 3)
      rintro ⟨_, h⟩
      cases h
  · next hd =>
    split
    · exact leaves_waiting (fun h => absurd h hd) rawData_waiting (Nat.le_add_left 1 2)
    · exact leaves_waiting (fun h => absurd h hd) (load_waiting uri) le_rfl

theorem made_leaves {request : Request}
    (h : made env world request = some f) : Leaves (Decodes request) 3 f := by
  cases request with
  | tryCreateDownload uri flags commands =>
    dsimp only [made] at h
    split at h
    · obtain ⟨g, hg, rfl⟩ := Option.map_eq_some_iff.mp h
      obtain ⟨w, rfl⟩ := newFactory_eq env hg
      exact handOver_leaves uri flags
    · cases h
  | load uri session initLoad tiedToFile commands =>
    obtain ⟨g, hg, rfl⟩ := Option.map_eq_some_iff.mp h
    obtain ⟨w, rfl⟩ := newFactory_eq env hg
    exact leaves_waiting trivial (load_waiting uri) le_rfl

theorem leaves_step (h : Leaves good n s) (he : Enabled s task) :
    ∃ good, Leaves good (n - 1) ((machine env).next s task) := by
  have hp := Nat.sub_le_sub_right h.1 1
  rcases h.2 with ⟨_, hw | hd⟩ | ⟨hbad, hs⟩
  · exact ⟨_, (waiting_step env hw he).mono hp⟩
  · exact absurd he (done_quiescent hd _)
  · obtain ⟨hs, hc⟩ := stuck_step env hs he
    exact ⟨good, leaves_stuck hbad hs (by rw [hc]; exact Nat.zero_le _)⟩

theorem leaves_run (h : Leaves good n s) (hrun : Execution (machine env).system s tasks t) :
    tasks.length ≤ n ∧ ∃ good n, Leaves good n t := by
  induction hrun generalizing good n with
  | nil => exact ⟨Nat.zero_le n, good, n, h⟩
  | cons hstep hrest ih =>
    obtain ⟨he, rfl⟩ := hstep
    have hn := (enabled_pending he).trans_le h.1
    obtain ⟨_, hnext⟩ := leaves_step env h he
    obtain ⟨hlength, hend⟩ := ih hnext
    exact ⟨(Nat.le_sub_one_iff_lt hn).mp hlength, hend⟩

theorem leaves_createdOnce (h : Leaves good n s) : CreatedOnce s.log := by
  rcases h.2 with ⟨_, hw | hd⟩ | ⟨_, hs⟩
  · exact createdOnce_of_not_mem hw.uncreated
  · exact hd.created
  · exact hs.created

/-- At most three tasks run, and a download is created at most once and behind loading and commit.
When nothing is left to run, the slot has been called exactly once if and only if the data could
be decoded and no task was left by an exception. -/
theorem finished_once_iff {world : ω} {request : Request} {f s : Factory ω} {tasks : List Task}
    (hmade : made env world request = some f) (hrun : Execution (machine env).system f tasks s) :
    tasks.length ≤ 3 ∧ CreatedOnce s.log ∧ (Quiescent s → (Completed s ↔
        Decodes request ∧ ((machine env).guarded (Contained env)).Accepts f tasks)) := by
  have hleaves := made_leaves env hmade
  obtain ⟨hlength, _, _, hend⟩ := leaves_run env hleaves hrun
  refine ⟨hlength, leaves_createdOnce hend, fun hq => ?_⟩
  rcases hleaves.2 with ⟨hd, hw | hdone⟩ | ⟨hd, hs⟩
  · exact (waiting_run env hrun hw hq).trans (and_iff_right hd).symm
  · obtain ⟨rfl, rfl⟩ := done_run env hrun hdone
    exact ⟨fun _ => ⟨hd, trivial⟩, fun _ => ⟨hdone.finished, hdone.created⟩⟩
  · exact ⟨fun hc => absurd hc (stuck_not_completed (stuck_run env hrun hs)),
      fun h => absurd h.1 hd⟩

end

def calm : Environment Unit where
  home := some "/".toList
  cacheInsert _ := pure true
  readFile _ := pure (some true)
  loadStream _ := pure ()
  httpInsert _ := pure ()
  downloadAdd := pure true
  command _ := pure 0
  initializeRtorrent := pure ()
  fileSplitAll := pure ()
  hasDirectory _ := false
  resumeLoad := pure ()
  insertDownload := pure true
  parseCommandMultiple _ := pure ()
  isListed _ := true

def given (uri : Text) : Factory Unit := ((Factory.new () false false false []).load uri).commit

theorem given_made (uri : Text) :
    made calm () (.load uri false false false []) = some (given uri) :=
  rfl

def givenLoaded : Factory Unit :=
  { given ['a'] with isLoaded := true, loadTask := false, log := [.loaded] }

theorem given_load : (machine calm).next (given ['a']) .load = givenLoaded := by
  simp [machine, handler, receiveLoad, receiveLoaded, Run.bind_apply, Run.pure_apply, Run.get,
    Run.modify, Run.ofExcept, expanded, ObjectPrinting.expandPath, calm, given, givenLoaded,
    Factory.new, Factory.load, Factory.commit, lift, isNetworkUri, isMagnetUri, startsWith]

theorem given_success :
    receiveSuccess calm (markCommited { givenLoaded with commitTask := false }) =
      (.ok (), { givenLoaded with
        isCommited := true, commitTask := false
        log := [.loaded, .commited, .created, .finished] }) := by
  simp [receiveSuccess, Run.bind_apply, Run.pure_apply, Run.get, Run.modify, Run.ofExcept,
    openSession, expanded, ObjectPrinting.expandPath, calm, given, givenLoaded, Factory.new,
    Factory.load, Factory.commit, markCommited, createDownload, Run.handle, lift, record, configure,
    setAll, limitCommands, setFrom, setSeedLimits, commandIf, splitFiles, catchInputError,
    runCommands, parseCommands, slotFinished]

theorem given_contained : Contained calm (given ['a']) .load := by
  simp [Contained, LoadReturns, Returns, Ends, Run.pure_apply, expanded, ObjectPrinting.expandPath,
    calm, given, Factory.new, Factory.load, Factory.commit, isNetworkUri, isMagnetUri, startsWith]

theorem givenLoaded_contained : Contained calm givenLoaded .commit := by
  intro _
  rw [successReturns_iff, returns_of_ok given_success]
  trivial

def givenFinished : Factory Unit :=
  { givenLoaded with
    isCommited := true, commitTask := false, log := [.loaded, .commited, .created, .finished] }

theorem given_commit : (machine calm).next givenLoaded .commit = givenFinished := by
  rw [next_commit_loaded calm (s := givenLoaded) rfl, given_success]
  rfl

theorem given_run :
    Execution (machine calm).system (given ['a']) [.load, .commit] givenFinished := by
  refine .cons ⟨rfl, given_load.symm⟩ ?_
  refine .cons ⟨rfl, given_commit.symm⟩ ?_
  exact .nil _

theorem given_accepted :
    ((machine calm).guarded (Contained calm)).Accepts (given ['a']) [.load, .commit] := by
  -- without unfolding what the conditions say, which would run the tasks
  refine Machine.accepts_guarded_cons ?_ rfl given_load ?_
  · with_reducible exact given_contained
  refine Machine.accepts_guarded_cons ?_ rfl given_commit ?_
  · with_reducible exact givenLoaded_contained
  · exact trivial

theorem file_finished : Quiescent givenFinished ∧ Completed givenFinished := by
  have hquiet : Quiescent givenFinished := by
    intro task
    cases task <;> exact Bool.false_ne_true
  have hdecodes : Decodes (.load ['a'] false false false []) := trivial
  refine ⟨hquiet, ((finished_once_iff calm (given_made _) given_run).2.2 hquiet).mpr ?_⟩
  with_reducible exact ⟨hdecodes, given_accepted⟩

/-! A path that cannot be expanded -/

theorem homeless_load :
    (machine calm).next (given ['~', 'x']) .load = { given ['~', 'x'] with loadTask := false } := by
  simp [machine, handler, receiveLoad, Run.bind_apply, Run.get, Run.modify, Run.ofExcept, Run.fail,
    expanded, ObjectPrinting.expandPath, inputError, calm, given, Factory.new, Factory.load,
    Factory.commit, isNetworkUri, isMagnetUri, startsWith]

/-- Data that is not encoded, and a path of another user's home, leave the slot uncalled. -/
theorem slot_not_called :
    (∃ f : Factory Unit, made calm () (.tryCreateDownload "data:,".toList 0 []) = some f ∧
      Quiescent f ∧ ¬ Completed f) ∧
    ∃ f s : Factory Unit, made calm () (.load "~x".toList false false false []) = some f ∧
      Execution (machine calm).system f [.load, .commit] s ∧ Quiescent s ∧ ¬ Completed s := by
  refine ⟨⟨.new () false false false [], ?_, ?_, ?_⟩, given ['~', 'x'],
    markCommited { given ['~', 'x'] with loadTask := false, commitTask := false }, ?_, ?_, ?_, ?_⟩
  · simp [made, checkCache, newFactory, calm, Run.pure_apply, handOver, isDataUri, startsWith,
      decodeDataUri, behindFirst, RpcCommandMap.hasFlag, createTied, createRawData]
  · intro task
    cases task <;> exact Bool.false_ne_true
  · exact fun h => absurd h.finished (by decide)
  · exact given_made _
  · have hcommit := next_commit_unloaded calm (s := { given ['~', 'x'] with loadTask := false }) rfl
    exact .cons ⟨rfl, homeless_load.symm⟩ (.cons ⟨rfl, hcommit.symm⟩ (.nil _))
  · intro task
    cases task <;> exact Bool.false_ne_true
  · exact fun h => absurd h.finished (by decide)

end DownloadFactory
