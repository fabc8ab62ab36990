import Mathlib.Tactic.IntervalCases
import Rtorrent.SessionDownloadStorer
import Rtorrent.TransitionSystems

/-! # Saving with a failing file system

`save_and_move_streams` in the steps the file system sees, each of which may fail. `operator<<` puts
a stream into its `.new` file in buffered writes of any size, and what is left in the buffer is
written when the file is closed. -/
namespace SessionStoreFaults

open SessionDownloadStorer TransitionSystems

inductive Pc where
  | ready (ops : List FileOp)
  | writing (file : SessionFile) (stream pending : Bytes) (ops : List FileOp)
  | inserted (file : SessionFile) (pending : Bytes) (ops : List FileOp)
  | closed (ops : List FileOp)
  | threw
  deriving DecidableEq, Repr

structure State where
  files : Directory
  pc : Pc

/-- `insert` ends `operator<<` with the rest in the buffer, `cut` with a write that fails, where
`size` bytes are written and `kept` bytes stay in the buffer. -/
inductive Event where
  | openNew (ok : Bool)
  | write (size : ℕ)
  | insertNothing
  | insert
  | cut (size kept : ℕ)
  | close (size : ℕ) (ok : Bool)
  | reopen (ok : Bool)
  | rename (ok : Bool)
  deriving DecidableEq, Repr

def appendNew (path : Path) (file : SessionFile) (bytes : Bytes) (files : Directory) : Directory :=
  Function.update files ⟨path, file, true⟩ (some ((files ⟨path, file, true⟩).getD [] ++ bytes))

/-- `operator<<` sets the failbit only when it has inserted nothing: the first write has failed, or
there are no bytes. A final flush that fails has left out at least one byte. -/
def Enabled (path : Path) (s : State) (e : Event) : Prop :=
  match s.pc, e with
  | .ready (.saveStream _ _ :: _), .openNew _ => True
  | .writing _ _ pending _, .write size => size ≤ pending.length
  | .writing _ stream pending _, .insertNothing => pending = stream
  | .writing _ stream _ _, .insert => stream ≠ []
  | .writing _ stream pending _, .cut size kept =>
    size + kept < pending.length ∧ pending.length < stream.length + size + kept
  | .inserted _ pending _, .close size ok => ok = false → size < pending.length
  | .closed _, .reopen _ => True
  | .ready (.rename file :: _), .rename ok =>
    ok = true → (s.files ⟨path, file, true⟩).isSome = true
  | _, _ => False

/-- The state of the stream is looked at before the file is closed, and not after. -/
def next (path : Path) (s : State) (e : Event) : State :=
  match s.pc, e with
  | .ready (.saveStream file stream :: ops), .openNew true =>
    ⟨Function.update s.files ⟨path, file, true⟩ (some []), .writing file stream stream ops⟩
  | .writing file stream pending ops, .write size =>
    ⟨appendNew path file (pending.take size) s.files,
      .writing file stream (pending.drop size) ops⟩
  | .writing file _ pending ops, .insert => { s with pc := .inserted file pending ops }
  | .writing file _ pending ops, .cut size kept =>
    ⟨appendNew path file (pending.take size) s.files,
      .inserted file ((pending.drop size).take kept) ops⟩
  | .inserted file pending ops, .close size ok =>
    ⟨appendNew path file (if ok then pending else pending.take size) s.files, .closed ops⟩
  | .closed ops, .reopen true => { s with pc := .ready ops }
  | .ready (.rename file :: ops), .rename true =>
    ⟨((FileOp.rename file).run path s.files).getD s.files, .ready ops⟩
  | _, _ => { s with pc := .threw }

def machine (path : Path) : Machine State Event := ⟨Enabled path, next path⟩

def start (x : Streams) (before : Directory) : State := ⟨before, .ready (saveAndMoveStreams x)⟩

/-- Each session file has its content from before or the whole stream. -/
def Intact (path : Path) (x : Streams) (before : Directory) (s : State) : Prop :=
  ∀ file, s.files ⟨path, file, false⟩ = before ⟨path, file, false⟩ ∨
    ∃ stream, x.stream file = some stream ∧ s.files ⟨path, file, false⟩ = some stream

/-- When the call has returned every stream is in its file. -/
def InPlace (path : Path) (x : Streams) (s : State) : Prop :=
  s.pc = .ready [] → ∀ file stream, x.stream file = some stream →
    s.files ⟨path, file, false⟩ = some stream

/-- No write fails when something has been inserted, and the final flush of a file does not
fail. -/
def Flushes (_ : State) : Event → Prop
  | .cut _ _ => False
  | .close _ ok => ok = true
  | _ => True

theorem runAll_append (path : Path) (done ops : List FileOp) (fs : Directory) :
    FileOp.runAll path (done ++ ops) fs =
      (FileOp.runAll path done fs).bind (FileOp.runAll path ops) := by
  induction done generalizing fs with
  | nil => rfl
  | cons o done ih =>
    rw [List.cons_append, FileOp.runAll, FileOp.runAll, Option.bind_assoc]
    congr 1
    funext gs
    exact ih gs

/-- The call has still to do `ops`, and `gs` is what the operations before them make. -/
def Completed (path : Path) (x : Streams) (before : Directory) (ops : List FileOp)
    (gs : Directory) : Prop :=
  ∃ done, done ++ ops = saveAndMoveStreams x ∧ FileOp.runAll path done before = some gs

/-- The call has completed some of its operations and is inside the next one. -/
inductive Follows (path : Path) (x : Streams) (before : Directory) : State → Prop where
  | ready {ops gs} : Completed path x before ops gs → Follows path x before ⟨gs, .ready ops⟩
  | writing {file stream written pending ops gs} :
      Completed path x before (.saveStream file stream :: ops) gs → written ++ pending = stream →
      Follows path x before ⟨Function.update gs ⟨path, file, true⟩ (some written),
        .writing file stream pending ops⟩
  | inserted {file stream written pending ops gs} :
      Completed path x before (.saveStream file stream :: ops) gs → written ++ pending = stream →
      stream ≠ [] → Follows path x before
        ⟨Function.update gs ⟨path, file, true⟩ (some written), .inserted file pending ops⟩
  | closed {ops gs} : Completed path x before ops gs → Follows path x before ⟨gs, .closed ops⟩
  | threw {ops gs files} : Completed path x before ops gs →
      (∀ file, files ⟨path, file, false⟩ = gs ⟨path, file, false⟩) →
      Follows path x before ⟨files, .threw⟩

variable {path : Path} {x : Streams} {before : Directory}

theorem appendNew_update (path : Path) (file : SessionFile) (written bytes : Bytes)
    (gs : Directory) :
    appendNew path file bytes (Function.update gs ⟨path, file, true⟩ (some written)) =
      Function.update gs ⟨path, file, true⟩ (some (written ++ bytes)) := by
  rw [appendNew, Function.update_self, Function.update_idem, Option.getD_some]

theorem update_new_old (gs : Directory) (path : Path) (file file' : SessionFile)
    (bytes : Option Bytes) :
    Function.update gs ⟨path, file, true⟩ bytes ⟨path, file', false⟩ = gs ⟨path, file', false⟩ := by
  apply Function.update_of_ne
  simp

variable {ops : List FileOp} {file : SessionFile} {stream : Bytes} {gs : Directory}

theorem Completed.next {op : FileOp} {hs : Directory} (h : Completed path x before (op :: ops) gs)
    (hop : op.run path gs = some hs) : Completed path x before ops hs := by
  obtain ⟨done, hops, hrun⟩ := h
  refine ⟨done ++ [op], ?_, ?_⟩
  · rw [List.append_assoc]
    exact hops
  · rw [runAll_append, hrun]
    simp only [Option.bind_some, FileOp.runAll, hop]

theorem completed_renamed (h : Completed path x before (.rename file :: ops) gs)
    (hnew : (gs ⟨path, file, true⟩).isSome = true) :
    Completed path x before ops (((FileOp.rename file).run path gs).getD gs) := by
  rcases Option.isSome_iff_exists.mp hnew with ⟨stream, hstream⟩
  apply h.next
  simp only [FileOp.run, hstream, Option.map_some, Option.getD_some]

variable {s : State}

theorem follows_step {t : State} {e : Event} (h : Follows path x before s)
    (hstep : ((machine path).guarded Flushes).system.Step s e t) : Follows path x before t := by
  rcases hstep with ⟨⟨hflush, henabled⟩, rfl⟩
  cases h with
  | threw hdone hfiles => exact henabled.elim
  | @ready ops gs hdone =>
    rcases ops with _ | ⟨_ | file, ops⟩
    · exact henabled.elim
    · cases e with
      | openNew ok =>
        cases ok with
        | true => exact .writing hdone (List.nil_append _)
        | false => exact .threw hdone fun _ => rfl
      | _ => exact henabled.elim
    · cases e with
      | rename ok =>
        cases ok with
        | true => exact .ready (completed_renamed hdone (henabled rfl))
        | false => exact .threw hdone fun _ => rfl
      | _ => exact henabled.elim
  | @writing file stream written pending ops gs hdone hstream =>
    cases e with
    | write size =>
      simp only [machine, Machine.guarded, next, appendNew_update]
      apply Follows.writing hdone
      rw [List.append_assoc, List.take_append_drop, hstream]
    | insertNothing => exact .threw hdone fun file' => update_new_old gs path file file' _
    | insert => exact .inserted hdone hstream henabled
    | cut size kept => exact hflush.elim
    | _ => exact henabled.elim
  | @inserted file stream written pending ops gs hdone hstream hne =>
    cases e with
    | close size ok =>
      obtain rfl : ok = true := hflush
      simp only [machine, Machine.guarded, next, appendNew_update, if_true, hstream]
      exact .closed (hdone.next (if_neg hne))
    | _ => exact henabled.elim
  | closed hdone =>
    cases e with
    | reopen ok =>
      cases ok with
      | true => exact .ready hdone
      | false => exact .threw hdone fun _ => rfl
    | _ => exact henabled.elim

theorem saveAndMoveStreams_length (x : Streams) : (saveAndMoveStreams x).length ≤ 6 := by
  cases ht : x.torrent with
  | none => simp [saveAndMoveStreams, ht]
  | some stream => simp [saveAndMoveStreams, ht]

theorem Completed.intact (h : Completed path x before ops gs) (file : SessionFile) :
    gs ⟨path, file, false⟩ = before ⟨path, file, false⟩ ∨
      ∃ stream, x.stream file = some stream ∧ gs ⟨path, file, false⟩ = some stream := by
  obtain ⟨done, hops, hrun⟩ := h
  have hle : done.length ≤ 6 := by
    have hlen := saveAndMoveStreams_length x
    rw [← hops, List.length_append] at hlen
    omega
  rw [← @List.take_left _ done ops, hops] at hrun
  cases ht : x.torrent
  all_goals
    interval_cases done.length <;>
      simp [saveAndMoveStreams, ht, FileOp.runAll_saveStream, FileOp.runAll_rename,
        FileOp.runAll_nil] at hrun <;>
      (repeat replace hrun := And.right hrun) <;>
      subst hrun <;> cases file <;> simp [Streams.stream, ht]

theorem follows_intact (h : Follows path x before s) : Intact path x before s := by
  intro file
  cases h with
  | ready hdone => exact hdone.intact file
  | closed hdone => exact hdone.intact file
  | threw hdone hfiles =>
    simp only [hfiles]
    exact hdone.intact file
  | writing hdone | inserted hdone =>
    simp only [update_new_old]
    exact hdone.intact file

theorem nonempty_of_runAll {hs : Directory} (h : FileOp.runAll path ops before = some hs)
    (hmem : .saveStream file stream ∈ ops) : stream ≠ [] := by
  induction ops generalizing before with
  | nil => cases hmem
  | cons o ops ih =>
    obtain ⟨fs, ho, hrest⟩ := Option.bind_eq_some_iff.mp h
    rcases List.mem_cons.mp hmem with rfl | hmem
    · exact (Option.ite_none_left_eq_some.mp ho).1
    · exact ih hrest hmem

theorem mem_saveAndMoveStreams :
    .saveStream file stream ∈ saveAndMoveStreams x ↔ x.stream file = some stream := by
  cases ht : x.torrent <;> cases file <;> simp [saveAndMoveStreams, Streams.stream, ht, eq_comm]

theorem follows_inPlace (h : Follows path x before s) : InPlace path x s := by
  intro hpc file stream hstream
  cases h with
  | ready hdone =>
    cases hpc
    obtain ⟨done, hops, hrun⟩ := hdone
    rw [List.append_nil] at hops
    rw [hops] at hrun
    rcases runAll_saveAndMoveStreams path before fun file stream h =>
      nonempty_of_runAll hrun (mem_saveAndMoveStreams.mpr h) with ⟨hs, hhs, hfiles⟩
    rw [hrun] at hhs
    cases hhs
    exact (hfiles file).trans (by rw [hstream, Option.some_or])
  | _ => cases hpc

theorem reachable_follows {t : State} (hs : Follows path x before s)
    (h : Reachable ((machine path).guarded Flushes).system s t) : Follows path x before t :=
  h.invariant hs fun _ _ _ hs hstep => follows_step hs hstep

theorem start_follows (path : Path) (x : Streams) (before : Directory) :
    Follows path x before (start x before) := .ready ⟨[], rfl, rfl⟩

theorem not_saveStream_mem_renames {done : List FileOp} (files : List SessionFile) :
    done ++ .saveStream file stream :: ops ≠ files.map .rename := by
  intro h
  have hmem : FileOp.saveStream file stream ∈ files.map .rename := by
    rw [← h]
    exact List.mem_append_right _ List.mem_cons_self
  simp at hmem

theorem reachable_returned {fs : Directory} (hrun : FileOp.runAll path ops fs = some gs) :
    Reachable ((machine path).guarded Flushes).system ⟨fs, .ready ops⟩ ⟨gs, .ready []⟩ := by
  induction ops generalizing fs with
  | nil =>
    cases hrun
    exact ⟨[], .nil _⟩
  | cons o ops ih =>
    rcases Option.bind_eq_some_iff.mp hrun with ⟨fs', ho, hrest⟩
    cases o with
    | saveStream file stream =>
      obtain ⟨hstream, ho⟩ := Option.ite_none_left_eq_some.mp ho
      cases ho
      refine Machine.reachable_next (e := .openNew true) ⟨trivial, trivial⟩ ?_
      refine Machine.reachable_next (e := .insert) ⟨trivial, hstream⟩ ?_
      refine Machine.reachable_next (e := .close 0 true) ⟨rfl, nofun⟩ ?_
      refine Machine.reachable_next (e := .reopen true) ⟨trivial, trivial⟩ ?_
      have hfiles : appendNew path file stream
          (Function.update fs ⟨path, file, true⟩ (some [])) =
          Function.update fs ⟨path, file, true⟩ (some stream) :=
        appendNew_update path file [] stream fs
      simp only [Machine.guarded, machine, next, if_true, hfiles]
      exact ih hrest
    | rename file =>
      have hnew : (fs ⟨path, file, true⟩).isSome = true := by
        rcases Option.map_eq_some_iff.mp ho with ⟨stream, hstream, -⟩
        rw [hstream]
        rfl
      refine Machine.reachable_next (e := .rename true) ⟨trivial, fun _ => hnew⟩ ?_
      simp only [Machine.guarded, machine, next, ho, Option.getD_some]
      exact ih hrest

section

variable (hx : ∀ file stream, x.stream file = some stream → stream ≠ [])

include hx

theorem runAll_lost (h : Completed path x before (.saveStream file stream :: ops) gs)
    (lost : Bytes) :
    ∃ hs, FileOp.runAll path ops (Function.update gs ⟨path, file, true⟩ (some lost)) = some hs ∧
      hs ⟨path, file, false⟩ = some lost := by
  obtain ⟨done, hops, hrun⟩ := h
  have hr : x.rtorrent ≠ [] := hx .rtorrent _ rfl
  have hl : x.libtorrent ≠ [] := hx .libtorrentResume _ rfl
  cases ht : x.torrent with
  | none =>
    rcases done with _ | ⟨a, _ | ⟨b, done⟩⟩ <;> simp [saveAndMoveStreams, ht] at hops
    · rcases hops with ⟨⟨rfl, rfl⟩, rfl⟩
      simp [FileOp.runAll_saveStream, FileOp.runAll_rename, FileOp.runAll_nil, hr]
    · rcases hops with ⟨rfl, ⟨rfl, rfl⟩, rfl⟩
      obtain ⟨-, hrun⟩ := FileOp.runAll_saveStream.mp hrun
      cases hrun
      simp [FileOp.runAll_rename, FileOp.runAll_nil]
    · exact absurd hops.2.2 (not_saveStream_mem_renames [_, _])
  | some torrent =>
    rcases done with _ | ⟨a, _ | ⟨b, _ | ⟨c, done⟩⟩⟩ <;> simp [saveAndMoveStreams, ht] at hops
    · rcases hops with ⟨⟨rfl, rfl⟩, rfl⟩
      simp [FileOp.runAll_saveStream, FileOp.runAll_rename, FileOp.runAll_nil, hr, hl]
    · rcases hops with ⟨rfl, ⟨rfl, rfl⟩, rfl⟩
      obtain ⟨-, hrun⟩ := FileOp.runAll_saveStream.mp hrun
      cases hrun
      simp [FileOp.runAll_saveStream, FileOp.runAll_rename, FileOp.runAll_nil, hr]
    · rcases hops with ⟨rfl, rfl, ⟨rfl, rfl⟩, rfl⟩
      obtain ⟨-, hrun⟩ := FileOp.runAll_saveStream.mp hrun
      obtain ⟨-, hrun⟩ := FileOp.runAll_saveStream.mp hrun
      cases hrun
      simp [FileOp.runAll_rename, FileOp.runAll_nil]
    · exact absurd hops.2.2.2 (not_saveStream_mem_renames [_, _, _])

/-- A file that is closed with less than its stream is put in its place if nothing else fails. -/
theorem lost_not_inPlace {lost : Bytes}
    (h : Completed path x before (.saveStream file stream :: ops) gs)
    (hlost : lost.length < stream.length) :
    ∃ t, Reachable ((machine path).guarded Flushes).system
        ⟨Function.update gs ⟨path, file, true⟩ (some lost), .closed ops⟩ t ∧
      ¬ InPlace path x t := by
  rcases runAll_lost hx h lost with ⟨hs, hall, hfile⟩
  refine ⟨⟨hs, .ready []⟩, ?_, ?_⟩
  · refine Machine.reachable_next (e := .reopen true) ⟨trivial, trivial⟩ ?_
    exact reachable_returned hall
  · intro hplace
    obtain ⟨done, hops, -⟩ := h
    have hmem : FileOp.saveStream file stream ∈ saveAndMoveStreams x := by
      rw [← hops]
      exact List.mem_append_right _ List.mem_cons_self
    have hin := hplace rfl file stream (mem_saveAndMoveStreams.mp hmem)
    have hsame : lost = stream := Option.some.inj (hfile.symm.trans hin)
    rw [hsame] at hlost
    exact Nat.lt_irrefl _ hlost

theorem cut_not_inPlace {size kept : ℕ} (h : Follows path x before s)
    (henabled : Enabled path s (.cut size kept)) :
    ∃ t, Reachable ((machine path).guarded Flushes).system (next path s (.cut size kept)) t ∧
      ¬ InPlace path x t := by
  cases h with
  | @ready ops gs hdone => rcases ops with _ | ⟨_ | file, ops⟩ <;> exact henabled.elim
  | @writing file stream written pending ops gs hdone hstream =>
    have hlt : size + kept < pending.length := henabled.1
    have hlost : (written ++ pending.take size ++ (pending.drop size).take kept).length <
        stream.length := by
      rw [← hstream]
      simp only [List.length_append, List.length_take, List.length_drop]
      omega
    obtain ⟨t, ht, hnot⟩ := lost_not_inPlace hx hdone hlost
    refine ⟨t, ?_, hnot⟩
    simp only [next, appendNew_update]
    refine Machine.reachable_next (e := .close 0 true) ⟨rfl, nofun⟩ ?_
    simp only [Machine.guarded, machine, next, if_true, appendNew_update]
    exact ht
  | _ => exact henabled.elim

theorem lost_flush_not_inPlace {size : ℕ} (h : Follows path x before s)
    (henabled : Enabled path s (.close size false)) :
    ∃ t, Reachable ((machine path).guarded Flushes).system (next path s (.close size false)) t ∧
      ¬ InPlace path x t := by
  cases h with
  | @ready ops gs hdone => rcases ops with _ | ⟨_ | file, ops⟩ <;> exact henabled.elim
  | @inserted file stream written pending ops gs hdone hstream =>
    have hlt : size < pending.length := henabled rfl
    simp only [next, appendNew_update]
    refine lost_not_inPlace hx hdone ?_
    rw [← hstream]
    simp only [Bool.false_eq_true, if_false, List.length_append, List.length_take]
    omega
  | _ => exact henabled.elim

end

theorem saved_streams_iff (path : Path) (x : Streams) (before : Directory) (s : State)
    (h : Reachable ((machine path).guarded Flushes).system (start x before) s) :
    (Intact path x before s ∧ InPlace path x s) ∧
    ((∀ file stream, x.stream file = some stream → stream ≠ []) →
      ∀ e, Enabled path s e →
        ((∀ t, Reachable ((machine path).guarded Flushes).system (next path s e) t →
            Intact path x before t ∧ InPlace path x t) ↔ Flushes s e)) := by
  have hs := reachable_follows (start_follows path x before) h
  refine ⟨⟨follows_intact hs, follows_inPlace hs⟩, ?_⟩
  intro hx e henabled
  constructor
  · intro hall
    cases e with
    | cut size kept =>
      rcases cut_not_inPlace hx hs henabled with ⟨t, ht, hnot⟩
      exact hnot (hall t ht).2
    | close size ok =>
      cases ok with
      | true => rfl
      | false =>
        rcases lost_flush_not_inPlace hx hs henabled with ⟨t, ht, hnot⟩
        exact absurd (hall t ht).2 hnot
    | _ => trivial
  · intro hflush t ht
    have ht' := reachable_follows (follows_step hs ⟨⟨hflush, henabled⟩, rfl⟩) ht
    exact ⟨follows_intact ht', follows_inPlace ht'⟩

def resumeStreams : Streams := ⟨none, [4, 5], [6, 7]⟩

def oldFiles : Directory := fun name => if name.isNew then none else some [1]

theorem saved_streams_resume :
    let events : List Event := [.openNew true, .write 1, .insert, .close 0 true, .reopen true,
      .openNew true, .insertNothing]
    Intact (buildPath 0) resumeStreams oldFiles
      ((machine (buildPath 0)).replay (start resumeStreams oldFiles) events) := by
  intro events
  have hrun : ((machine (buildPath 0)).guarded Flushes).Accepts (start resumeStreams oldFiles)
      events :=
    ⟨⟨trivial, trivial⟩, ⟨trivial, Nat.le_succ 1⟩, ⟨trivial, List.cons_ne_nil _ _⟩, ⟨rfl, nofun⟩,
      ⟨trivial, trivial⟩, ⟨trivial, trivial⟩, ⟨trivial, rfl⟩, trivial⟩
  exact (saved_streams_iff (buildPath 0) resumeStreams oldFiles _ ⟨_, hrun.execution⟩).1.1

def longStreams : Streams := ⟨none, [4, 5], List.replicate 9000 6⟩

/-- The second of the two files is written and both are renamed. -/
def restOfCall : List Event :=
  [.reopen true, .openNew true, .insert, .close 0 true, .reopen true, .rename true, .rename true]

/-- The last byte is lost when a short file is closed, and all but 4096 bytes of a long one when it
is written. The call returns. -/
theorem truncated_file_in_place :
    let flushed : List Event := .openNew true :: .insert :: .close 1 false :: restOfCall
    let t := (machine (buildPath 0)).replay (start resumeStreams oldFiles) flushed
    let written : List Event := .openNew true :: .cut 4096 0 :: .close 0 true :: restOfCall
    let u := (machine (buildPath 0)).replay (start longStreams oldFiles) written
    oldFiles ⟨buildPath 0, .libtorrentResume, false⟩ = some [1] ∧
    ((machine (buildPath 0)).Accepts (start resumeStreams oldFiles) flushed ∧ t.pc = .ready [] ∧
      resumeStreams.stream .libtorrentResume = some [6, 7] ∧
      t.files ⟨buildPath 0, .libtorrentResume, false⟩ = some [6]) ∧
    (machine (buildPath 0)).Accepts (start longStreams oldFiles) written ∧ u.pc = .ready [] ∧
      longStreams.stream .libtorrentResume = some (List.replicate 9000 6) ∧
      u.files ⟨buildPath 0, .libtorrentResume, false⟩ = some (List.replicate 4096 6) := by
  refine ⟨rfl, ⟨⟨trivial, List.cons_ne_nil _ _, fun _ => Nat.le_refl 2, trivial, trivial,
    List.cons_ne_nil _ _, nofun, trivial, fun _ => rfl, fun _ => rfl, trivial⟩, rfl, rfl, rfl⟩,
    ⟨trivial, ?_, nofun, trivial, trivial, List.cons_ne_nil _ _, nofun, trivial, fun _ => rfl,
      fun _ => rfl, trivial⟩, rfl, rfl, ?_⟩
  · show 4096 + 0 < (List.replicate 9000 (6 : UInt8)).length ∧
      (List.replicate 9000 (6 : UInt8)).length < (List.replicate 9000 (6 : UInt8)).length + 4096 + 0
    simp only [List.length_replicate]
    omega
  · show some ([] ++ (List.replicate 9000 (6 : UInt8)).take 4096 ++
      ((List.replicate 9000 (6 : UInt8)).drop 4096).take 0) = _
    rw [List.take_zero, List.append_nil, List.nil_append, List.take_replicate,
      Nat.min_eq_left (by decide)]

end SessionStoreFaults
