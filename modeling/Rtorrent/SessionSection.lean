import Mathlib.Algebra.Group.Int.Defs
import Rtorrent.FallibleRuns
import Rtorrent.RpcTextParser

/-! # The section of a session file

`DownloadFactory::initialize_rtorrent` checks and completes the `rtorrent` section that was read
for a download. -/
namespace SessionSection

open FallibleRuns RpcTextParser

def IsInt64 (v : ℤ) : Prop := -2 ^ 63 ≤ v ∧ v < 2 ^ 63

def FitsInt64 : Object → Prop
  | .value v => IsInt64 v
  | _ => True

abbrev Item := { obj : Object // FitsInt64 obj }

abbrev Section := String → Option Item

def valueOf : Object → Option ℤ
  | .value v => some v
  | _ => none

def stringOf : Object → Option Text
  | .string s => some s
  | _ => none

/-- The type of an object, as `Object::type` tells them apart. -/
def sameType : Object → Object → Bool
  | .none, .none => true
  | .value _, .value _ => true
  | .string _, .string _ => true
  | .rawString _, .rawString _ => true
  | .list _, .list _ => true
  | .map _, .map _ => true
  | .dictKey .., .dictKey .. => true
  | _, _ => false

/-- The integer at a key, if there is one. -/
def keyValue (s : Section) (key : String) : Option ℤ := (s key).bind fun item => valueOf item.1

def keyString (s : Section) (key : String) : Option Text := (s key).bind fun item => stringOf item.1

def hasKeyValue (s : Section) (key : String) : Bool := (keyValue s key).isSome

/-- `get_key_value`, which is only called where `has_key_value` is true. -/
def getKeyValue (s : Section) (key : String) : ℤ := (keyValue s key).getD 0

def insertKey (key : String) (item : Item) (s : Section) : Section :=
  fun k => if k = key then some item else s k

/-- What is there is kept, whatever its type. -/
def insertPreserveCopy (key : String) (item : Item) (s : Section) : Section :=
  fun k => if k = key then some ((s key).getD item) else s k

/-- What is there is kept if it has the type of the object. -/
def insertPreserveType (key : String) (item : Item) (s : Section) : Section :=
  fun k => if k = key then
    some (((s key).filter fun old => sameType old.1 item.1).getD item) else s k

def small (v : ℤ) (h : 0 ≤ v ∧ v < 2 ^ 32) : Item :=
  ⟨.value v, ⟨by omega, by omega⟩⟩

def zero : Item := small 0 (by decide)

def text (s : Text) : Item := ⟨.string s, trivial⟩

/-- A current time, in seconds. -/
structure Seconds where
  count : ℤ
  pos : 1 ≤ count
  fits : count < 2 ^ 63

def Seconds.item (now : Seconds) : Item := ⟨.value now.count, ⟨by have := now.pos; omega, now.fits⟩⟩

/-- The members of the factory that are used. -/
structure Factory where
  start : Bool
  isFile : Bool
  uri : Text
  connectionLeech : Item
  connectionSeed : Item

structure Download where
  rtorrent : Section
  isDone : Bool
  isActive : Bool
  weight : ℕ
  uploaded : ℕ
  downloaded : ℕ
  throttle : Text

def toUint (width : ℕ) (v : ℤ) : ℕ := (v % 2 ^ width).toNat

def resetState (now : Seconds) (s : Section) : Section :=
  insertKey "state_counter" zero (insertKey "state_changed" now.item s)

/-- The two branches on the state of the download. The counter is compared as an unsigned number. -/
def checkState (start : Bool) (now : Seconds) (s : Section) : Section :=
  if ¬hasKeyValue s "state" ∨ 1 < getKeyValue s "state" then
    resetState now (insertKey "state" (small start.toInt (by cases start <;> decide)) s)
  else if ¬hasKeyValue s "state_changed" ∨ now.count < getKeyValue s "state_changed" ∨
      getKeyValue s "state_changed" = 0 ∨ ¬hasKeyValue s "state_counter" ∨
      1 <<< 20 < toUint 64 (getKeyValue s "state_counter") then
    resetState now s
  else s

def priorityItem (p : ℕ) : Item := small (p % 4 : ℕ) (by omega)

/-- `d.priority.set`, whose argument becomes a `uint32_t`. -/
def setPriority (v : ℤ) (d : Download) : Download :=
  let p := toUint 32 v % 4
  { d with
    weight := if d.isDone then p * p else p * p * 2
    rtorrent := insertKey "priority" (priorityItem (toUint 32 v)) d.rtorrent }

def setThrottleName (name : Text) (d : Download) : Except Failure Download :=
  if d.isActive then inputError "Cannot set throttle on active download."
  else .ok { d with throttle := name, rtorrent := insertKey "throttle_name" (text name) d.rtorrent }

def onSection (f : Section → Section) (d : Download) : Download :=
  { d with rtorrent := f d.rtorrent }

/-- The keys up to `loaded_file`. -/
def fillFirst (f : Factory) (s : Section) : Section :=
  let s := insertPreserveCopy "complete" zero s
  let s := insertPreserveCopy "hashing" zero s
  let s := insertPreserveCopy "timestamp.started" zero s
  let s := insertPreserveCopy "timestamp.finished" zero s
  let s := insertPreserveCopy "tied_to_file" (text []) s
  insertKey "loaded_file" (text (if f.isFile then f.uri else [])) s

/-- The keys from `ignore_commands` on. -/
def fillLast (f : Factory) (s : Section) : Section :=
  let s := insertPreserveCopy "ignore_commands" zero s
  let s := insertPreserveCopy "views" ⟨.list [], trivial⟩ s
  let s := insertPreserveType "connection_leech" f.connectionLeech s
  let s := insertPreserveType "connection_seed" f.connectionSeed s
  let s := insertPreserveCopy "choke_heuristics.up.leech" (text []) s
  let s := insertPreserveCopy "choke_heuristics.up.seed" (text []) s
  let s := insertPreserveCopy "choke_heuristics.down.leech" (text []) s
  insertPreserveCopy "choke_heuristics.down.seed" (text []) s

/-- The priority in the section is brought into range, with the sign that `%` has, and set. -/
def initializePriority (d : Download) : Download :=
  if hasKeyValue d.rtorrent "priority" then
    setPriority ((getKeyValue d.rtorrent "priority").tmod 4) d
  else setPriority 2 d

def initializeTotals (d : Download) : Download :=
  { d with
    uploaded := if hasKeyValue d.rtorrent "total_uploaded" then
      toUint 64 (getKeyValue d.rtorrent "total_uploaded") else d.uploaded
    downloaded := if hasKeyValue d.rtorrent "total_downloaded" then
      toUint 64 (getKeyValue d.rtorrent "total_downloaded") else d.downloaded }

/-- `set_chunks_done` is a function of the library, which may throw. -/
def initializeChunks (setChunksDone : ℕ → ℕ → Except Failure Unit) (s : Section) :
    Except Failure Unit :=
  if hasKeyValue s "chunks_done" && hasKeyValue s "chunks_wanted" then
    setChunksDone (toUint 32 (getKeyValue s "chunks_done"))
      (toUint 32 (getKeyValue s "chunks_wanted"))
  else .ok ()

def initializeRtorrent (f : Factory) (setChunksDone : ℕ → ℕ → Except Failure Unit) (now : Seconds)
    (d : Download) : Except Failure Download := do
  let d := onSection (fun s => fillFirst f (checkState f.start now s)) d
  let d := initializeTotals (initializePriority d)
  initializeChunks setChunksDone d.rtorrent
  let d ← setThrottleName ((keyString d.rtorrent "throttle_name").getD []) d
  pure (onSection (fillLast f) d)

variable {d e : Download}

/-- The section when the function returns, from that with the state checked. -/
def filled (f : Factory) (name : Text) (p : ℕ) (s : Section) : Section :=
  fillLast f (insertKey "throttle_name" (text name)
    (insertKey "priority" (priorityItem p) (fillFirst f s)))

variable {s : Section} {key : String} {v : ℤ}

section Filled

variable {f : Factory} {s : Section} {name : Text} {p : ℕ} {key : String}

variable {s t : Section}

variable {now : Seconds}

end Filled

def inactive (s : Section) : Download := ⟨s, false, false, 0, 0, 0, []⟩

def stored : Section
  | "state" | "state_changed" => some (small 1 (by decide))
  | "state_counter" => some (small 3 (by decide))
  | "priority" => some (small 7 (by decide))
  | "views" => some ⟨.list [.string "main".toList], trivial⟩
  | _ => none

end SessionSection
