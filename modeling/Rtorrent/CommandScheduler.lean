import Mathlib.Data.List.Nodup
import Rtorrent.RpcValueParser

/-! # The command scheduler

The items are pointers to objects of their own, so an item is a number that is never used
again together with the object. The objects that exist are those in the vector. Times are in
microseconds. -/
namespace CommandScheduler

open FallibleRuns RpcTextParser RpcCommandParser RpcValueParser

/-- The value an `int` has after an operation with this result. -/
def int32 (v : ℤ) : ℤ := Int.bmod v (2 ^ 32)

def uint32 (v : ℤ) : ℕ := (v % 2 ^ 32).toNat

/-- The loop of `parse_time` in front of a field; `left` fields may follow it. -/
def parseTimeLoop (left : ℕ) (second : ℤ) (str : Text) : ℕ × ℤ :=
  match strtoll 10 str with
  | none => (0, 0)
  | some (value, pos) =>
    let second := int32 (second + value)
    if second < 0 then (0, 0)
    else
      match pos.dropWhile isSpace with
      | [] => (4 - left, second)
      | c :: str =>
        match left with
        | 0 => (0, 0)
        | left + 1 =>
          if c ≠ ':' then (0, 0)
          else parseTimeLoop left (int32 (second * if left + 1 ≤ 1 then 24 else 60)) str

/-- The number of fields, which is 0 when the text is refused, and the time. -/
def parseTime (str : Text) : ℕ × ℤ := parseTimeLoop 3 0 (cString str)

structure LocalTime where
  hour : ℕ
  min : ℕ
  sec : ℕ
  deriving DecidableEq, Repr

/-- `this_thread::cached_time()` and what `localtime_r` returns for it. -/
structure Clock where
  cachedTime : ℕ
  localTime : Option LocalTime
  deriving DecidableEq, Repr

def readLocalTime (clock : Clock) : Except Failure LocalTime :=
  match clock.localTime with
  | some t => .ok t
  | none => inputError "Could not convert unix time to local time."

def parseAbsolute (clock : Clock) (str : Text) : Except Failure ℕ :=
  match parseTime str with
  | (1, second) => .ok (uint32 second)
  | (2, second) => do
    let t ← readLocalTime clock
    .ok (uint32 (Int.tmod (int32 (second + 3600 - 60 * t.min - t.sec)) 3600))
  | (3, second) => do
    let t ← readLocalTime clock
    .ok (uint32 (Int.tmod (int32 (second + 24 * 3600 - 3600 * t.hour - 60 * t.min - t.sec))
      (24 * 3600)))
  | _ => inputError "Could not parse interval."

def parseInterval (str : Text) : Except Failure ℕ :=
  match parseTime str with
  | (0, _) => inputError "Could not parse interval."
  | (_, second) => .ok (uint32 second)

abbrev ItemId := ℕ

/-- `isQueued` says that the task waits in the scheduler of the thread, for `timeScheduled`. -/
structure Item where
  key : Text
  command : Object
  interval : ℕ
  timeScheduled : ℕ
  isQueued : Bool

def Item.new (key : Text) : Item := ⟨key, .none, 0, 0, false⟩

structure Scheduler where
  items : List (ItemId × Item)
  nextId : ItemId
  fresh : ∀ p ∈ items, p.1 < nextId
  ids_nodup : (items.map (·.1)).Nodup
  keys_nodup : (items.map (·.2.key)).Nodup
  named : ∀ p ∈ items, p.2.key ≠ []

def Scheduler.empty : Scheduler := ⟨[], 0, by simp, by simp, by simp, by simp⟩

def Scheduler.find (s : Scheduler) (key : Text) : Option (ItemId × Item) :=
  s.items.find? (·.2.key = key)

def Scheduler.item (s : Scheduler) (id : ItemId) : Option Item :=
  (s.items.find? (·.1 = id)).map (·.2)

def Scheduler.contains (s : Scheduler) (id : ItemId) : Prop := id ∈ s.items.map (·.1)

instance (s : Scheduler) (id : ItemId) : Decidable (s.contains id) :=
  inferInstanceAs (Decidable (_ ∈ _))

variable {s : Scheduler} {id : ItemId}

theorem Scheduler.item_eq_none : s.item id = none ↔ ¬s.contains id := by
  rw [Scheduler.item, Option.map_eq_none_iff, List.find?_eq_none, Scheduler.contains, List.mem_map]
  simp only [decide_eq_true_eq, not_exists, not_and]

theorem Scheduler.item_mem {it : Item} (h : s.item id = some it) : (id, it) ∈ s.items := by
  obtain ⟨⟨i, o⟩, hf, rfl⟩ := Option.map_eq_some_iff.mp h
  have hi : i = id := by simpa using List.find?_some hf
  rw [← hi]
  exact List.mem_of_find?_eq_some hf

variable {p q : ItemId × Item}

theorem Scheduler.eq_of_key (hp : p ∈ s.items) (hq : q ∈ s.items) (h : p.2.key = q.2.key) : p = q :=
  List.inj_on_of_nodup_map s.keys_nodup hp hq h

theorem Scheduler.eq_of_id (hp : p ∈ s.items) (hq : q ∈ s.items) (h : p.1 = q.1) : p = q :=
  List.inj_on_of_nodup_map s.ids_nodup hp hq h

def replaced (id : ItemId) (key : Text) (p : ItemId × Item) : ItemId × Item :=
  if p.2.key = key then (id, .new key) else p

variable (id : ItemId) (key : Text) (c : Change) (p : ItemId × Item)

theorem replaced_key : (replaced id key p).2.key = p.2.key := by
  rw [replaced]
  split
  · rename_i h
    exact h.symm
  · rfl

/-- `insert` on a key that an item has. -/
def Scheduler.replace (s : Scheduler) (key : Text) : Scheduler where
  items := s.items.map (replaced s.nextId key)
  nextId := s.nextId + 1
  fresh := by
    intro p hp
    obtain ⟨q, hq, rfl⟩ := List.mem_map.mp hp
    rw [replaced]
    split
    · exact Nat.lt_succ_self _
    · exact Nat.lt_succ_of_lt (s.fresh q hq)
  ids_nodup := by
    rw [List.map_map]
    refine s.ids_nodup.of_map.map_on ?_
    intro p hp q hq h
    simp only [Function.comp_apply, replaced] at h
    split at h <;> split at h
    · rename_i hk hk'
      exact s.eq_of_key hp hq (hk.trans hk'.symm)
    · exact absurd h.symm (Nat.ne_of_lt (s.fresh q hq))
    · exact absurd h (Nat.ne_of_lt (s.fresh p hp))
    · exact s.eq_of_id hp hq h
  keys_nodup := by simpa [Function.comp_def, replaced_key] using s.keys_nodup
  named := by
    intro p hp
    obtain ⟨q, hq, rfl⟩ := List.mem_map.mp hp
    rw [replaced_key]
    exact s.named q hq

/-- `insert` on a new key. -/
def Scheduler.append (s : Scheduler) (key : Text) (hk : s.find key = none) (hn : key ≠ []) :
    Scheduler where
  items := s.items ++ [(s.nextId, .new key)]
  nextId := s.nextId + 1
  fresh := by
    intro p hp
    rcases List.mem_append.mp hp with hp | hp
    · exact Nat.lt_succ_of_lt (s.fresh p hp)
    · rw [List.mem_singleton.mp hp]
      exact Nat.lt_succ_self _
  ids_nodup := by
    rw [List.map_append, List.nodup_append']
    refine ⟨s.ids_nodup, by simp, ?_⟩
    intro id hi hj
    obtain ⟨p, hp, rfl⟩ := List.mem_map.mp hi
    exact Nat.ne_of_lt (s.fresh p hp) (by simpa using hj)
  keys_nodup := by
    rw [List.map_append, List.nodup_append']
    refine ⟨s.keys_nodup, by simp, ?_⟩
    intro k hi hj
    obtain ⟨p, hp, rfl⟩ := List.mem_map.mp hi
    have hne := List.find?_eq_none.mp hk p hp
    exact hne (by simpa [Item.new] using hj)
  named := by
    intro p hp
    rcases List.mem_append.mp hp with hp | hp
    · exact s.named p hp
    · rw [List.mem_singleton.mp hp]
      exact hn

/-- `erase(find(key))`. -/
def Scheduler.eraseStr (s : Scheduler) (key : Text) : Scheduler where
  items := s.items.filter (·.2.key ≠ key)
  nextId := s.nextId
  fresh := fun p hp => s.fresh p (List.mem_of_mem_filter hp)
  ids_nodup := s.ids_nodup.sublist (List.filter_sublist.map _)
  keys_nodup := s.keys_nodup.sublist (List.filter_sublist.map _)
  named := fun p hp => s.named p (List.mem_of_mem_filter hp)

structure Change where
  apply : Item → Item
  key : ∀ it, (apply it).key = it.key

def changed (id : ItemId) (c : Change) (p : ItemId × Item) : ItemId × Item :=
  if p.1 = id then (p.1, c.apply p.2) else p

theorem changed_id : (changed id c p).1 = p.1 := by
  rw [changed]
  split <;> rfl

theorem changed_key : (changed id c p).2.key = p.2.key := by
  rw [changed]
  split
  · exact c.key p.2
  · rfl

def Scheduler.change (s : Scheduler) (id : ItemId) (c : Change) : Scheduler where
  items := s.items.map (changed id c)
  nextId := s.nextId
  fresh := by
    intro p hp
    obtain ⟨q, hq, rfl⟩ := List.mem_map.mp hp
    rw [changed_id]
    exact s.fresh q hq
  ids_nodup := by simpa [Function.comp_def, changed_id] using s.ids_nodup
  keys_nodup := by simpa [Function.comp_def, changed_key] using s.keys_nodup
  named := by
    intro p hp
    obtain ⟨q, hq, rfl⟩ := List.mem_map.mp hp
    rw [changed_key]
    exact s.named q hq

/-- The places where `call_item` uses its pointer behind the command. -/
inductive Access where
  | isQueued
  | key
  | nextTimeScheduled
  | enable
  deriving DecidableEq, Repr

/-- An exception, or the use of a pointer to an item that has been deleted. -/
inductive Fault where
  | thrown (failure : Failure)
  | dangling (access : Access)
  deriving DecidableEq, Repr

abbrev Call := Run Fault Scheduler

def throwing {α : Type} (kind : ErrorKind) (what : String) : Call α :=
  Run.fail (.thrown (.error kind what))

def ofParser {α : Type} (r : Except Failure α) : Call α :=
  Run.ofExcept (r.mapError Fault.thrown)

variable {α : Type}

theorem ofParser_error (e : Failure) (s : Scheduler) :
    (ofParser (.error e) : Call α) s = (.error (.thrown e), s) := rfl

theorem ofParser_ok_bind {β : Type} (a : α) (f : α → Call β) :
    (ofParser (.ok a) >>= f) = f a := rfl

def deref (access : Access) (id : ItemId) : Call Item := fun s =>
  match s.item id with
  | some it => (.ok it, s)
  | none => (.error (.dangling access), s)

def change (id : ItemId) (c : Change) : Call Unit := Run.modify (·.change id c)

theorem change_bind (f : Unit → Call α) (s : Scheduler) :
    (change id c >>= f) s = f () (s.change id c) := rfl

def second : ℕ := 1000000

def ceilSeconds (t : ℕ) : ℕ := (t + (second - 1)) / second * second

def enable (id : ItemId) (t : ℕ) : Call Unit := do
  if t = 0 then throwing .internalError "CommandSchedulerItem::enable() t == 0."
  let _ ← deref .enable id
  change id ⟨fun it => { it with timeScheduled := t, isQueued := true }, fun _ => rfl⟩

/-- The `do … while` loop of `next_time_scheduled`. -/
def advance (step limit next : ℕ) : ℕ :=
  if 0 < step ∧ next + step ≤ limit then advance step limit (next + step) else next + step
termination_by limit - next
decreasing_by omega

def nextTimeScheduled (clock : Clock) (id : ItemId) : Call ℕ := do
  let it ← deref .nextTimeScheduled id
  if it.interval = 0 then pure 0
  else if it.timeScheduled = 0 then
    throwing .internalError "CommandSchedulerItem::next_time_scheduled() m_time_scheduled == 0."
  else pure (advance (it.interval * second) (ceilSeconds clock.cachedTime) it.timeScheduled)

def Scheduler.insert (key : Text) : Call ItemId := fun s =>
  if hn : key = [] then throwing .inputError "Scheduler received an empty key." s
  else if hk : s.find key = none then (.ok s.nextId, s.append key hk hn)
  else (.ok s.nextId, s.replace key)

def isCommand : Object → Bool
  | .string _ | .dictKey _ _ _ => true
  | _ => false

/-- A `bencode_error` is an `input_error`. -/
def parse (clock : Clock) (key bufAbsolute bufInterval : Text) (command : Object) : Call Unit := do
  if isCommand command = false then
    throwing .inputError "Invalid type passed to command scheduler."
  let absolute ← ofParser (parseAbsolute clock bufAbsolute)
  let interval ← ofParser (parseInterval bufInterval)
  let id ← Scheduler.insert key
  change id ⟨fun it => { it with command := command, interval := interval }, fun _ => rfl⟩
  enable id (ceilSeconds (clock.cachedTime + absolute * second))

def asString : Object → Except Failure Text
  | .string s => .ok s
  | _ => inputError "Wrong object type."

theorem asString_ok {obj : Object} {s : Text} (h : asString obj = .ok s) : obj = .string s := by
  cases obj with
  | string t => cases h; rfl
  | _ => cases h

def applySchedule (clock : Clock) (ifAbsent : Bool) (args : List Object) : Call Unit :=
  match args with
  | [arg1, arg2, arg3, command] => do
    let key ← ofParser (asString arg1)
    let bufAbsolute ← ofParser (asString arg2)
    let bufInterval ← ofParser (asString arg3)
    let s ← Run.get
    if ifAbsent = true ∧ s.find key ≠ none then pure ()
    else parse clock key bufAbsolute bufInterval command
  | _ => throwing .inputError "Wrong number of arguments."

inductive Command where
  | schedule (ifAbsent : Bool) (args : List Object)
  | scheduleRemove (key : Text)

def Command.run (clock : Clock) : Command → Call Unit
  | .schedule ifAbsent args => applySchedule clock ifAbsent args
  | .scheduleRemove key => Run.modify (·.eraseStr key)

/-- The calls that the command of an item makes, which may throw, and the exception it ends with.
-/
structure Behaviour where
  calls : List Command
  ending : Option (ErrorKind × String)

def perform (clock : Clock) (s : Scheduler) (c : Command) : Scheduler := (c.run clock s).2

def Behaviour.state (b : Behaviour) (clock : Clock) (s : Scheduler) : Scheduler :=
  b.calls.foldl (perform clock) s

def Behaviour.result (b : Behaviour) : Except Fault Unit :=
  match b.ending with
  | none => .ok ()
  | some (kind, what) => .error (.thrown (.error kind what))

def Behaviour.run (b : Behaviour) (clock : Clock) : Call Unit := fun s =>
  (b.result, b.state clock s)

/-- What `catch (torrent::input_error&)` catches. -/
def isInputError : ErrorKind → Bool
  | .inputError | .untrustedError => true
  | _ => false

/-- The handler of `call_item`; `report` says that `m_slotErrorMessage` is set, which is given the
key. -/
def onError (report : Bool) (id : ItemId) : Fault → Call Unit
  | .thrown (.error kind what) =>
    if isInputError kind = true then
      if report = true then (do let _ ← deref .key id) else pure ()
    else throwing kind what
  | e => Run.fail e

/-- The part of `call_item` behind the command. -/
def reschedule (clock : Clock) (id : ItemId) : Call Unit := do
  let next ← nextTimeScheduled clock id
  if next = 0 then pure ()
  else if next ≤ clock.cachedTime then
    throwing .internalError
      "CommandScheduler::call_item(...) tried to schedule a zero interval item."
  else enable id next

def callItem (clock : Clock) (report : Bool) (id : ItemId) (command : Behaviour) : Call Unit := do
  let it ← deref .isQueued id
  if it.isQueued = true then
    throwing .internalError "CommandScheduler::call_item(...) called but item is still queued."
  let s ← Run.get
  if ¬s.contains id then
    throwing .internalError
      "CommandScheduler::call_item(...) called but the item isn't in the scheduler."
  Run.handle (command.run clock) (onError report id)
  reschedule clock id

/-- The scheduler of the thread takes the task of a due item out before it calls its slot. -/
def Scheduler.fire (s : Scheduler) (id : ItemId) : Scheduler :=
  s.change id ⟨fun it => { it with isQueued := false }, fun _ => rfl⟩

end CommandScheduler
