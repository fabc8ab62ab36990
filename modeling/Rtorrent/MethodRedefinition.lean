import Rtorrent.MethodCommands

/-! # Erasing a method and defining it again

A definition is an entry of the object storage and the commands that read, run or set it.
`method.erase` takes out the first command only, and the entry refuses a later definition. -/
namespace MethodRedefinition

open FallibleRuns RpcTextParser RpcCommandParser RpcCommandMap ObjectStorage MethodCommands

def systemMethodErase (args : Text) : MethodRun Object := do
  let s ← Run.get
  match s.commands (cString args) with
  | none => pure .none
  | some entry =>
    if ¬hasFlag entry.flags flagModifiable then
      Run.ofExcept (inputError "Command not modifiable.")
    else
      match RpcCommandMap.erase s.commands (cString args) with
      | .ok commands => do
        Run.modify fun s => { s with commands := commands }
        pure .none
      | .error e => Run.fail (.error e.1 e.2)

inductive Definition where
  | generic (args : List Object)
  | typed (type : InsertCommand) (args : List Object)

def define (pastEnd : Object) (name : Text) : Definition → MethodRun Object
  | .generic args => perform pastEnd (.insert (.list (.string name :: args)))
  | .typed type args => perform pastEnd (.insertAs type (.list (.string name :: args)))

/-- The name is erased in `t`, where it was defined from `s` on, and then defined again. -/
structure Redefines (pastEnd : Object) (name : Text) (second : Definition) (s t u v : Methods) :
    Prop where
  erased : systemMethodErase name t = (.ok .none, u)
  gone : u.commands name = none ∧ u.commands (setKey name) = none
  redefined : define pastEnd name second u = (.ok .none, v)
  same_commands : ∀ key ∈ [name, setKey name],
    v.commands key = (define pastEnd name second s).2.commands key
  same_entry : v.storage.findRawString name =
    (define pastEnd name second s).2.storage.findRawString name

section

variable {pastEnd r : Object} {name : Text} {s t : Methods}

theorem insertSlot_storage {key : Text} {flags : BitVec 32} {slot : MethodSlot}
    (h : insertSlot key flags slot s = (.ok (), t)) : t.storage = s.storage := by
  unfold insertSlot at h
  split at h
  · cases h
    rfl
  · cases h

theorem insert_stores {object : Object} {flags : BitVec 32} {k : Key}
    (h : onStorage (ObjectStorage.insert name object flags) s = (.ok k, t)) :
    s.storage.entries (.setData name) = none ∧ t.storage.entries (.setData name) ≠ none := by
  rcases insert_cases name object flags s.storage with ⟨e, he⟩ | ⟨stored, ho, -, -, -, hnone⟩
  · rw [onStorage, he] at h
    cases h
  · rw [onStorage, ho] at h
    cases h
    refine ⟨hnone, ?_⟩
    rw [Storage.assign_entries, if_pos rfl]
    exact Option.some_ne_none _

theorem insertObject_stores {args : List Object} {flags : BitVec 32}
    (h : systemMethodInsertObject pastEnd (.string name :: args) flags s = (.ok r, t)) :
    s.storage.entries (.setData name) = none ∧ t.storage.entries (.setData name) ≠ none := by
  change (if _ then _ else _ : MethodRun Object) s = _ at h
  split at h
  · cases h
  obtain ⟨value, u, hvalue, hinsert⟩ := Run.bind_ok h
  obtain ⟨k, v, hstored, hslots⟩ := Run.bind_ok hinsert
  obtain ⟨_, w, hslot, hset⟩ := Run.bind_ok hslots
  have hentry : s.storage.entries (.setData name) = none ∧
      w.storage.entries (.setData name) ≠ none := by
    rw [insertSlot_storage hslot, ← Run.ofExcept_ok hvalue]
    exact insert_stores hstored
  split at hset
  · obtain ⟨_, w', hinserted, hend⟩ := Run.bind_ok hset
    cases hend
    rw [insertSlot_storage hinserted]
    exact hentry
  · cases hset
    exact hentry

theorem define_stores {definition : Definition}
    (h : define pastEnd name definition s = (.ok r, t)) :
    s.storage.entries (.setData name) = none ∧ t.storage.entries (.setData name) ≠ none := by
  cases definition with
  | typed type args => exact insertObject_stores h
  | generic args =>
    cases args with
    | nil => cases h
    | cons option args =>
      change (if _ then _ else _ : MethodRun Object) s = _ at h
      split at h
      · cases h
      obtain ⟨text, u, htext, hparse⟩ := Run.bind_ok h
      obtain ⟨flags, v, hflags, hinsert⟩ := Run.bind_ok hparse
      obtain rfl : v = s := (Run.ofExcept_ok hflags).trans (Run.ofExcept_ok htext)
      split at hinsert
      · obtain ⟨command, w, hcommand, hobject⟩ := Run.bind_ok hinsert
        obtain rfl := Run.ofExcept_ok hcommand
        exact insertObject_stores hobject
      split at hinsert
      · exact insertObject_stores hinsert
      · cases hinsert

theorem erase_storage (args : Text) (s : Methods) :
    (systemMethodErase args s).2.storage = s.storage := by
  rw [systemMethodErase, Run.get_bind]
  cases s.commands (cString args) with
  | none => rfl
  | some entry =>
    dsimp only
    split
    · rfl
    cases RpcCommandMap.erase s.commands (cString args) with
    | ok commands => rfl
    | error e => rfl

end

/-- No definition of a name is accepted once the name was defined, erased or not. -/
theorem redefinition_refused {pastEnd pastEnd' r : Object} {name : Text} {first : Definition}
    {s t : Methods} (hfirst : define pastEnd name first s = (.ok r, t)) (second : Definition) :
    ¬∃ u v, Redefines pastEnd' name second s t u v := by
  rintro ⟨u, v, h⟩
  have hu : u.storage = t.storage := by
    have hstorage := erase_storage name t
    rwa [h.erased] at hstorage
  have hentry := (define_stores h.redefined).1
  rw [hu] at hentry
  exact (define_stores hfirst).2 hentry

def noMethods : Methods := ⟨.empty, fun _ => none⟩

def oneValue : Definition := .typed .value [.value 1]

def twoValue : Definition := .typed .value [.value 2]

def defined : Methods := (define .none ['a'] oneValue noMethods).2

theorem redefinition_refused_value :
    (define .none ['a'] oneValue noMethods).1 = .ok .none ∧
      ¬∃ u v, Redefines .none ['a'] twoValue noMethods defined u v :=
  ⟨rfl, redefinition_refused
    (show define .none ['a'] oneValue noMethods = (.ok .none, defined) from rfl)
    twoValue⟩

/-- Both definitions are accepted and so is the erasure, but after it the second definition is
refused. -/
theorem value_not_redefined :
    (define .none ['a'] twoValue noMethods).1 = .ok .none ∧
      (systemMethodErase ['a'] defined).1 = .ok .none ∧
      ((systemMethodErase ['a'] defined).2.commands (setKey ['a'])).isSome ∧
      (define .none ['a'] twoValue (systemMethodErase ['a'] defined).2).1 =
        inputError "Invalid key." ∧
      ¬∃ u v, Redefines .none ['a'] twoValue noMethods defined u v := by
  refine ⟨rfl, rfl, rfl, rfl, ?_⟩
  rintro ⟨u, v, h⟩
  have hgone := h.gone.2
  have hu : u = (systemMethodErase ['a'] defined).2 := by rw [h.erased]
  rw [hu] at hgone
  cases hgone

end MethodRedefinition
