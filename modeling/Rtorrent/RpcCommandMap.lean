import Rtorrent.RpcCommandParser

/-! # The command map

A slot is any code that runs other commands only through the map: it changes the rest of the
program, sees the results of nested calls and may change the map. -/
namespace RpcCommandMap

open FallibleRuns RpcTextParser RpcCommandParser

def flagPublicRpc : BitVec 32 := 0x4
def flagIsRedirect : BitVec 32 := 0x20
def flagHasRedirects : BitVec 32 := 0x40
def flagFileTarget : BitVec 32 := 0x100
def flagTrackerTarget : BitVec 32 := 0x200
def flagUntrustedSafe : BitVec 32 := 0x400

def hasFlag (flags flag : BitVec 32) : Bool := flags &&& flag != 0

abbrev Error := ErrorKind × String

structure Entry (κ : Type) where
  flags : BitVec 32
  slot : κ

abbrev CommandMap (κ : Type) := Text → Option (Entry κ)

inductive MapOperation (κ : Type) where
  | insert (key : Text) (flags : BitVec 32) (slot : κ)
  | createRedirect (keyNew keyDest : Text) (flags : BitVec 32)
  | markSafe (key : Text)
  | erase (key : Text)

section

variable {κ : Type}

def insert (m : CommandMap κ) (key : Text) (flags : BitVec 32) (slot : κ) :
    Except Error (CommandMap κ) :=
  match m key with
  | some _ =>
    .error (.internalError, "CommandMap::insert(...) tried to insert an already existing key.")
  | none => .ok (Function.update m key (some ⟨flags, slot⟩))

def createRedirect (m : CommandMap κ) (keyNew keyDest : Text) (flags : BitVec 32) :
    Except Error (CommandMap κ) :=
  match m keyDest, m keyNew with
  | none, _ => .error (.inputError,
      "Tried to redirect to a key that doesn't exist: '" ++ String.ofList keyDest ++ "'.")
  | some _, some _ => .error (.inputError,
      "Tried to create a redirect key that already exists: '" ++ String.ofList keyNew ++ "'.")
  | some dest, none =>
    if hasFlag dest.flags flagIsRedirect then .error (.inputError,
      "Tried to redirect to a key that is not marked 'flag_is_redirect': '" ++
        String.ofList keyDest ++ "'.")
    else
      let destFlags := dest.flags ||| flagHasRedirects
      let flags := flags ||| (destFlags &&& ~~~(flagHasRedirects ||| flagPublicRpc))
      .ok (Function.update (Function.update m keyDest (some { dest with flags := destFlags }))
        keyNew (some ⟨flags, dest.slot⟩))

def markSafe (m : CommandMap κ) (key : Text) : CommandMap κ :=
  match m key with
  | none => m
  | some entry =>
    Function.update m key (some { entry with flags := entry.flags ||| flagUntrustedSafe })

def erase (m : CommandMap κ) (key : Text) : Except Error (CommandMap κ) :=
  match m key with
  | none => .ok m
  | some entry =>
    if hasFlag entry.flags flagHasRedirects then
      .error (.inputError, "Can't erase a command that has redirects.")
    else .ok (Function.update m key none)

def MapOperation.apply (m : CommandMap κ) : MapOperation κ → Except Error (CommandMap κ)
  | .insert key flags slot => RpcCommandMap.insert m key flags slot
  | .createRedirect keyNew keyDest flags => RpcCommandMap.createRedirect m keyNew keyDest flags
  | .markSafe key => .ok (RpcCommandMap.markSafe m key)
  | .erase key => RpcCommandMap.erase m key

/-- An operation that throws leaves the map as it is. -/
def buildMap (ops : List (MapOperation κ)) : CommandMap κ :=
  ops.foldl (fun m op => match op.apply m with
    | .ok m => m
    | .error _ => m) fun _ => none

end

/-- The ways in which code calls commands. -/
inductive Request (τ : Type) where
  | callCommand (key : Text) (args : Object) (target : τ)
  | callCatch (key : Text) (args : Object) (target : τ) (err : String)
  | callObject (command : Object) (target : τ)
  | parseCommand (text : Text) (target : τ)

/-- `ω` is the state of the program outside the command map. -/
inductive Body (ω τ : Type) : Type
  | done (result : Object)
  | throw (kind : ErrorKind) (what : String)
  | access (f : ω → ω) (next : ω → Body ω τ)
  | call (request : Request τ) (next : Except Error Object → Body ω τ)
  | change (op : MapOperation (τ → Object → Body ω τ)) (next : Except Error Unit → Body ω τ)

abbrev Slot (ω τ : Type) := τ → Object → Body ω τ

/-- A slot that was run: its key and its flags at that time. -/
structure Ran where
  key : Text
  flags : BitVec 32
  deriving DecidableEq

structure State (ω τ : Type) where
  commands : CommandMap (Slot ω τ)
  trusted : Bool
  world : ω
  log : List String
  ran : List Ran

/-- How the requests of the code that runs are carried out. -/
abbrev Performer (ω τ : Type) := Request τ → CommandRun (State ω τ) Object

variable {ω τ : Type}

/-- Gives an error to the code that may catch it. -/
def attempt {σ α : Type} (x : CommandRun σ α) : CommandRun σ (Except Error α) :=
  Run.handle (do let a ← x; pure (.ok a)) fun
    | .error kind what => pure (.error (kind, what))
    | .outOfFuel => Run.fail .outOfFuel

def runBody (perform : Performer ω τ) : Body ω τ → CommandRun (State ω τ) Object
  | .done result => pure result
  | .throw kind what => Run.fail (.error kind what)
  | .access f next => do
    let s ← Run.get
    Run.modify fun s => { s with world := f s.world }
    runBody perform (next s.world)
  | .call request next => do
    let result ← attempt (perform request)
    runBody perform (next result)
  | .change op next => do
    let s ← Run.get
    match op.apply s.commands with
    | .ok commands =>
      Run.modify fun s => { s with commands := commands }
      runBody perform (next (.ok ()))
    | .error e => runBody perform (next (.error e))

/-- `call_command` on an iterator, the only place where a slot is run. -/
def callEntry (perform : Performer ω τ) (key : Text) (entry : Entry (Slot ω τ)) (args : Object)
    (target : τ) : CommandRun (State ω τ) Object := do
  let s ← Run.get
  if !s.trusted && !hasFlag entry.flags flagUntrustedSafe then
    Run.fail (.error .untrustedError
      ("Command \"" ++ String.ofList key ++ "\" is not allowed for untrusted connections."))
  else
    Run.modify fun s => { s with ran := ⟨key, entry.flags⟩ :: s.ran }
    runBody perform (entry.slot target args)

def callCommand (perform : Performer ω τ) : CallCommand (State ω τ) τ := fun key args target => do
  let s ← Run.get
  match s.commands key with
  | none => Run.fail (.error .inputError
      ("Command \"" ++ String.ofList key ++ "\" does not exist."))
  | some entry => callEntry perform key entry args target

def callCatch (call : CallCommand (State ω τ) τ) (key : Text) (args : Object) (target : τ)
    (err : String) : CommandRun (State ω τ) Object :=
  Run.handle (call key args target) fun
    | .error .inputError what | .error .untrustedError what => do
      Run.modify fun s => { s with log := (err ++ what) :: s.log }
      pure .none
    | e => Run.fail e

/-- Calls nest at most `depth` deep, and each loop over commands takes at most `depth` turns. -/
def perform : ℕ → Request τ → CommandRun (State ω τ) Object
  | 0, _ => Run.fail .outOfFuel
  | depth + 1, .callCommand key args target => callCommand (perform depth) key args target
  | depth + 1, .callCatch key args target err =>
    callCatch (callCommand (perform depth)) key args target err
  | depth + 1, .callObject command target =>
    callObject (callCommand (perform depth)) depth target command
  | depth + 1, .parseCommand text target => do
    let r ← parseCommand (callCommand (perform depth)) target text
    pure r.1

def Ran.Safe (r : Ran) : Prop := hasFlag r.flags flagUntrustedSafe = true

/-- The trust flag stays, and while it is off only safe slots are run. -/
structure TrustKept (s t : State ω τ) : Prop where
  trusted : t.trusted = s.trusted
  ran : s.trusted = false → ∀ r ∈ t.ran, r ∈ s.ran ∨ r.Safe

theorem TrustKept.refl (s : State ω τ) : TrustKept s s := ⟨rfl, fun _ _ hr => .inl hr⟩

theorem TrustKept.trans {s t u : State ω τ} (h : TrustKept s t) (k : TrustKept t u) :
    TrustKept s u := by
  refine ⟨k.trusted.trans h.trusted, ?_⟩
  intro hs r hr
  rcases k.ran (h.trusted.trans hs) r hr with hr | hr
  · exact h.ran hs r hr
  · exact .inr hr

theorem TrustKept.of_eq {s t : State ω τ} (ht : t.trusted = s.trusted) (hr : t.ran = s.ran) :
    TrustKept s t :=
  ⟨ht, fun _ _ h => .inl (hr ▸ h)⟩

abbrev KeepsTrust {α : Type} (x : CommandRun (State ω τ) α) : Prop := Keeps TrustKept x

theorem keepsTrust_compositional (F : Failure → Prop) :
    Compositional F (@Keeps Failure (State ω τ) TrustKept) :=
  keeps_compositional .refl (fun _ _ _ => .trans) F

section

variable {request : Performer ω τ}

theorem keepsTrust_handle {α : Type} {x : CommandRun (State ω τ) α}
    {h : Failure → CommandRun (State ω τ) α} (hx : KeepsTrust x) (hh : ∀ e, KeepsTrust (h e)) :
    KeepsTrust (Run.handle x h) :=
  keeps_handle (fun _ _ _ => .trans) hx hh

theorem attempt_keeps {α : Type} {x : CommandRun (State ω τ) α} (hx : KeepsTrust x) :
    KeepsTrust (attempt x) := by
  have hQ := keepsTrust_compositional (ω := ω) (τ := τ) fun _ => True
  apply keepsTrust_handle (hQ.bind hx fun _ => hQ.pure _)
  intro e
  cases e with
  | error kind what => exact hQ.pure _
  | outOfFuel => exact hQ.fail trivial

theorem runBody_keeps (hr : ∀ r, KeepsTrust (request r)) :
    ∀ body : Body ω τ, KeepsTrust (runBody request body)
  | .done result => (keepsTrust_compositional fun _ => True).pure _
  | .throw kind what => (keepsTrust_compositional fun _ => True).fail trivial
  | .access f next => by
    have hQ := keepsTrust_compositional (ω := ω) (τ := τ) fun _ => True
    rw [runBody]
    refine hQ.bind .refl fun s => hQ.bind (fun s => ?_) fun _ => runBody_keeps hr (next s.world)
    exact .of_eq rfl rfl
  | .call r next => by
    have hQ := keepsTrust_compositional (ω := ω) (τ := τ) fun _ => True
    rw [runBody]
    exact hQ.bind (attempt_keeps (hr r)) fun result => runBody_keeps hr (next result)
  | .change op next => by
    have hQ := keepsTrust_compositional (ω := ω) (τ := τ) fun _ => True
    rw [runBody]
    refine hQ.bind .refl ?_
    intro s
    cases op.apply s.commands with
    | ok commands => exact hQ.bind (fun s => .of_eq rfl rfl) fun _ =>
        runBody_keeps hr (next (.ok ()))
    | error e => exact runBody_keeps hr (next (.error e))

theorem callEntry_keeps (hr : ∀ r, KeepsTrust (request r)) (key : Text)
    (entry : Entry (Slot ω τ)) (args : Object) (target : τ) :
    KeepsTrust (callEntry request key entry args target) := by
  intro s
  have hb := runBody_keeps hr (entry.slot target args)
  by_cases hs : (!s.trusted && !hasFlag entry.flags flagUntrustedSafe) = true
  · simp only [callEntry, Run.bind_apply, Run.get, hs, ↓reduceIte]
    exact .refl s
  · simp only [callEntry, Run.bind_apply, Run.get, hs, Bool.false_eq_true, ↓reduceIte, Run.modify]
    refine TrustKept.trans ?_ (hb _)
    refine ⟨rfl, ?_⟩
    intro ht r h
    rcases List.mem_cons.mp h with rfl | h
    · right
      simpa [Ran.Safe, ht] using hs
    · exact .inl h

theorem callCommand_keeps (hr : ∀ r, KeepsTrust (request r)) (key : Text) (args : Object)
    (target : τ) : KeepsTrust (callCommand request key args target) := by
  have hQ := keepsTrust_compositional (ω := ω) (τ := τ) fun _ => True
  refine hQ.bind .refl ?_
  intro s
  cases s.commands key with
  | none => exact hQ.fail trivial
  | some entry => exact callEntry_keeps hr key entry args target

theorem callCatch_keeps {call : CallCommand (State ω τ) τ}
    (hc : ∀ key args target, KeepsTrust (call key args target)) (key : Text) (args : Object)
    (target : τ) (err : String) : KeepsTrust (callCatch call key args target err) := by
  have hQ := keepsTrust_compositional (ω := ω) (τ := τ) fun _ => True
  apply keepsTrust_handle (hc key args target)
  intro e
  split
  · exact hQ.bind (fun s => .of_eq rfl rfl) fun _ => hQ.pure _
  · exact hQ.bind (fun s => .of_eq rfl rfl) fun _ => hQ.pure _
  · exact hQ.fail trivial

end

/-- Any tree of nested calls keeps the trust flag and runs only what it allows. -/
theorem perform_keeps (depth : ℕ) (r : Request τ) :
    KeepsTrust (perform depth r : CommandRun (State ω τ) Object) := by
  have hQ := keepsTrust_compositional (ω := ω) (τ := τ) fun _ => True
  induction depth generalizing r with
  | zero => exact hQ.fail trivial
  | succ depth ih =>
    have hc := callCommand_keeps ih
    cases r with
    | callCommand key args target => exact hc key args target
    | callCatch key args target err => exact callCatch_keeps hc key args target err
    | callObject command target =>
      exact callObject_holds hQ (fun key args => hc key args target) depth command
    | parseCommand text target =>
      refine hQ.bind (parseCommand_holds (hQ.mono fun _ _ => trivial) ?_ text) fun _ => hQ.pure _
      intro key args
      exact hc key args target

end RpcCommandMap
