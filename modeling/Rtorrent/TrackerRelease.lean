import Rtorrent.RpcTargets

/-! # Release of tracker targets

`object_to_target` allocates a `Tracker` for the call and hands back a deleter. Each front
end has to run it. -/
namespace TrackerRelease

open FallibleRuns RpcTextParser RpcCommandParser RpcCommandMap RpcTargets TransitionSystems
open RpcRequests (Json jsonToItems maxJsonDepth jsonrpcInvalidParamsError
  jsonrpcInvalidRequestError jsonrpcMethodNotFoundError xmlrpcNoSuchMethodError
  xmlrpcTypeError xmlrpcRequestRefusedError)

/-- An exception that is a `torrent::base_error`, or another one. -/
inductive Thrown where
  | base (e : Error)
  | other (what : String)

inductive Event where
  | allocated
  | commandCalled
  | commandEnded
  | released
  | answered
  deriving DecidableEq, Repr

/-- The log is that of one call. -/
structure CallState (ω : Type) where
  world : ω
  log : List Event

abbrev FrontEnd (ω α : Type) := Run Thrown (CallState ω) α

structure Environment (ω φ τ π : Type) where
  downloads : ω → List (Download φ τ π)
  transformFromHex : Text → Option HashString
  commands : ω → Text → Option (BitVec 32)
  callCommand : Text → Object → Target φ τ π → ω → Except Thrown Object × ω
  objectToJson : Object → Except Thrown Json
  objectToLua : Object → Except Thrown Unit

variable {ω φ τ π : Type}

def Environment.target (env : Environment ω φ τ π) (world : ω) (obj : Object) (flags : BitVec 32) :
    Except Error (Target φ τ π) :=
  objectToTarget env.transformFromHex (env.downloads world) obj flags

def Target.allocated : Target φ τ π → List Event
  | .tracker _ => [.allocated]
  | _ => []

/-- What the deleter does. -/
def Target.deleted : Target φ τ π → List Event
  | .tracker _ => [.released]
  | _ => []

def throwBase {α : Type} (kind : ErrorKind) (what : String) : FrontEnd ω α :=
  Run.fail (.base (kind, what))

def record (events : List Event) : FrontEnd ω Unit :=
  Run.modify fun s => { s with log := s.log ++ events }

/-- An `untrusted_error` becomes an `rpc_error` of this type. -/
def refuseUntrusted {α : Type} (type : ℤ) (x : FrontEnd ω α) : FrontEnd ω α :=
  Run.mapError (fun
    | .base (.untrustedError, what) => .base (.rpcError type, what)
    | e => e) x

/-- Values that are read one after another. -/
def readAll : List (Except Thrown Object) → Except Thrown (List Object)
  | [] => .ok []
  | value :: values => do
    let object ← value
    let objects ← readAll values
    .ok (object :: objects)

section

variable (env : Environment ω φ τ π)

def acquireTarget (obj : Object) (flags : BitVec 32) : FrontEnd ω (Target φ τ π) := do
  let s ← Run.get
  match env.target s.world obj flags with
  | .error e => Run.fail (.base e)
  | .ok target =>
    record (Target.allocated target)
    pure target

def callCommand (key : Text) (args : Object) (target : Target φ τ π) : FrontEnd ω Object :=
  fun s =>
    ((env.callCommand key args target s.world).1,
      ⟨(env.callCommand key args target s.world).2, s.log ++ [.commandCalled, .commandEnded]⟩)

/-- A command that is public, as JSON-RPC and XML-RPC require. -/
def publicCommand (world : ω) (method : Text) : Option (BitVec 32) :=
  (env.commands world (cString method)).filter fun flags => hasFlag flags flagPublicRpc

/-- The guard runs the deleter when the function is left. -/
def jsonrpcCallCommand (method : Text) : Json → FrontEnd ω Json
  | .object _ => throwBase (.rpcError jsonrpcInvalidParamsError)
      "invalid parameter: procedure named parameter not supported"
  | .array items => do
    let s ← Run.get
    match publicCommand env s.world method with
    | none =>
      throwBase (.rpcError jsonrpcMethodNotFoundError)
        ("method not found: " ++ String.ofList method)
    | some flags =>
      match jsonToItems (maxJsonDepth - 2) items with
      | .error e => Run.fail (.base e)
      | .ok params =>
        match if params.isEmpty then [.string []] else params with
        | .string text :: params => do
          let target ← acquireTarget env (.string text) flags
          Run.ensure
            (refuseUntrusted jsonrpcMethodNotFoundError do
              let result ← callCommand env (cString method) (.list params) target
              Run.ofExcept (env.objectToJson result))
            fun s => { s with log := s.log ++ Target.deleted target }
        | _ => throwBase .inputError "invalid parameters: target must be a string"
  | _ => throwBase (.rpcError jsonrpcInvalidRequestError)
      "invalid request: params field must be an array"

/-- The deleter is a local variable that is not called. -/
def readTarget (flags : BitVec 32) :
    List (Except Thrown Object) → FrontEnd ω (Target φ τ π × List Object)
  | [] => pure (.empty, [])
  | first :: rest => do
    let obj ← Run.ofExcept first
    let target ← acquireTarget env obj flags
    let params ← Run.ofExcept (readAll rest)
    pure (target, params)

/-- The values are those of the `param` elements, or those of the array in a multicall. -/
def executeCommand (method : Text) (values : List (Except Thrown Object)) :
    FrontEnd ω Object := do
  let s ← Run.get
  match publicCommand env s.world method with
  | none =>
    throwBase (.rpcError xmlrpcNoSuchMethodError)
      ("method '" ++ String.ofList method ++ "' not defined")
  | some flags =>
    let (target, params) ← readTarget env flags values
    if params.isEmpty ∧ hasFlag flags (flagFileTarget ||| flagTrackerTarget) then
      throwBase (.rpcError xmlrpcTypeError) "invalid parameters: too few"
    else
      refuseUntrusted xmlrpcRequestRefusedError
        (callCommand env (cString method) (.list params) target)

/-- What `lua_tostring` and `lua_to_object` make of a value on the stack. -/
structure LuaValue where
  string : Option Text
  object : Except Thrown Object

/-- The arguments behind the target. The stack is read from its top. -/
def luaArguments (rest : List LuaValue) : Except Thrown Object :=
  if rest.isEmpty then .ok .none
  else do
    let params ← readAll (rest.reverse.map LuaValue.object)
    .ok (.list params.reverse)

def luaCallstackToObject (flags : BitVec 32) :
    List LuaValue → FrontEnd ω (Target φ τ π × Object)
  | [] => pure (.empty, .none)
  | first :: rest =>
    match first.string with
    | none => throwBase .inputError "invalid parameters: target must be a string"
    | some text => do
      let target ← acquireTarget env (.string text) flags
      let object ← Run.ofExcept (luaArguments rest)
      pure (target, object)

def luaRtorrentCall (method : Option Text) (args : List LuaValue) : FrontEnd ω Unit :=
  match method with
  | none => Run.fail (.other "basic_string: construction from null is not valid")
  | some method => do
    let s ← Run.get
    match env.commands s.world (cString method) with
    | none => throwBase .inputError ("method not found: " ++ String.ofList method)
    | some flags =>
      let (target, object) ← luaCallstackToObject env flags args
      Run.handle
        (do
          let result ← callCommand env (cString method) object target
          Run.ofExcept (env.objectToLua result)
          record (Target.deleted target))
        fun
          | .base e => do
            record (Target.deleted target)
            Run.fail (.base e)
          | e => Run.fail e

inductive RpcCall where
  | json (method : Text) (params : Json)
  | xml (method : Text) (values : List (Except Thrown Object))
  | lua (method : Option Text) (args : List LuaValue)

def perform (call : RpcCall) (world : ω) : CallState ω :=
  match call with
  | .json method params => (jsonrpcCallCommand env method params ⟨world, []⟩).2
  | .xml method values => (executeCommand env method values ⟨world, []⟩).2
  | .lua method args => (luaRtorrentCall env method args ⟨world, []⟩).2

/-- The answer, or the exception in its place, is complete when the function was left. -/
def callLog (call : RpcCall) (world : ω) : List Event := (perform env call world).log ++ [.answered]

end

/-- The tracker is released once, behind the end of the command and before the answer. -/
def Released (log : List Event) : Prop :=
  .allocated ∈ log → ∃ before after, log = before ++ .released :: after ∧
    .released ∉ before ∧ .released ∉ after ∧ .commandCalled ∉ after ∧ .commandEnded ∉ after ∧
    .answered ∉ before ∧ .answered ∈ after

theorem released_of_unallocated {log : List Event} (h : .allocated ∉ log) : Released log :=
  fun hm => absurd hm h

theorem not_released_of_kept {log : List Event} (h : .allocated ∈ log) (hr : .released ∉ log) :
    ¬ Released log := by
  intro hlog
  obtain ⟨before, after, rfl, -⟩ := hlog h
  exact hr (List.mem_append_right _ List.mem_cons_self)

theorem released_behind_command (target : Target φ τ π) :
    Released (Target.allocated target ++ [.commandCalled, .commandEnded] ++
      Target.deleted target ++ [.answered]) := by
  cases target with
  | tracker t =>
    intro _
    exact ⟨[.allocated, .commandCalled, .commandEnded], [.answered], rfl, by decide⟩
  | _ => exact released_of_unallocated (by simp [Target.allocated, Target.deleted])

section

variable (env : Environment ω φ τ π)

def allocates (world : ω) (obj : Object) (flags : BitVec 32) : Bool :=
  match env.target world obj flags with
  | .ok (.tracker _) => true
  | _ => false

def allocation : Bool → List Event
  | true => [.allocated]
  | false => []

variable {world : ω} {obj : Object} {flags : BitVec 32}

theorem acquireTarget_error {e : Error} (h : env.target world obj flags = .error e)
    (log : List Event) :
    acquireTarget env obj flags ⟨world, log⟩ = (.error (.base e), ⟨world, log⟩) := by
  simp only [acquireTarget, Run.get_bind, h]
  rfl

variable {target : Target φ τ π}

theorem acquireTarget_ok (h : env.target world obj flags = .ok target) (log : List Event) :
    acquireTarget env obj flags ⟨world, log⟩ =
      (.ok target, ⟨world, log ++ Target.allocated target⟩) := by
  simp only [acquireTarget, Run.get_bind, h]
  rfl

theorem ensured_log (key : Text) (args : Object) (target : Target φ τ π) (world : ω)
    (log : List Event) :
    (Run.ensure (refuseUntrusted jsonrpcMethodNotFoundError (do
      let result ← callCommand env key args target
      Run.ofExcept (env.objectToJson result) : FrontEnd ω Json))
      (fun s => { s with log := s.log ++ Target.deleted target }) ⟨world, log⟩).2.log =
      log ++ [.commandCalled, .commandEnded] ++ Target.deleted target := by
  simp only [Run.ensure, refuseUntrusted, Run.mapError, Run.bind_apply, callCommand]
  cases (env.callCommand key args target world).1 with
  | error e => rfl
  | ok result =>
    cases hjson : env.objectToJson result <;>
      simp only [hjson, Run.ofExcept, Run.pure_apply, Run.fail]

variable (rest : List LuaValue) (method : Text) (params : Json)
  (values : List (Except Thrown Object))

theorem json_log (world : ω) :
    (jsonrpcCallCommand env method params ⟨world, []⟩).2.log = [] ∨ ∃ target : Target φ τ π,
      (jsonrpcCallCommand env method params ⟨world, []⟩).2.log =
        Target.allocated target ++ [.commandCalled, .commandEnded] ++ Target.deleted target := by
  cases params with
  | array items =>
    rw [jsonrpcCallCommand, Run.get_bind]
    cases publicCommand env world method with
    | none => exact .inl rfl
    | some flags =>
      dsimp only
      cases jsonToItems (maxJsonDepth - 2) items with
      | error e => exact .inl rfl
      | ok params =>
        dsimp only
        generalize (if params.isEmpty then [Object.string []] else params) = params
        split
        · rename_i text rest
          cases ht : env.target world (.string text) flags with
          | error e =>
            rw [Run.bind_of_error (acquireTarget_error env ht [])]
            exact .inl rfl
          | ok target =>
            rw [Run.bind_of_ok (acquireTarget_ok env ht [])]
            exact .inr ⟨target, ensured_log env _ _ target world _⟩
        · exact .inl rfl
  | _ => exact .inl rfl

theorem json_released (world : ω) : Released (callLog env (.json method params) world) := by
  rw [callLog, perform]
  rcases json_log env method params world with h | ⟨target, h⟩
  · rw [h]
    exact released_of_unallocated (by decide)
  · rw [h]
    exact released_behind_command target

def xmlAllocates (world : ω) (method : Text) (values : List (Except Thrown Object)) : Bool :=
  match publicCommand env world method, values with
  | some flags, .ok obj :: _ => allocates env world obj flags
  | _, _ => false

/-- The part of a log behind the allocation, in which nothing is released. -/
structure Unreleased (tail : List Event) : Prop where
  allocated : .allocated ∉ tail
  released : .released ∉ tail

theorem unreleased_nil : Unreleased [] := ⟨by decide, by decide⟩

theorem unreleased_command : Unreleased [.commandCalled, .commandEnded] := ⟨by decide, by decide⟩

theorem callCommand_log (type : ℤ) (key : Text) (args : Object) (target : Target φ τ π)
    (s : CallState ω) :
    (refuseUntrusted type (callCommand env key args target) s).2.log =
      s.log ++ [.commandCalled, .commandEnded] := by
  simp only [refuseUntrusted, Run.mapError, callCommand]
  cases (env.callCommand key args target s.world).1 <;> rfl

theorem execute_rest_log (flags : BitVec 32) (target : Target φ τ π)
    (params : List Object) (s : CallState ω) :
    ∃ tail, Unreleased tail ∧
      ((if params.isEmpty ∧ hasFlag flags (flagFileTarget ||| flagTrackerTarget) then
          throwBase (.rpcError xmlrpcTypeError) "invalid parameters: too few"
        else
          refuseUntrusted xmlrpcRequestRefusedError
            (callCommand env (cString method) (.list params) target)) s).2.log = s.log ++ tail := by
  split
  · exact ⟨[], unreleased_nil, (List.append_nil _).symm⟩
  · exact ⟨_, unreleased_command, callCommand_log env _ _ _ _ s⟩

theorem allocated_eq (h : env.target world obj flags = .ok target) :
    Target.allocated target = allocation (allocates env world obj flags) := by
  rw [allocates, h]
  cases target <;> rfl

theorem allocates_of_error {e : Error} (h : env.target world obj flags = .error e) :
    allocates env world obj flags = false := by
  rw [allocates, h]

theorem readTarget_of_target (ht : env.target world obj flags = .ok target)
    (values : List (Except Thrown Object)) :
    readTarget env flags (.ok obj :: values) ⟨world, []⟩ =
      ((readAll values).map fun params => (target, params), ⟨world, Target.allocated target⟩) := by
  rw [readTarget]
  refine (Run.bind_of_ok (acquireTarget_ok env ht []) _).trans ?_
  cases readAll values <;> rfl

theorem xml_log (world : ω) :
    ∃ tail, Unreleased tail ∧ (executeCommand env method values ⟨world, []⟩).2.log =
      allocation (xmlAllocates env world method values) ++ tail := by
  rw [executeCommand, Run.get_bind]
  unfold xmlAllocates
  cases publicCommand env world method with
  | none => exact ⟨[], unreleased_nil, rfl⟩
  | some flags =>
    cases values with
    | nil => exact execute_rest_log env method flags .empty [] ⟨world, []⟩
    | cons first rest =>
      cases first with
      | error e => exact ⟨[], unreleased_nil, rfl⟩
      | ok obj =>
        dsimp only
        cases ht : env.target world obj flags with
        | error e =>
          have hread : readTarget env flags (.ok obj :: rest) ⟨world, []⟩ =
              (.error (.base e), ⟨world, []⟩) := by
            rw [readTarget]
            exact Run.bind_of_error (acquireTarget_error env ht []) _
          rw [Run.bind_of_error hread, allocates_of_error env ht]
          exact ⟨[], unreleased_nil, rfl⟩
        | ok target =>
          have hread := readTarget_of_target env ht rest
          rw [← allocated_eq env ht]
          cases hrest : readAll rest with
          | error e =>
            rw [hrest] at hread
            rw [Run.bind_of_error hread]
            exact ⟨[], unreleased_nil, by simp⟩
          | ok params =>
            rw [hrest] at hread
            rw [Run.bind_of_ok hread]
            exact execute_rest_log env method flags target params _

theorem released_unreleased_iff {b : Bool} {tail : List Event} (h : Unreleased tail) :
    Released (allocation b ++ tail ++ [.answered]) ↔ b = false := by
  cases b with
  | false =>
    refine iff_of_true (released_of_unallocated ?_) rfl
    simp [allocation, h.allocated]
  | true =>
    refine iff_of_false (not_released_of_kept ?_ ?_) (by decide)
    · simp [allocation]
    · simp [allocation, h.released]

theorem xml_released_iff (world : ω) :
    Released (callLog env (.xml method values) world) ↔
      xmlAllocates env world method values = false := by
  obtain ⟨tail, htail, hlog⟩ := xml_log env method values world
  rw [callLog, perform, hlog]
  exact released_unreleased_iff htail

def luaResult (key : Text) (object : Object) (target : Target φ τ π) (world : ω) :
    Except Thrown Unit := do
  let result ← (env.callCommand key object target world).1
  env.objectToLua result

def isOther : Except Thrown Unit → Bool
  | .error (.other _) => true
  | _ => false

/-- For a tracker the other arguments can be read, and the command and the conversion of its
result throw only a `base_error`. -/
def LuaCompletes (world : ω) (method : Option Text) (args : List LuaValue) : Prop :=
  ∀ key flags first rest text t, method = some key → env.commands world (cString key) = some flags →
    args = first :: rest → first.string = some text →
    env.target world (.string text) flags = .ok (.tracker t) →
    ∃ object, luaArguments rest = .ok object ∧
      isOther (luaResult env (cString key) object (.tracker t) world) = false

/-- What the deleter leaves in the log, if it is run. -/
def caughtDeletion (target : Target φ τ π) : Except Thrown Unit → List Event
  | .error (.other _) => []
  | _ => Target.deleted target

theorem lua_try_log (key : Text) (object : Object) (target : Target φ τ π) (s : CallState ω) :
    ((Run.handle
      (do
        let result ← callCommand env key object target
        Run.ofExcept (env.objectToLua result)
        record (Target.deleted target))
      fun
        | .base e => do
          record (Target.deleted target)
          Run.fail (.base e)
        | e => Run.fail e : FrontEnd ω Unit) s).2.log =
      s.log ++ [.commandCalled, .commandEnded] ++
        caughtDeletion target (luaResult env key object target s.world) := by
  simp only [Run.handle, Run.bind_apply, callCommand, luaResult]
  cases (env.callCommand key object target s.world).1 with
  | error e =>
    cases e with
    | base e => rfl
    | other what => exact (List.append_nil _).symm
  | ok result =>
    dsimp only [Bind.bind, Except.bind]
    cases env.objectToLua result with
    | error e =>
      cases e with
      | base e => rfl
      | other what => exact (List.append_nil _).symm
    | ok u => rfl

variable {first : LuaValue} {text : Text}

theorem lua_read (hfirst : first.string = some text)
    (ht : env.target world (.string text) flags = .ok target) :
    luaCallstackToObject env flags (first :: rest) ⟨world, []⟩ =
      ((luaArguments rest).map fun object => (target, object),
        ⟨world, Target.allocated target⟩) := by
  simp only [luaCallstackToObject, hfirst]
  rw [Run.bind_of_ok (acquireTarget_ok env ht [])]
  cases luaArguments rest <;> rfl

variable {key : Text} {args : List LuaValue}

theorem lua_unread {e : Thrown}
    {s : CallState ω} (hcommand : env.commands world (cString key) = some flags)
    (hread : luaCallstackToObject env flags args ⟨world, []⟩ = (.error e, s)) :
    (luaRtorrentCall env (some key) args ⟨world, []⟩).2 = s := by
  simp only [luaRtorrentCall]
  rw [Run.get_bind]
  simp only [hcommand]
  rw [Run.bind_of_error hread]

theorem lua_called {object : Object} {log : List Event}
    (hcommand : env.commands world (cString key) = some flags)
    (hread : luaCallstackToObject env flags args ⟨world, []⟩ =
      (.ok (target, object), ⟨world, log⟩)) :
    (luaRtorrentCall env (some key) args ⟨world, []⟩).2.log =
      log ++ [.commandCalled, .commandEnded] ++
        caughtDeletion target (luaResult env (cString key) object target world) := by
  simp only [luaRtorrentCall]
  rw [Run.get_bind]
  simp only [hcommand]
  rw [Run.bind_of_ok hread]
  exact lua_try_log env _ _ _ _

theorem lua_log (hcommand : env.commands world (cString key) = some flags)
    (hfirst : first.string = some text)
    (ht : env.target world (.string text) flags = .ok target) :
    (luaRtorrentCall env (some key) (first :: rest) ⟨world, []⟩).2.log =
      match luaArguments rest with
      | .error _ => Target.allocated target
      | .ok object => Target.allocated target ++ [.commandCalled, .commandEnded] ++
          caughtDeletion target (luaResult env (cString key) object target world) := by
  have hread := lua_read env rest hfirst ht
  cases hargs : luaArguments rest with
  | error e =>
    rw [hargs] at hread
    rw [lua_unread env hcommand hread]
  | ok object =>
    rw [hargs] at hread
    exact lua_called env hcommand hread

theorem allocated_not_mem_caughtDeletion (target : Target φ τ π) (result : Except Thrown Unit) :
    .allocated ∉ caughtDeletion target result := by
  unfold caughtDeletion
  split
  · simp
  · cases target <;> simp [Target.deleted]

theorem lua_unallocated {method : Option Text}
    (h : ∀ key flags first rest text t, method = some key →
      env.commands world (cString key) = some flags → args = first :: rest →
      first.string = some text →
      env.target world (.string text) flags ≠ .ok (.tracker t)) :
    .allocated ∉ (luaRtorrentCall env method args ⟨world, []⟩).2.log := by
  cases method with
  | none => exact List.not_mem_nil
  | some key =>
    cases hcommand : env.commands world (cString key) with
    | none =>
      simp only [luaRtorrentCall]
      rw [Run.get_bind]
      simp only [hcommand]
      exact List.not_mem_nil
    | some flags =>
      cases args with
      | nil =>
        rw [lua_called env hcommand (Run.pure_apply _ _)]
        simp [allocated_not_mem_caughtDeletion]
      | cons first rest =>
        cases hfirst : first.string with
        | none =>
          obtain ⟨e, hread⟩ : ∃ e, luaCallstackToObject env flags (first :: rest) ⟨world, []⟩ =
              (.error e, ⟨world, []⟩) := by
            simp only [luaCallstackToObject, hfirst]
            exact ⟨_, rfl⟩
          rw [lua_unread env hcommand hread]
          exact List.not_mem_nil
        | some text =>
          cases ht : env.target world (.string text) flags with
          | error e =>
            have hread : luaCallstackToObject env flags (first :: rest) ⟨world, []⟩ =
                (.error (.base e), ⟨world, []⟩) := by
              simp only [luaCallstackToObject, hfirst]
              exact Run.bind_of_error (acquireTarget_error env ht []) _
            rw [lua_unread env hcommand hread]
            exact List.not_mem_nil
          | ok target =>
            have hnone : .allocated ∉ Target.allocated target := by
              cases target with
              | tracker t => exact absurd ht (h key flags first rest text t rfl hcommand rfl hfirst)
              | _ => simp [Target.allocated]
            rw [lua_log env rest hcommand hfirst ht]
            split
            · exact hnone
            · simp [hnone, allocated_not_mem_caughtDeletion]

theorem lua_tracker_released_iff {t : τ} (hcommand : env.commands world (cString key) = some flags)
    (hfirst : first.string = some text)
    (ht : env.target world (.string text) flags = .ok (.tracker t)) :
    Released (callLog env (.lua (some key) (first :: rest)) world) ↔
      ∃ object, luaArguments rest = .ok object ∧
        isOther (luaResult env (cString key) object (.tracker t) world) = false := by
  rw [callLog, perform, lua_log env rest hcommand hfirst ht]
  cases luaArguments rest with
  | error e =>
    refine iff_of_false (not_released_of_kept (by simp [Target.allocated])
      (by simp [Target.allocated])) ?_
    rintro ⟨object, h, -⟩
    cases h
  | ok object =>
    simp only [Except.ok.injEq, exists_eq_left']
    generalize luaResult env (cString key) object (.tracker t) world = result
    cases result with
    | ok u => exact iff_of_true (released_behind_command _) rfl
    | error e =>
      cases e with
      | base e => exact iff_of_true (released_behind_command _) rfl
      | other what =>
        refine iff_of_false (not_released_of_kept ?_ ?_) Bool.true_eq_false.mp
        · simp [Target.allocated]
        · simp [Target.allocated, caughtDeletion]

theorem lua_released_iff (method : Option Text) (args : List LuaValue) (world : ω) :
    Released (callLog env (.lua method args) world) ↔ LuaCompletes env world method args := by
  by_cases h : ∃ key flags first rest text t, method = some key ∧
      env.commands world (cString key) = some flags ∧ args = first :: rest ∧
      first.string = some text ∧
      env.target world (.string text) flags = .ok (.tracker t)
  · obtain ⟨key, flags, first, rest, text, t, rfl, hcommand, rfl, hfirst, ht⟩ := h
    rw [lua_tracker_released_iff env rest hcommand hfirst ht]
    constructor
    · rintro hobject _ flags' _ _ text' t' ⟨⟩ hcommand' ⟨⟩ hfirst' ht'
      cases hcommand.symm.trans hcommand'
      cases hfirst.symm.trans hfirst'
      cases ht.symm.trans ht'
      exact hobject
    · exact fun hall => hall key flags first rest text t rfl hcommand rfl hfirst ht
  · simp only [not_exists, not_and] at h
    refine iff_of_true ?_ ?_
    · have hlog := lua_unallocated env h
      exact released_of_unallocated (by simpa [callLog, perform] using hlog)
    · intro key flags first rest text t hkey hcommand hargs hfirst ht
      exact absurd ht (h key flags first rest text t hkey hcommand hargs hfirst)

def Covered (world : ω) : RpcCall → Prop
  | .json _ _ => True
  | .xml method values => xmlAllocates env world method values = false
  | .lua method args => LuaCompletes env world method args

theorem call_released_iff (call : RpcCall) (world : ω) :
    Released (callLog env call world) ↔ Covered env world call := by
  cases call with
  | json method params => exact iff_of_true (json_released env method params world) trivial
  | xml method values => exact xml_released_iff env method values world
  | lua method args => exact lua_released_iff env method args world

def callMachine : Machine ω RpcCall :=
  ⟨fun _ _ => True, fun world call => (perform env call world).world⟩

/-- Every call of a batch, a multicall, a script or several requests releases its tracker. -/
def AllReleased : List RpcCall → ω → Prop
  | [], _ => True
  | call :: calls, world =>
    Released (callLog env call world) ∧ AllReleased calls ((callMachine env).next world call)

theorem calls_released_iff (calls : List RpcCall) (world : ω) :
    AllReleased env calls world ↔
      ((callMachine env).guarded (Covered env)).Accepts world calls := by
  induction calls generalizing world with
  | nil => exact Iff.rfl
  | cons call calls ih =>
    rw [AllReleased, call_released_iff, ih]
    exact and_congr_left' (and_iff_left trivial).symm

end

def trackerEnvironment : Environment Unit ℕ ℕ ℕ where
  downloads _ := [zeroDownload]
  transformFromHex := hexBytes
  commands _ _ := some (flagPublicRpc ||| flagTrackerTarget)
  callCommand _ _ _ _ := (.ok .none, ())
  objectToJson _ := .ok .null
  objectToLua _ := .ok ()

/-- The tracker of an XML-RPC call is kept, and that of a Lua call with an argument without text.
-/
theorem trackers_kept :
    callLog trackerEnvironment
        (.xml "t.url".toList [.ok (.string (zeroTarget ":t0")), .ok (.string [])]) () =
        [.allocated, .commandCalled, .commandEnded, .answered] ∧
      callLog trackerEnvironment
        (.lua (some "t.url".toList) [⟨some (zeroTarget ":t0"), .ok .none⟩,
          ⟨none, .error (.other "basic_string: construction from null is not valid")⟩]) () =
        [.allocated, .answered] :=
  ⟨rfl, rfl⟩

end TrackerRelease
