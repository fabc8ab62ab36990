import Rtorrent.RpcRequests

/-! # Untrusted connections

Whatever a request does, the only slots that run for an untrusted connection are those of entries
marked as safe. -/
namespace RpcTrust

open FallibleRuns RpcTextParser RpcCommandParser RpcCommandMap RpcRequests

variable {ω τ : Type}

theorem trustComp : Compositional (fun _ => True) (@Keeps Failure (State ω τ) TrustKept) :=
  keepsTrust_compositional _

theorem raise_keeps {α : Type} (e : Error) : KeepsTrust (raise e : CommandRun (State ω τ) α) :=
  trustComp.fail trivial

theorem check_keeps {α : Type} (x : Except Error α) :
    KeepsTrust (check x : CommandRun (State ω τ) α) := by
  cases x with
  | ok a => exact trustComp.pure a
  | error e => exact raise_keeps e

theorem get_keeps : KeepsTrust (Run.get : CommandRun (State ω τ) (State ω τ)) := .refl

theorem respond_keeps (callback : Callback ω) (text : Text) :
    KeepsTrust (respond callback text : CommandRun (State ω τ) Bool) :=
  trustComp.bind get_keeps fun _ =>
    trustComp.bind (fun _ => .of_eq rfl rfl) fun _ => check_keeps _

theorem refuse_keeps {α : Type} (type : ℤ) {x : CommandRun (State ω τ) α} (hx : KeepsTrust x) :
    KeepsTrust (refuse type x) := by
  apply keepsTrust_handle hx
  intro e
  split
  · exact raise_keeps _
  · exact trustComp.fail trivial

theorem onFault_keeps {α : Type} {answer : ℤ → String → CommandRun (State ω τ) α}
    {x : CommandRun (State ω τ) α} (ha : ∀ type what, KeepsTrust (answer type what))
    (hx : KeepsTrust x) : KeepsTrust (onFault answer x) := by
  apply keepsTrust_handle hx
  intro e
  split
  · exact ha _ _
  · exact ha _ _
  · exact ha _ _
  · exact ha _ _
  · exact trustComp.fail trivial

section

variable {lib : Library ω τ}

theorem respondJson_keeps (callback : Callback ω) (response : Json) :
    KeepsTrust (respondJson lib callback response : CommandRun (State ω τ) Bool) := by
  rw [respondJson]
  split
  · exact respond_keeps _ _
  · exact respond_keeps _ _

theorem checkAll_keeps (items : List (Except Error Object)) :
    KeepsTrust (checkAll items : CommandRun (State ω τ) (List Object)) := by
  induction items with
  | nil => exact trustComp.pure _
  | cons item items ih =>
    exact trustComp.bind (check_keeps item) fun _ => trustComp.bind ih fun _ => trustComp.pure _

theorem readParams_keeps (flags : BitVec 32) (params : List (Except Error Object)) :
    KeepsTrust (readParams lib flags params) := by
  cases params with
  | nil => exact trustComp.pure _
  | cons first params =>
    refine trustComp.bind (check_keeps first) fun _ => trustComp.bind get_keeps ?_
    intro s
    exact trustComp.bind (check_keeps _) fun _ =>
      trustComp.bind (checkAll_keeps params) fun _ => trustComp.pure _

variable {request : Performer ω τ} (hr : ∀ r, KeepsTrust (request r))
include hr

theorem jsonrpcCallCommand_keeps (method : Text) (params : Json) :
    KeepsTrust (jsonrpcCallCommand lib request method params) := by
  simp only [jsonrpcCallCommand]
  split
  · exact raise_keeps _
  · apply trustComp.bind get_keeps
    intro s
    split
    · exact raise_keeps _
    · apply trustComp.bind (check_keeps _)
      intro params
      split
      · refine trustComp.bind (check_keeps _) fun target => refuse_keeps _ ?_
        exact trustComp.bind (callEntry_keeps hr _ _ _ _) fun _ => check_keeps _
      · exact raise_keeps _
  · exact raise_keeps _

theorem handleRequest_keeps (json : Json) : KeepsTrust (handleRequest lib request json) := by
  rw [handleRequest]
  split
  · exact trustComp.pure _
  · exact trustComp.pure _
  · exact trustComp.pure _
  · split
    · refine keepsTrust_handle (trustComp.bind (jsonrpcCallCommand_keeps hr _ _)
        fun _ => trustComp.pure _) fun e => ?_
      split
      · exact trustComp.pure _
      · exact trustComp.pure _
      · exact trustComp.pure _
      · exact trustComp.pure _
      · exact trustComp.fail trivial
    · exact trustComp.pure _

theorem handleNotification_keeps (json : Json) :
    KeepsTrust (handleNotification lib request json) := by
  rw [handleNotification]
  split
  · exact trustComp.bind (attempt_keeps (jsonrpcCallCommand_keeps hr _ _)) fun _ =>
      trustComp.pure _
  · exact trustComp.pure _

theorem handleBatch_keeps (items : List Json) : KeepsTrust (handleBatch lib request items) := by
  induction items with
  | nil => exact trustComp.pure _
  | cons item items ih =>
    rw [handleBatch]
    split
    · exact trustComp.bind (handleNotification_keeps hr item) fun _ => ih
    · exact trustComp.bind (handleRequest_keeps hr item) fun _ =>
        trustComp.bind ih fun _ => trustComp.pure _

theorem jsonProcess_keeps (text : Text) (callback : Callback ω) :
    KeepsTrust (jsonProcess lib request text callback) := by
  rw [jsonProcess]
  split
  · exact respond_keeps _ _
  · split
    · exact trustComp.bind (handleNotification_keeps hr _) fun _ => respond_keeps _ _
    · exact trustComp.bind (handleRequest_keeps hr _) fun _ => respondJson_keeps _ _
  · exact respondJson_keeps _ _
  · apply trustComp.bind (handleBatch_keeps hr _)
    intro responses
    split
    · exact respond_keeps _ _
    · exact respondJson_keeps _ _
  · exact respondJson_keeps _ _

theorem executeCommand_keeps (call : XmlCall) : KeepsTrust (executeCommand lib request call) := by
  apply trustComp.bind get_keeps
  intro s
  split
  · exact raise_keeps _
  · apply trustComp.bind (readParams_keeps _ _)
    intro r
    dsimp only
    split
    · exact raise_keeps _
    · exact refuse_keeps _ (callEntry_keeps hr _ _ _ _)

theorem executeMulticall_keeps (calls : List (Except Error XmlCall)) :
    KeepsTrust (executeMulticall lib request calls) := by
  induction calls with
  | nil => exact trustComp.pure _
  | cons call calls ih =>
    apply trustComp.bind (check_keeps call)
    intro call
    refine trustComp.bind (onFault_keeps (fun _ _ => trustComp.pure _) ?_) fun _ => ?_
    · exact trustComp.bind (executeCommand_keeps hr call) fun _ => trustComp.pure _
    · exact trustComp.bind ih fun _ => trustComp.pure _

theorem xmlProcess_keeps (sizeLimit : ℕ) (text : Text) (callback : Callback ω) :
    KeepsTrust (xmlProcess lib request sizeLimit text callback) := by
  rw [xmlProcess]
  split
  · exact respond_keeps _ _
  · apply onFault_keeps (fun _ _ => respond_keeps _ _)
    refine trustComp.bind ?_ fun _ => respond_keeps _ _
    cases lib.parseXml text with
    | invalid e => exact raise_keeps e
    | methodCall call => exact executeCommand_keeps hr call
    | multicall calls =>
      exact trustComp.bind (executeMulticall_keeps hr calls) fun _ => trustComp.pure _

theorem process_keeps (settings : Settings) (type : RPCType) (text : Text)
    (callback : Callback ω) :
    KeepsTrust (process lib request settings type text callback) := by
  simp only [process]
  split
  · split
    · exact respond_keeps _ _
    · exact xmlProcess_keeps hr _ _ _
  · split
    · exact respond_keeps _ _
    · exact jsonProcess_keeps hr _ _

end

theorem attempt_error {σ α : Type} {x : CommandRun σ α} {s t : σ} {e : Failure}
    (h : attempt x s = (.error e, t)) : e = .outOfFuel := by
  unfold attempt Run.handle at h
  split at h
  · cases h
  · rename_i e' u _
    cases e' with
    | error kind what => cases h
    | outOfFuel =>
      cases h
      rfl

/-- For every command map, every request on an untrusted connection and every tree of calls, only
slots of safe entries are run, and the trust flag is what it was afterwards. -/
theorem processUntrusted_safe (ops : List (MapOperation (Slot ω τ))) (lib : Library ω τ)
    (depth : ℕ) (settings : Settings) (type : RPCType) (text : Text) (callback : Callback ω)
    (trusted : Bool) (world : ω) (log : List String) :
    let r := processUntrusted lib (perform depth) settings type text callback
      ⟨buildMap ops, trusted, world, log, []⟩
    (∀ ran ∈ r.2.ran, hasFlag ran.flags flagUntrustedSafe = true) ∧
      (r.1 ≠ .error .outOfFuel → r.2.trusted = trusted) := by
  have hp : KeepsTrust (process lib (perform depth) settings type text callback) :=
    process_keeps (perform_keeps depth) settings type text callback
  have hk := attempt_keeps hp ⟨buildMap ops, false, world, log, []⟩
  simp only [processUntrusted, Run.bind_apply, Run.get, Run.pure_apply, setTrusted, Run.modify]
  cases hx : attempt (process lib (perform depth) settings type text callback)
      (⟨buildMap ops, false, world, log, []⟩ : State ω τ) with
  | mk r t =>
    rw [hx] at hk
    have hsafe : ∀ ran ∈ t.ran, hasFlag ran.flags flagUntrustedSafe = true := fun ran hr =>
      (hk.ran rfl ran hr).resolve_left List.not_mem_nil
    cases r with
    | error e =>
      rw [attempt_error hx]
      exact ⟨hsafe, fun h => absurd rfl h⟩
    | ok r =>
      cases r with
      | ok result => exact ⟨hsafe, fun _ => rfl⟩
      | error e => exact ⟨hsafe, fun _ => rfl⟩

end RpcTrust
