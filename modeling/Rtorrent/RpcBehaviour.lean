import Rtorrent.RpcRequests

/-! # Commands that return or throw an error

What the calls of a request come to when every command returns an object or throws an exception
for which the request has an answer. -/
namespace RpcBehaviour

open FallibleRuns RpcTextParser RpcCommandParser RpcCommandMap RpcRequests

variable {ω τ α : Type}

/-- An `rpc_error` or a `local_error`. -/
def Caught : Failure → Prop
  | .error .internalError _ | .outOfFuel => False
  | _ => True

/-- A result, or such an exception, and a state of `P`. -/
def Settles (P : State ω τ → Prop) (x : CommandRun (State ω τ) α) (s : State ω τ) : Prop :=
  Ends (fun _ t => P t) (fun e t => Caught e ∧ P t) x s

/-- The commands that can be called in the states `P` settle. So does the search for their
target. -/
structure Behaves (lib : Library ω τ) (perform : Performer ω τ) (P : State ω τ → Prop) :
    Prop where
  call : ∀ {s : State ω τ} {key : Text} {entry : Entry (Slot ω τ)}, P s →
    s.commands key = some entry → ∀ args target,
      Settles P (callEntry perform key entry args target) s
  target : ∀ {world : ω} {obj : Object} {flags : BitVec 32} {e : Error},
    lib.objectToTarget world obj flags = .error e → Caught (.error e.1 e.2)

variable {P : State ω τ → Prop} {s : State ω τ}

theorem settles_raise {e : Error} (h : P s) (he : Caught (.error e.1 e.2)) :
    Settles P (raise e : CommandRun (State ω τ) α) s := ends_fail ⟨he, h⟩

theorem ends_check {β : Type} {Q : β → State ω τ → Prop} {x : Except Error α}
    {f : α → CommandRun (State ω τ) β} (h : P s)
    (hx : ∀ e, x = .error e → Caught (.error e.1 e.2))
    (hf : ∀ a, x = .ok a → Ends Q (fun e t => Caught e ∧ P t) (f a) s) :
    Ends Q (fun e t => Caught e ∧ P t) (check x >>= f) s := by
  cases x with
  | ok a => exact hf a rfl
  | error e => exact ⟨hx e rfl, h⟩

theorem settles_refuse {type : ℤ} {x : CommandRun (State ω τ) α} (h : Settles P x s) :
    Settles P (refuse type x) s := by
  refine ends_handle h fun e t he => ?_
  split
  · exact settles_raise he.2 trivial
  · exact ends_fail he

inductive Simple : Body ω τ → Prop
  | done {result : Object} : Simple (.done result)
  | throw {kind : ErrorKind} {what : String} : Caught (.error kind what) →
    Simple (.throw kind what)
  | access {f : ω → ω} {next : ω → Body ω τ} : (∀ w, Simple (next w)) → Simple (.access f next)

variable {perform : Performer ω τ} {m : CommandMap (Slot ω τ)}

theorem runBody_simple {body : Body ω τ} (h : Simple body) :
    ∀ {s : State ω τ}, s.commands = m →
      Settles (fun t => t.commands = m) (runBody perform body) s := by
  induction h with
  | done =>
    intro s hs
    rw [runBody]
    exact ends_pure hs
  | throw he =>
    intro s hs
    rw [runBody]
    exact ends_fail ⟨he, hs⟩
  | access _ ih =>
    intro s hs
    rw [runBody]
    exact ends_get (ih s.world (s := { s with world := _ }) hs)

theorem behaves_of_simple {lib : Library ω τ}
    (hm : ∀ key entry, m key = some entry → ∀ target args, Simple (entry.slot target args))
    (ht : ∀ {world obj flags e}, lib.objectToTarget world obj flags = .error e →
      Caught (.error e.1 e.2)) :
    Behaves lib perform fun s => s.commands = m := by
  refine ⟨?_, ht⟩
  intro s key entry hs he args target
  rw [callEntry]
  refine ends_get ?_
  split
  · exact ends_fail ⟨trivial, hs⟩
  · exact runBody_simple (hm key entry (hs ▸ he) target args)
      (s := { s with ran := ⟨key, entry.flags⟩ :: s.ran }) hs

end RpcBehaviour
