import Rtorrent.RpcBehaviour
import Rtorrent.XmlRpcDocument

/-! # The answers to `system.multicall`

Every sub-call is due an entry in the list of results. Its method is the member called
`methodName` and its parameters are the member called `params`. -/
namespace XmlRpcMulticall

open FallibleRuns RpcTextParser RpcCommandParser RpcCommandMap RpcBehaviour XmlRpcDocument
open RpcRequests hiding executeCommand processDocument
open XmlNode (isNamed isElement firstChildElement childElements getText)

def namedMember (name : String) (child : XmlNode) : Option XmlNode :=
  (firstChildElement "struct" child).bind fun s => (childElements "member" s).find? fun m =>
    (firstChildElement "name" m).bind getText == some name.toList

/-- The call that the members stand for by their names, if the method and the parameters can be
read. -/
def namedCall (child : XmlNode) : Option (Text × List Object) := do
  let member ← namedMember "methodName" child
  let value ← firstChildElement "value" member
  let element ← firstChildElement "string" value
  let method ← getText element
  let params := ((namedMember "params" child).bind (firstChildElement "value")).bind
    (firstChildElement "array")
  match readAll (paramValues params) with
  | .ok params => some (method, params)
  | .error _ => none

inductive Due where
  | own (answer : Object)
  | someFault

def Due.Met : Due → Object → Prop
  | .own answer, r => r = answer
  | .someFault, r => ∃ type what, r = faultObject type what

section

variable {ω τ : Type} (lib : Library ω τ) (perform : Performer ω τ)

def answerTo (method : Text) (params : List Object) : CommandRun (State ω τ) Object :=
  onFault (fun type what => pure (faultObject type what)) do
    let result ← RpcRequests.executeCommand lib perform ⟨method, params.map .ok⟩
    pure (.list [result])

def multicallDue : List XmlNode → CommandRun (State ω τ) (List Due)
  | [] => pure []
  | child :: calls =>
    match namedCall child with
    | none => do
      let due ← multicallDue calls
      pure (.someFault :: due)
    | some (method, params) => do
      let answer ← answerTo lib perform method params
      let due ← multicallDue calls
      pure (.own answer :: due)

def Answered (doc : Document) (calls : List XmlNode) (s : State ω τ) : Prop :=
  ∃ results t due u, processDocument lib perform doc s = (.ok (.list results), t) ∧
    multicallDue lib perform calls s = (.ok due, u) ∧ List.Forall₂ Due.Met due results

end

def multicallOf (doc : Document) : Option (List XmlNode) :=
  match methodCall doc with
  | .error _ => none
  | .ok (nodes, _, methodName) =>
    if methodName = "system.multicall".toList then
      match multicallData nodes with
      | .error _ => none
      | .ok data => some (childElements "value" data)
    else none

/-- What is read from the first two members is the call that their names stand for, and neither
ends the request. -/
def ReadsByName (child : XmlNode) : Prop :=
  match subcall child with
  | .error _ => False
  | .ok (method, params) =>
    match readAll (paramValues params) with
    | .ok params => namedCall child = some (method, params)
    | .error .nullPointer => False
    | .error _ => namedCall child = none

section

variable {ω τ : Type} {lib : Library ω τ} {perform : Performer ω τ}
  {P : State ω τ → Prop} {s : State ω τ}

theorem checkAll_ok (params : List Object) :
    (checkAll (params.map .ok) : CommandRun (State ω τ) (List Object)) = pure params := by
  induction params with
  | nil => rfl
  | cons param params ih =>
    rw [List.map_cons, checkAll, ih]
    rfl

theorem readAll_cons {value : Option XmlNode} {values : List (Option XmlNode)}
    {params : List Object} (h : readAll (value :: values) = .ok params) :
    ∃ first rest, xmlValueToObject value = .ok first ∧ readAll values = .ok rest ∧
      params = first :: rest := by
  rw [readAll] at h
  cases hv : xmlValueToObject value with
  | error e => rw [hv] at h; cases h
  | ok first =>
    cases hr : readAll values with
    | error e => rw [hv, hr] at h; cases h
    | ok rest =>
      rw [hv, hr] at h
      cases h
      exact ⟨first, rest, rfl, rfl, rfl⟩

theorem map_readParam : ∀ {values : List (Option XmlNode)} {params : List Object},
    readAll values = .ok params → values.map readParam = params.map .ok
  | [], _, h => by
    cases h
    rfl
  | value :: values, _, h => by
    obtain ⟨first, rest, hv, hr, rfl⟩ := readAll_cons h
    rw [List.map_cons, List.map_cons, map_readParam hr, readParam, hv]
    rfl

theorem fault_of_caught {e : Failure} (he : Caught e) (t : State ω τ) :
    ∃ type what, onFault (fun type what => pure (faultObject type what)) (Run.fail e) t =
      (.ok (faultObject type what), t) := by
  cases e with
  | outOfFuel => exact he.elim
  | error kind what =>
    cases kind with
    | internalError => exact he.elim
    | rpcError type => exact ⟨type, what, rfl⟩
    | _ => exact ⟨xmlrpcInternalError, what, rfl⟩

theorem executeCommand_settles (hb : Behaves lib perform P) (hs : P s) (method : Text)
    (params : List Object) :
    Settles P (RpcRequests.executeCommand lib perform ⟨method, params.map .ok⟩) s := by
  rw [RpcRequests.executeCommand]
  refine ends_get ?_
  split
  · exact settles_raise hs trivial
  · next entry hf =>
    have he : s.commands (cString method) = some entry := (Option.filter_eq_some_iff.mp hf).1
    refine ends_bind (R := fun _ t => t = s) ?_ ?_
    · cases params with
      | nil => exact ends_pure rfl
      | cons first rest =>
        rw [List.map_cons, readParams, checkAll_ok]
        exact ends_check hs (by rintro _ ⟨⟩) fun _ _ =>
          ends_get (ends_check hs (fun _ h => hb.target h) fun _ _ => ends_pure rfl)
    · rintro ⟨target, args⟩ t rfl
      dsimp only
      split
      · exact settles_raise hs trivial
      · exact settles_refuse (hb.call hs he _ _)

theorem answerTo_ok (hb : Behaves lib perform P) (hs : P s) (method : Text)
    (params : List Object) :
    ∃ answer t, answerTo lib perform method params s = (.ok answer, t) ∧ P t := by
  refine Ends.ok (ends_handle (ends_bind (executeCommand_settles hb hs method params)
    fun result t ht => ends_pure ht) fun e t he => ?_)
  cases e with
  | outOfFuel => exact he.1.elim
  | error kind what =>
    cases kind with
    | internalError => exact he.1.elim
    | _ => exact ends_pure he.2

variable {e : ReadFailure}

theorem toFailure_caught (he : e ≠ .nullPointer) : ∃ g, e.toFailure = .thrown g ∧ Caught g := by
  cases e with
  | nullPointer => exact (he rfl).elim
  | _ => exact ⟨_, rfl, trivial⟩

variable {element : Option XmlNode}

theorem executeCommand_unreadable (hb : Behaves lib perform P) (s : State ω τ) (method : Text)
    (h : readAll (paramValues element) = .error e) (he : e ≠ .nullPointer) :
    Ends (fun _ _ => False) (fun f t => (∃ g, f = .thrown g ∧ Caught g) ∧ t = s)
      (executeCommand lib perform method element) s := by
  rw [executeCommand]
  refine ends_get ?_
  split
  · exact ends_fail ⟨⟨_, rfl, trivial⟩, rfl⟩
  · next entry _ =>
    refine ends_bind (R := fun _ _ => False) ?_ fun _ _ h => h.elim
    cases hp : paramValues element with
    | nil => rw [hp] at h; cases h
    | cons value values =>
      rw [hp, readAll] at h
      rw [readTarget]
      cases hv : xmlValueToObject value with
      | error f =>
        rw [hv] at h
        cases h
        exact ends_fail ⟨toFailure_caught he, rfl⟩
      | ok first =>
        cases hr : readAll values with
        | ok rest =>
          rw [hv, hr] at h
          cases h
        | error f =>
          rw [hv, hr] at h
          cases h
          rw [ofRead_ok_bind]
          refine ends_get ?_
          cases ht : lib.objectToTarget s.world first entry.flags with
          | ok target => exact ends_fail ⟨toFailure_caught he, rfl⟩
          | error g => exact ends_fail ⟨⟨_, rfl, hb.target ht⟩, rfl⟩

theorem catchFault_of_read (lib : Library ω τ) (perform : Performer ω τ) (method : Text)
    {params : List Object}
    (h : readAll (paramValues element) = .ok params) :
    (catchFault do
      let result ← executeCommand lib perform method element
      pure (.list [result])) = lift (answerTo lib perform method params) := by
  have hp : ReadsParams element := by
    rw [ReadsParams, h]
    exact fun h => nomatch h
  rw [catchFault_eq lib perform method hp, readCall, map_readParam h]
  rfl

theorem catchFault_unreadable (hb : Behaves lib perform P) (s : State ω τ) (method : Text)
    (h : readAll (paramValues element) = .error e) (he : e ≠ .nullPointer) :
    ∃ type what, (catchFault do
      let result ← executeCommand lib perform method element
      pure (.list [result])) s = (.ok (faultObject type what), s) := by
  have hx : Ends (fun r t => (∃ type what, r = faultObject type what) ∧ t = s) (fun _ _ => False)
      (catchFault do
        let result ← executeCommand lib perform method element
        pure (.list [result])) s := by
    refine ends_handle (ends_bind (executeCommand_unreadable hb s method h he)
      fun _ _ h => h.elim) ?_
    rintro f t ⟨⟨g, rfl, hg⟩, rfl⟩
    obtain ⟨type, what, hf⟩ := fault_of_caught hg t
    have hl : lift (onFault (fun type what => pure (faultObject type what)) (Run.fail g)) t =
        (.ok (faultObject type what), t) := by rw [lift, Run.mapError, hf]
    exact ends_of_ok hl ⟨⟨type, what, rfl⟩, rfl⟩
  obtain ⟨r, t, hr, ⟨type, what, rfl⟩, rfl⟩ := hx.ok
  exact ⟨type, what, hr⟩

theorem executeCalls_due (hb : Behaves lib perform P) :
    ∀ {calls : List XmlNode} {s : State ω τ}, (∀ child ∈ calls, ReadsByName child) → P s →
      ∃ results due t, executeCalls lib perform calls s = (.ok results, t) ∧
        multicallDue lib perform calls s = (.ok due, t) ∧ List.Forall₂ Due.Met due results
  | [], s, _, _ => ⟨[], [], s, rfl, rfl, .nil⟩
  | child :: calls, s, hc, hs => by
    have hrest := fun c h => hc c (List.mem_cons_of_mem _ h)
    have hread := hc child List.mem_cons_self
    rw [ReadsByName] at hread
    rw [executeCalls, multicallDue]
    cases hsub : subcall child with
    | error e => rw [hsub] at hread; exact hread.elim
    | ok call =>
      obtain ⟨method, element⟩ := call
      rw [hsub] at hread
      rw [ofRead_ok_bind]
      dsimp only at hread ⊢
      cases hp : readAll (paramValues element) with
      | ok params =>
        rw [hp] at hread
        dsimp only at hread
        rw [hread, catchFault_of_read lib perform method hp]
        obtain ⟨answer, t, ha, ht⟩ := answerTo_ok hb hs method params
        obtain ⟨results, due, u, hr, hd, hm⟩ := executeCalls_due hb hrest ht
        have hl : lift (answerTo lib perform method params) s = (.ok answer, t) := by
          rw [lift, Run.mapError, ha]
        refine ⟨answer :: results, .own answer :: due, u, ?_, ?_, .cons rfl hm⟩
        · exact (Run.bind_of_ok hl _).trans (Run.bind_of_ok hr _)
        · exact (Run.bind_of_ok ha _).trans (Run.bind_of_ok hd _)
      | error e =>
        rw [hp] at hread
        have he : e ≠ .nullPointer := by
          rintro rfl
          exact hread
        have hn : namedCall child = none := by
          cases e with
          | nullPointer => exact (he rfl).elim
          | _ => exact hread
        obtain ⟨type, what, hf⟩ := catchFault_unreadable hb s method hp he
        obtain ⟨results, due, u, hr, hd, hm⟩ := executeCalls_due hb hrest hs
        rw [hn]
        refine ⟨faultObject type what :: results, .someFault :: due, u, ?_, ?_,
          .cons ⟨type, what, rfl⟩ hm⟩
        · exact (Run.bind_of_ok hf _).trans (Run.bind_of_ok hr _)
        · exact Run.bind_of_ok hd _

theorem processDocument_multicall (lib : Library ω τ) (perform : Performer ω τ) {doc : Document}
    {calls : List XmlNode} (h : multicallOf doc = some calls) :
    processDocument lib perform doc =
      (do let results ← executeCalls lib perform calls
          pure (.list results)) := by
  rw [multicallOf] at h
  rw [processDocument]
  split at h
  · cases h
  · next nodes call methodName hc =>
    split at h
    · next hm =>
      split at h
      · cases h
      · next data hd =>
        cases h
        rw [hc, ofRead_ok_bind]
        dsimp only
        rw [if_pos hm, hd, ofRead_ok_bind]
    · cases h

end

def echoFlags : BitVec 32 := flagPublicRpc ||| flagUntrustedSafe

def echoMap (key : Text) : Option (Entry (Slot Unit (Option Object))) :=
  some ⟨echoFlags, fun target args =>
    .done (.list [.string key, .list target.toList, args])⟩

def echoes : Library Unit (Option Object) where
  parseJson _ := .error ""
  dumpJson _ := .error ""
  dumpReplaced _ := []
  objectToJson _ := .ok .null
  parseXml _ := .invalid (.inputError, "")
  printResult _ := []
  printFault _ _ := []
  makeTarget := none
  objectToTarget _ obj _ := .ok (some obj)

def echo (method : Text) (params : List Object) : Object :=
  .list [.string (cString method), .list params.head?.toList, .list params.tail]

theorem echo_injective {m m' : Text} {params params' : List Object}
    (h : echo m params = echo m' params') : cString m = cString m' ∧ params = params' := by
  simp only [echo, Object.list.injEq, List.cons.injEq, Object.string.injEq] at h
  refine ⟨h.1, ?_⟩
  cases params with
  | nil =>
    cases params' with
    | nil => rfl
    | cons p ps => cases h.2.1
  | cons p ps =>
    cases params' with
    | nil => cases h.2.1
    | cons q qs =>
      have hp : p = q := by simpa using h.2.1
      have hq : ps = qs := by simpa using h.2.2
      rw [hp, hq]

variable {request : Performer Unit (Option Object)} {s t : State Unit (Option Object)}

theorem echoes_behaves (request : Performer Unit (Option Object)) :
    Behaves echoes request fun s => s.commands = echoMap := by
  refine behaves_of_simple ?_ (by rintro _ _ _ _ ⟨⟩)
  intro key entry h target args
  cases h
  exact .done

theorem readParams_echo (flags : BitVec 32) (params : List Object) :
    readParams echoes flags (params.map .ok) s = (.ok (params.head?, params.tail), s) := by
  cases params with
  | nil => rfl
  | cons first rest =>
    rw [List.map_cons, readParams, checkAll_ok]
    rfl

theorem echoMap_entry (hs : s.commands = echoMap) (key : Text) :
    ∃ entry, echoMap key = some entry ∧
      (s.commands key).filter (fun entry => hasFlag entry.flags flagPublicRpc) = some entry ∧
      hasFlag entry.flags (flagFileTarget ||| flagTrackerTarget) = false := by
  have hpublic : hasFlag echoFlags flagPublicRpc = true := by decide
  refine ⟨_, rfl, ?_, (by decide : hasFlag echoFlags (flagFileTarget ||| flagTrackerTarget) =
    false)⟩
  exact Option.filter_eq_some_iff.mpr ⟨congrFun hs key, hpublic⟩

theorem callEntry_echo {key : Text} {entry : Entry (Slot Unit (Option Object))}
    (h : echoMap key = some entry) (args : Object) (target : Option Object) :
    callEntry request key entry args target s =
      (.ok (.list [.string key, .list target.toList, args]),
        { s with ran := ⟨key, echoFlags⟩ :: s.ran }) := by
  cases h
  have hf : hasFlag echoFlags flagUntrustedSafe = true := by decide
  rw [callEntry, Run.get_bind, hf, Bool.not_true, Bool.and_false, if_neg Bool.false_ne_true]
  rfl

theorem answerTo_echo (hs : s.commands = echoMap) (method : Text) (params : List Object) :
    answerTo echoes request method params s = (.ok (.list [echo method params]),
      { s with ran := ⟨cString method, echoFlags⟩ :: s.ran }) := by
  have hx : RpcRequests.executeCommand echoes request ⟨method, params.map .ok⟩ s =
      (.ok (echo method params), { s with ran := ⟨cString method, echoFlags⟩ :: s.ran }) := by
    obtain ⟨entry, he, hf, hindex⟩ := echoMap_entry hs (cString method)
    rw [RpcRequests.executeCommand, Run.get_bind, hf]
    dsimp only
    rw [Run.bind_of_ok (readParams_echo entry.flags params)]
    dsimp only
    rw [hindex, Bool.and_false, if_neg Bool.false_ne_true, refuse, Run.handle,
      callEntry_echo he]
    rfl
  rw [answerTo, onFault, Run.handle, Run.bind_of_ok hx]
  rfl

theorem readTarget_echo_null (flags : BitVec 32) {values : List (Option XmlNode)}
    (h : readAll values = .error .nullPointer) :
    readTarget echoes flags values s = (.error .nullPointer, s) := by
  cases values with
  | nil => cases h
  | cons value values =>
    rw [readAll] at h
    rw [readTarget]
    cases hv : xmlValueToObject value with
    | error e =>
      rw [hv] at h
      cases h
      rfl
    | ok first =>
      cases hr : readAll values with
      | ok rest =>
        rw [hv, hr] at h
        cases h
      | error e =>
        rw [hv, hr] at h
        cases h
        rfl

theorem catchFault_echo_null (hs : s.commands = echoMap) (method : Text)
    {element : Option XmlNode} (h : readAll (paramValues element) = .error .nullPointer) :
    (catchFault do
      let result ← executeCommand echoes request method element
      pure (.list [result])) s = (.error .nullPointer, s) := by
  have hx : executeCommand echoes request method element s = (.error .nullPointer, s) := by
    obtain ⟨entry, -, hf, -⟩ := echoMap_entry hs (cString method)
    rw [executeCommand, Run.get_bind, hf]
    exact Run.bind_of_error (readTarget_echo_null entry.flags h) _
  rw [catchFault, Run.handle, Run.bind_of_error hx]
  rfl

/-- What the entry for a sub-call shows of it. -/
inductive Shows (child : XmlNode) : Object → Prop
  | call {method element params} : subcall child = .ok (method, element) →
    readAll (paramValues element) = .ok params → Shows child (.list [echo method params])
  | fault {method element e type what} : subcall child = .ok (method, element) →
    readAll (paramValues element) = .error e → e ≠ .nullPointer →
      Shows child (faultObject type what)

theorem executeCalls_shows : ∀ {calls : List XmlNode} {s t : State Unit (Option Object)}
    {results : List Object}, executeCalls echoes request calls s = (.ok results, t) →
      s.commands = echoMap → List.Forall₂ Shows calls results
  | [], _, _, _, h, _ => by
    cases h
    exact .nil
  | child :: calls, s, t, results, h, hs => by
    rw [executeCalls] at h
    cases hsub : subcall child with
    | error e => rw [hsub] at h; cases h
    | ok call =>
      obtain ⟨method, element⟩ := call
      rw [hsub, ofRead_ok_bind] at h
      obtain ⟨result, u, hr, h⟩ := Run.bind_ok h
      obtain ⟨rest, v, hrest, h⟩ := Run.bind_ok h
      cases h
      cases hp : readAll (paramValues element) with
      | ok params =>
        rw [catchFault_of_read _ _ _ hp, lift, Run.mapError, answerTo_echo hs] at hr
        cases hr
        exact .cons (.call hsub hp) (executeCalls_shows hrest hs)
      | error e =>
        by_cases he : e = .nullPointer
        · cases he
          rw [catchFault_echo_null hs method hp] at hr
          cases hr
        · obtain ⟨type, what, hf⟩ := catchFault_unreadable (echoes_behaves request) s method hp he
          rw [hf] at hr
          cases hr
          exact .cons (.fault hsub hp he) (executeCalls_shows hrest hs)

def echoDue (child : XmlNode) : Due :=
  match namedCall child with
  | none => .someFault
  | some (method, params) => .own (.list [echo method params])

theorem multicallDue_echo : ∀ {calls : List XmlNode} {s t : State Unit (Option Object)}
    {due : List Due}, multicallDue echoes request calls s = (.ok due, t) →
      s.commands = echoMap → due = calls.map echoDue
  | [], _, _, _, h, _ => by
    cases h
    rfl
  | child :: calls, s, t, due, h, hs => by
    rw [multicallDue] at h
    rw [List.map_cons, echoDue]
    cases hc : namedCall child with
    | none =>
      rw [hc] at h
      obtain ⟨rest, u, hr, h⟩ := Run.bind_ok h
      cases h
      rw [multicallDue_echo hr hs]
    | some call =>
      obtain ⟨method, params⟩ := call
      rw [hc] at h
      obtain ⟨answer, u, ha, h⟩ := Run.bind_ok h
      obtain ⟨rest, v, hr, h⟩ := Run.bind_ok h
      cases h
      rw [answerTo_echo hs] at ha
      cases ha
      rw [multicallDue_echo hr hs]

theorem cString_getText {node : XmlNode} {text : Text} (h : getText node = some text) :
    cString text = text := by
  rw [getText, Option.bind_eq_some_iff] at h
  obtain ⟨child, _, h⟩ := h
  cases child with
  | text value =>
    cases h
    exact cString_of_not_mem (nul_not_mem_cString value)
  | _ => cases h

variable {child : XmlNode}

theorem cString_subcall {method : Text} {element : Option XmlNode}
    (h : subcall child = .ok (method, element)) : cString method = method := by
  rw [subcall] at h
  cases he : elementAccess child ["struct", "member", "value", "string"] with
  | error e => rw [he] at h; cases h
  | ok node =>
    cases ht : getText node with
    | none =>
      rw [he] at h
      simp only [bind, Except.bind, ht] at h
      cases h
    | some text =>
      rw [he] at h
      simp only [bind, Except.bind, ht] at h
      cases h
      exact cString_getText ht

theorem cString_namedCall {method : Text} {params : List Object}
    (h : namedCall child = some (method, params)) : cString method = method := by
  simp only [namedCall, bind, Option.bind_eq_some_iff] at h
  obtain ⟨member, _, value, _, element, _, text, ht, h⟩ := h
  split at h
  · cases h
    exact cString_getText ht
  · cases h

theorem readsByName_of_shows {r : Object} (h : Shows child r)
    (hm : (echoDue child).Met r) : ReadsByName child := by
  rw [ReadsByName]
  rw [echoDue] at hm
  cases h with
  | call hsub hp =>
    rw [hsub]
    dsimp only
    rw [hp]
    cases hc : namedCall child with
    | none =>
      rw [hc] at hm
      obtain ⟨type, what, h⟩ := hm
      cases h
    | some call =>
      obtain ⟨method, params⟩ := call
      rw [hc] at hm
      simp only [Due.Met, Object.list.injEq, List.cons.injEq, and_true] at hm
      obtain ⟨hmethod, rfl⟩ := echo_injective hm
      rw [cString_subcall hsub, cString_namedCall hc] at hmethod
      rw [hmethod]
  | @fault _ _ e _ _ hsub hp he =>
    rw [hsub]
    dsimp only
    rw [hp]
    cases hc : namedCall child with
    | some call =>
      rw [hc] at hm
      cases hm
    | none =>
      cases e with
      | nullPointer => exact (he rfl).elim
      | _ => rfl

theorem readsByName_of_answered : ∀ {calls : List XmlNode} {results : List Object},
    List.Forall₂ Shows calls results → List.Forall₂ Due.Met (calls.map echoDue) results →
      ∀ child ∈ calls, ReadsByName child
  | _, _, .nil, _ => by simp
  | child :: calls, r :: results, .cons h hs, .cons hm hms => by
    intro c hc
    rcases List.mem_cons.mp hc with rfl | hc
    · exact readsByName_of_shows h hm
    · exact readsByName_of_answered hs hms c hc

/-- A request is answered sub-call by sub-call, whatever the commands do, exactly when the first
two members of each are read as their names say. -/
theorem multicall_answered_iff {doc : Document} {calls : List XmlNode}
    (h : multicallOf doc = some calls) :
    (∀ (ω τ : Type) (lib : Library ω τ) (perform : Performer ω τ)
        (P : State ω τ → Prop) (s : State ω τ),
        Behaves lib perform P → P s → Answered lib perform doc calls s) ↔
      ∀ child ∈ calls, ReadsByName child := by
  constructor
  · intro ha
    obtain ⟨results, t, due, u, hp, hd, hm⟩ := ha _ _ echoes (perform 0) _
      ⟨echoMap, true, (), [], []⟩ (echoes_behaves _) rfl
    rw [processDocument_multicall echoes _ h] at hp
    obtain ⟨rs, v, hr, hp⟩ := Run.bind_ok hp
    cases hp
    rw [multicallDue_echo hd rfl] at hm
    exact readsByName_of_answered (executeCalls_shows hr rfl) hm
  · intro hc ω τ lib perform P s hb hs
    obtain ⟨results, due, t, hr, hd, hm⟩ := executeCalls_due hb hc hs
    refine ⟨results, t, due, t, ?_, hd, hm⟩
    rw [processDocument_multicall lib perform h]
    exact Run.bind_of_ok hr _

def methodMember : XmlNode := member "methodName" (stringValue "ping")

def paramsMember : XmlNode := member "params" (arrayValue [stringValue "target"])

def echoing : State Unit (Option Object) := ⟨echoMap, true, (), [], []⟩

theorem ping_answered :
    multicallOf (multicallRequest [subcallOf [methodMember, paramsMember]]) =
      some [subcallOf [methodMember, paramsMember]] ∧
    Answered echoes (perform 0) (multicallRequest [subcallOf [methodMember, paramsMember]])
      [subcallOf [methodMember, paramsMember]] echoing := by
  refine ⟨rfl, (multicall_answered_iff rfl).mpr ?_ _ _ echoes (perform 0) _ echoing
    (echoes_behaves _) rfl⟩
  intro child hc
  cases List.mem_singleton.mp hc
  exact (rfl : namedCall (subcallOf [methodMember, paramsMember]) = _)

def textParams : XmlNode :=
  member "params" (arrayValue [element "value" [.text "array".toList]])

/-- A sub-call without a struct, or with its parameters first, takes the answers to all
sub-calls with it, and a text that reads `array` is taken for an element. -/
theorem ping_lost :
    (processDocument echoes (perform 0)
      (multicallRequest [subcallOf [methodMember, paramsMember], element "value" []])
      echoing).1 = .error (.thrown (.error (.rpcError xmlrpcParseError)
        "could not find expected element struct")) ∧
    (multicallDue echoes (perform 0)
      [subcallOf [methodMember, paramsMember], element "value" []] echoing).1 =
      .ok [.own (.list [echo "ping".toList [.string "target".toList]]), .someFault] ∧
    (processDocument echoes (perform 0)
      (multicallRequest [subcallOf [paramsMember, methodMember]]) echoing).1 =
      .error (.thrown (.error (.rpcError xmlrpcParseError)
        "could not find expected element string")) ∧
    (multicallDue echoes (perform 0) [subcallOf [paramsMember, methodMember]] echoing).1 =
      .ok [.own (.list [echo "ping".toList [.string "target".toList]])] ∧
    (processDocument echoes (perform 0)
      (multicallRequest [subcallOf [methodMember, textParams]]) echoing).1 =
      .error .nullPointer ∧
    (multicallDue echoes (perform 0) [subcallOf [methodMember, textParams]] echoing).1 =
      .ok [.someFault] :=
  ⟨rfl, rfl, rfl, rfl, rfl, rfl⟩

end XmlRpcMulticall
