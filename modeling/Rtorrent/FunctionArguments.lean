import Rtorrent.FallibleRuns
import Rtorrent.RpcTextParser

/-! # The arguments of user-defined functions

There is one array of ten arguments. A call exchanges its own arguments with what the array holds,
and exchanges them back when it ends or throws. -/
namespace FunctionArguments

open FallibleRuns RpcTextParser

def maxArguments : ℕ := 10

/-- `command_base::current_stack`. -/
abbrev Slots := Fin maxArguments → Object

structure Stack where
  objects : List Object
  bounded : objects.length ≤ maxArguments

def Stack.empty : Stack := ⟨[], Nat.zero_le _⟩

/-- The copy of an argument is swapped with the slot. -/
def pushStack : List Object → Stack → Slots → Stack × Slots
  | [], stack, slots => (stack, slots)
  | arg :: args, stack, slots =>
    if h : stack.objects.length < maxArguments then
      let idx : Fin maxArguments := ⟨stack.objects.length, h⟩
      pushStack args ⟨slots idx :: stack.objects, h⟩ (Function.update slots idx arg)
    else (stack, slots)

def popObjects : (objects : List Object) → objects.length ≤ maxArguments → Slots → Slots
  | [], _, slots => slots
  | obj :: objects, h, slots =>
    popObjects objects (Nat.le_of_succ_le h) (Function.update slots ⟨objects.length, h⟩ obj)

def popStack (stack : Stack) (slots : Slots) : Slots :=
  popObjects stack.objects stack.bounded slots

def bound (args : List Object) (slots : Slots) : Slots := fun i => args[i.val]?.getD (slots i)

variable (args : List Object) (stack : Stack) (slots : Slots)

theorem popStack_pushStack :
    popStack (pushStack args stack slots).1 (pushStack args stack slots).2 =
      popStack stack slots := by
  induction args generalizing stack slots with
  | nil => rfl
  | cons arg args ih =>
    rw [pushStack]
    split
    · rw [ih, popStack, popObjects, Function.update_idem, Function.update_eq_self]
      rfl
    · rfl

theorem pushStack_slots (i : Fin maxArguments) :
    (pushStack args stack slots).2 i =
      if i.val < stack.objects.length then slots i
      else args[i.val - stack.objects.length]?.getD (slots i) := by
  induction args generalizing stack slots with
  | nil => simp [pushStack]
  | cons arg args ih =>
    rw [pushStack]
    split
    · next h =>
      rw [ih, List.length_cons]
      rcases Nat.lt_trichotomy i.val stack.objects.length with hlt | heq | hgt
      · have hne : i ≠ ⟨stack.objects.length, h⟩ := Fin.ne_of_val_ne (Nat.ne_of_lt hlt)
        rw [if_pos hlt, if_pos (by omega), Function.update_of_ne hne]
      · have hi : i = ⟨stack.objects.length, h⟩ := Fin.ext heq
        rw [if_pos (by omega), if_neg (by omega), hi, Function.update_self]
        simp
      · have hne : i ≠ ⟨stack.objects.length, h⟩ := Fin.ne_of_val_ne (Nat.ne_of_gt hgt)
        have hnext : i.val - stack.objects.length = i.val - (stack.objects.length + 1) + 1 := by
          omega
        rw [if_neg (by omega), if_neg (by omega), hnext, List.getElem?_cons_succ,
          Function.update_of_ne hne]
    · next h => rw [if_pos (by omega)]

theorem pushStack_empty : (pushStack args .empty slots).2 = bound args slots := by
  funext i
  exact pushStack_slots args .empty slots i

/-- The commands of a function look at an argument, or call a function and see how it ends. -/
inductive Body (ε : Type) where
  | done (result : Object)
  | throw (e : ε)
  | argument (i : Fin maxArguments) (next : Object → Body ε)
  | call (args : Object) (body : Body ε) (next : Except ε Object → Body ε)

/-- What the array holds at some time in a call with these arguments. -/
structure Sight where
  args : List Object
  slots : Slots

structure State where
  slots : Slots
  seen : List Sight

variable {ε : Type}

abbrev CallRun (ε : Type) := Run ε State

/-- An object that is no list is the only argument. -/
def argumentsOf : Object → List Object
  | .list items => items
  | .none => []
  | obj => [obj]

def commandFunctionCallObject (callObject : CallRun ε Object) (args : Object) :
    CallRun ε Object := do
  let s ← Run.get
  let pushed := pushStack (argumentsOf args) .empty s.slots
  Run.modify fun s => { s with slots := pushed.2 }
  let pop : CallRun ε Unit := Run.modify fun s => { s with slots := popStack pushed.1 s.slots }
  let result ← Run.handle callObject fun e => do
    pop
    Run.fail e
  pop
  pure result

def State.looked (args : List Object) (s : State) : State :=
  { s with seen := ⟨args, s.slots⟩ :: s.seen }

def look (args : List Object) : CallRun ε Unit := Run.modify (State.looked args)

def outcome (x : CallRun ε Object) : CallRun ε (Except ε Object) := fun s =>
  (.ok (x s).1, (x s).2)

def runBody (args : List Object) : Body ε → CallRun ε Object
  | .done result => do
    look args
    pure result
  | .throw e => do
    look args
    Run.fail e
  | .argument i next => do
    look args
    let s ← Run.get
    runBody args (next (s.slots i))
  | .call inner body next => do
    look args
    let result ← outcome (commandFunctionCallObject (runBody (argumentsOf inner) body) inner)
    runBody args (next result)

/-- Inside a call the array holds the arguments of the call, up to the tenth. -/
def Sight.Bound (v : Sight) : Prop :=
  ∀ i (h : i < v.args.length) (h' : i < maxArguments), v.slots ⟨i, h'⟩ = v.args[i]

def Kept (s t : State) : Prop := t.slots = s.slots ∧ ∀ v ∈ t.seen, v ∈ s.seen ∨ v.Bound

/-- The commands of a function with the arguments in an environment that each call extends. -/
def evaluate (env : Slots) : Body ε → Except ε Object
  | .done result => .ok result
  | .throw e => .error e
  | .argument i next => evaluate env (next (env i))
  | .call args body next =>
    evaluate env (next (evaluate (bound (argumentsOf args) env) body))

theorem bound_sight : Sight.Bound ⟨args, bound args slots⟩ := by
  intro i h h'
  show args[i]?.getD _ = args[i]
  rw [List.getElem?_eq_getElem h, Option.getD_some]

theorem commandFunctionCallObject_apply (callObject : CallRun ε Object) (args : Object)
    (s : State) :
    commandFunctionCallObject callObject args s =
      let t := callObject { s with slots := (pushStack (argumentsOf args) .empty s.slots).2 }
      (t.1, { t.2 with
        slots := popStack (pushStack (argumentsOf args) .empty s.slots).1 t.2.slots }) := by
  rw [commandFunctionCallObject, Run.get_bind]
  cases h : callObject { s with slots := (pushStack (argumentsOf args) .empty s.slots).2 } with
  | mk r t =>
    simp only [Run.bind_apply, Run.modify, Run.handle, h]
    cases r <;> rfl

theorem look_kept {args : List Object} {s : State} (h : Sight.Bound ⟨args, s.slots⟩) :
    Kept s (s.looked args) := by
  refine ⟨rfl, ?_⟩
  intro v hv
  rcases List.mem_cons.mp hv with rfl | hv
  · exact .inr h
  · exact .inl hv

theorem Kept.trans {s t u : State} (h : Kept s t) (h' : Kept t u) : Kept s u := by
  refine ⟨h'.1.trans h.1, ?_⟩
  intro v hv
  rcases h'.2 v hv with hv | hv
  · exact h.2 v hv
  · exact .inr hv

def Evaluates (body : Body ε) : Prop :=
  ∀ (args : List Object) (s : State), Sight.Bound ⟨args, s.slots⟩ →
    (runBody args body s).1 = evaluate s.slots body ∧ Kept s (runBody args body s).2

theorem call_evaluates {body : Body ε} (h : Evaluates body) (args : Object) (s : State) :
    (commandFunctionCallObject (runBody (argumentsOf args) body) args s).1 =
        evaluate (bound (argumentsOf args) s.slots) body ∧
      Kept s (commandFunctionCallObject (runBody (argumentsOf args) body) args s).2 := by
  obtain ⟨hresult, hslots, hseen⟩ := h (argumentsOf args)
    { s with slots := bound (argumentsOf args) s.slots } (bound_sight _ _)
  rw [commandFunctionCallObject_apply, pushStack_empty]
  refine ⟨hresult, ?_, hseen⟩
  show popStack _ _ = s.slots
  rw [hslots]
  have hpop := popStack_pushStack (argumentsOf args) .empty s.slots
  rw [pushStack_empty] at hpop
  exact hpop

theorem runBody_evaluates (body : Body ε) : Evaluates body := by
  induction body with
  | done result =>
    intro args s h
    exact ⟨rfl, look_kept h⟩
  | throw e =>
    intro args s h
    exact ⟨rfl, look_kept h⟩
  | argument i next ih =>
    intro args s h
    obtain ⟨hresult, hkept⟩ := ih (s.slots i) args (s.looked args) h
    exact ⟨hresult, (look_kept h).trans hkept⟩
  | call inner body next ihBody ihNext =>
    intro args s h
    obtain ⟨hresult, hcall⟩ := call_evaluates ihBody inner (s.looked args)
    have hslots := hcall.1
    have hrest := ihNext (evaluate (bound (argumentsOf inner) s.slots) body) args _
      (by rw [hslots]; exact h)
    rw [hslots] at hrest
    have hrun : runBody args (.call inner body next) s =
        runBody args (next (evaluate (bound (argumentsOf inner) s.slots) body))
          (commandFunctionCallObject (runBody (argumentsOf inner) body) inner (s.looked args)).2 :=
      congrArg (fun r => runBody args (next r) _) hresult
    rw [hrun]
    exact ⟨hrest.1, (look_kept h).trans (hcall.trans hrest.2)⟩

/-- A call gives what its commands give with the arguments in the environment. All ten slots hold
afterwards what they held before. -/
theorem call_arguments (args : Object) (body : Body ε) (slots : Slots) :
    let t := commandFunctionCallObject (runBody (argumentsOf args) body) args ⟨slots, []⟩
    t.1 = evaluate (bound (argumentsOf args) slots) body ∧ t.2.slots = slots ∧
      ∀ v ∈ t.2.seen, v.Bound := by
  obtain ⟨hresult, hslots, hseen⟩ := call_evaluates (runBody_evaluates body) args ⟨slots, []⟩
  refine ⟨hresult, hslots, ?_⟩
  intro v hv
  rcases hseen v hv with hv | hv
  · cases hv
  · exact hv

end FunctionArguments
