import Rtorrent.RpcCommandParser

/-! # The commands `if` and `branch`

`branch` runs its conditions and the branch it takes, `if` takes both as they are. An iterator is
the list from it on. -/
namespace UiConditionals

open FallibleRuns RpcTextParser RpcCommandParser

/-- The flag of `apply_if`. -/
inductive Mode where
  | ifMode
  | branchMode
  deriving DecidableEq, Repr

def Mode.name : Mode → String
  | .ifMode => "if"
  | .branchMode => "branch"

section

variable {σ τ : Type} (call : CallCommand σ τ) (target : τ)

def runText (text : Text) : CommandRun σ Object := do
  let r ← parseCommand call target text
  pure r.1

def conditional (mode : Mode) (obj : Object) : CommandRun σ Object :=
  match mode, obj with
  | .branchMode, .string text => runText call target text
  | .branchMode, .dictKey _ key args => call (cString key) args target
  | _, obj => pure obj

def holds (mode : Mode) : Object → CommandRun σ Bool
  | .string s => pure !s.isEmpty
  | .value v => pure (v != 0)
  | .none => pure false
  | _ => Run.ofExcept (inputError ("Type not supported by " ++ mode.name ++ "."))

def checkConditional (mode : Mode) (obj : Object) : CommandRun σ Bool := do
  let value ← conditional call target mode obj
  holds mode value

/-- The iterator when the first condition has been looked at. -/
def selectBranch (mode : Mode) : List Object → CommandRun σ (List Object)
  | [] => Run.ofExcept (inputError ("Empty argument list to " ++ mode.name ++ "."))
  | cond :: args => do
    let result ← checkConditional call target mode cond
    pure (if result then args else args.drop 1)

def runBranchItems : List Object → CommandRun σ Unit
  | [] => pure ()
  | .string text :: items => do
    let _ ← runText call target text
    runBranchItems items
  | .dictKey _ key args :: items => do
    let _ ← call (cString key) args target
    runBranchItems items
  | _ => Run.ofExcept (inputError "Invalid command type in branch list.")

def runBranch (mode : Mode) : List Object → CommandRun σ Object
  | [] => pure .none
  | obj :: _ =>
    match mode, obj with
    | .ifMode, obj => pure obj
    | .branchMode, .string text => runText call target text
    | .branchMode, .dictKey _ key args => call (cString key) args target
    | .branchMode, .list items => do
      runBranchItems call target items
      pure .none
    | .branchMode, _ => Run.ofExcept (inputError "Invalid command type in branch.")

def applyIf (mode : Mode) : Object → CommandRun σ Object
  | .list args => do
    let branch ← selectBranch call target mode args
    runBranch call target mode branch
  | _ => Run.ofExcept (inputError "Wrong object type.")

/-- The branch of the first condition that holds, or the last argument when it has no
partner. -/
def chosenBranch (mode : Mode) : List Object → CommandRun σ (List Object)
  | cond :: branch :: args => do
    let result ← checkConditional call target mode cond
    if result then pure (branch :: args) else chosenBranch mode args
  | args => pure args

def applySeries (mode : Mode) (args : List Object) : CommandRun σ Object := do
  let branch ← chosenBranch call target mode args
  runBranch call target mode branch

variable {call target} {mode : Mode} {args : List Object} {s t : σ}

theorem chosenBranch_length {branch : List Object}
    (h : chosenBranch call target mode args s = (.ok branch, t)) :
    branch.length ≤ args.length ∧ (2 ≤ args.length → branch.length < args.length) := by
  induction args using chosenBranch.induct generalizing s with
  | case1 cond obj args ih =>
    rw [chosenBranch] at h
    rcases Run.bind_ok h with ⟨result, u, -, hr⟩
    cases result with
    | true =>
      cases hr
      simp
    | false =>
      have hl := (ih hr).1
      simp only [List.length_cons]
      omega
  | case2 args hargs =>
    rw [chosenBranch] at h
    · rcases args with _ | ⟨a, _ | ⟨b, args⟩⟩
      · cases h
        simp
      · cases h
        simp
      · exact absurd rfl (hargs a b args)
    · exact hargs

variable {cond : Object}

theorem selectBranch_of_fails (h : checkConditional call target mode cond s = (.ok false, t)) :
    selectBranch call target mode (cond :: args) s = (.ok (args.drop 1), t) := by
  rw [selectBranch, Run.bind_apply, h]
  rfl

theorem chosenBranch_of_fails {branch : Object}
    (h : checkConditional call target mode cond s = (.ok false, t)) :
    chosenBranch call target mode (cond :: branch :: args) s =
      chosenBranch call target mode args t := by
  rw [chosenBranch, Run.bind_apply, h]
  rfl

theorem chosenBranch_short (h : args.length ≤ 1) :
    chosenBranch call target mode args = pure args := by
  rcases args with _ | ⟨a, _ | ⟨b, args⟩⟩
  · rfl
  · rfl
  · simp at h

theorem selectBranch_eq_chosenBranch (branch : Object)
    (h : args.length ≤ 1 ∨ (checkConditional call target mode cond s).1 ≠ .ok false) :
    selectBranch call target mode (cond :: branch :: args) s =
      chosenBranch call target mode (cond :: branch :: args) s := by
  rcases hr : checkConditional call target mode cond s with ⟨result, t⟩
  cases result with
  | error e => rw [selectBranch, chosenBranch, Run.bind_apply, Run.bind_apply, hr]
  | ok result =>
    cases result with
    | true =>
      rw [selectBranch, chosenBranch, Run.bind_apply, Run.bind_apply, hr]
      rfl
    | false =>
      have hl : args.length ≤ 1 := h.resolve_right (fun hne => hne (by rw [hr]))
      rw [selectBranch_of_fails hr, chosenBranch_of_fails hr, chosenBranch_short hl]
      rfl

variable (call target mode)

/-- A second condition is not looked at but taken for the branch. -/
theorem applyIf_series_iff (cond branch : Object) (args : List Object) (s : σ) :
    (selectBranch call target mode (cond :: branch :: args) s =
        chosenBranch call target mode (cond :: branch :: args) s ∧
      applyIf call target mode (.list (cond :: branch :: args)) s =
        applySeries call target mode (cond :: branch :: args) s) ↔
    args.length ≤ 1 ∨ (checkConditional call target mode cond s).1 ≠ .ok false := by
  constructor
  · rintro ⟨hsel, -⟩
    by_contra hcon
    rw [not_or, not_not] at hcon
    rcases hr : checkConditional call target mode cond s with ⟨result, t⟩
    rw [hr] at hcon
    rcases hcon with ⟨hl, rfl⟩
    rw [selectBranch_of_fails hr, chosenBranch_of_fails hr] at hsel
    have hlen := (chosenBranch_length hsel.symm).2 (by omega)
    simp at hlen
  · intro h
    have hsel := selectBranch_eq_chosenBranch branch h
    constructor
    · exact hsel
    · rw [applyIf, applySeries, Run.bind_apply, Run.bind_apply, hsel]

end

def noteCall : CallCommand (List Text) Unit := fun key args _ log => (.ok args, log ++ [key])

/-- The second condition is returned by `if`, and is the branch that `branch` runs. -/
theorem second_condition_taken_for_branch :
    applyIf noteCall () .ifMode (.list [.value 0, .string "yes".toList, .value 1,
        .string "handshake".toList, .string "no".toList]) [] = (.ok (.value 1), []) ∧
    applySeries noteCall () .ifMode [.value 0, .string "yes".toList, .value 1,
        .string "handshake".toList, .string "no".toList] [] =
      (.ok (.string "handshake".toList), []) ∧
    applyIf noteCall () .branchMode (.list [.dictKey .none ['a'] (.value 0),
        .dictKey .none ['b'] (.value 2), .dictKey .none ['c'] (.value 3),
        .dictKey .none ['d'] (.value 4)]) [] = (.ok (.value 3), [['a'], ['c']]) ∧
    applySeries noteCall () .branchMode [.dictKey .none ['a'] (.value 0),
        .dictKey .none ['b'] (.value 2), .dictKey .none ['c'] (.value 3),
        .dictKey .none ['d'] (.value 4)] [] = (.ok (.value 4), [['a'], ['c'], ['d']]) :=
  ⟨rfl, rfl, rfl, rfl⟩

end UiConditionals
