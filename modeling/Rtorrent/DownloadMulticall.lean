import Mathlib.Algebra.GroupWithZero.Nat
import Rtorrent.RpcTextParser
import Rtorrent.TransitionSystems
import Rtorrent.ViewModel

/-! # Multicalls over a view

`d.multicall` and `d.multicall.filtered` copy the references of a view and go on while a
reference is not the last one to its download. A command can run further multicalls, so the
calls form a stack. The functions of a view that run event commands keep copies as well. -/
namespace DownloadMulticall

open RpcTextParser TransitionSystems ViewModel

variable {α : Type*}

/-- The copied references, those not visited yet, the download of the row with the commands left
for it, and whether one of its commands is running. -/
structure Multicall (α : Type*) where
  dlist : List α
  commands : List Text
  todo : List α
  row : Option (α × List Text)
  running : Bool
  result : List (List Object)

inductive Frame (α : Type*) where
  | multicall (m : Multicall α)
  | holding (entries : List α)

def Frame.refs : Frame α → List α
  | .multicall m => m.dlist
  | .holding entries => entries

def Frame.waits : Frame α → Bool
  | .multicall m => m.running
  | .holding _ => true

/-- The innermost call comes first in `frames`. In `erased` are the downloads whose
`DownloadList::erase` has completed, in `late` those that had a command dispatched on them after
it. -/
structure State (α : Type*) where
  downloads : List α
  views : List (View α)
  frames : List (Frame α)
  erased : List α
  late : List α

def initial : State α := ⟨[], [], [], [], []⟩

def Arranged (v w : View α) : Prop := w.name = v.name ∧ w.entries.Perm v.entries

instance [DecidableEq α] (v w : View α) : Decidable (Arranged v w) :=
  inferInstanceAs (Decidable (_ ∧ _))

def pushResult (obj : Object) (result : List (List Object)) : List (List Object) :=
  match result.getLast? with
  | some row => result.dropLast ++ [row ++ [obj]]
  | none => result

def findView (s : State α) (name : String) : Option (View α) :=
  s.views.find? (·.name = if name = "" then "default" else name)

/-- `passes` is the outcome of the condition of `filter_by`, a command that is taken to erase
nothing. -/
def startMulticall (v : View α) (passes : α → Bool) (commands : List Text) : Multicall α :=
  let dlist := v.visible.filter passes
  ⟨dlist, commands, dlist, none, false, []⟩

inductive Event (α : Type*) where
  | multicall (view : String) (passes : α → Bool) (commands : List Text)
  | loop
  | returns (obj : Object)
  | throws
  | hold (i : ℕ) (entries : List α)
  | release
  | insert (d : α)
  | insertView (name : String)
  | arrange (i : ℕ) (w : View α)
  | eraseFromView (i : ℕ) (d : α)
  | erase (d : α)

variable [DecidableEq α]

def useCount (s : State α) (d : α) : ℕ :=
  s.downloads.count d + (s.views.map (·.entries.count d)).sum +
    (s.frames.map (·.refs.count d)).sum

def loopNext (s : State α) (m : Multicall α) (below : List (Frame α)) : State α :=
  match m.row with
  | none =>
    match m.todo with
    | [] => { s with frames := below }
    | d :: todo =>
      if useCount s d = 1 then { s with frames := .multicall { m with todo := todo } :: below }
      else
        { s with
          frames := .multicall
            { m with
              todo := todo, row := some (d, m.commands), result := m.result ++ [[]] } :: below }
  | some (_, []) => { s with frames := .multicall { m with row := none } :: below }
  | some (d, _ :: commands) =>
    if useCount s d = 1 then { s with frames := .multicall { m with row := none } :: below }
    else
      { s with
        frames := .multicall { m with row := some (d, commands), running := true } :: below
        late := if d ∈ s.erased then d :: s.late else s.late }

def Frame.isHolding : Frame α → Bool
  | .multicall _ => false
  | .holding _ => true

def Active (s : State α) : Prop := s.frames.head?.all Frame.waits = true

instance (s : State α) : Decidable (Active s) := inferInstanceAs (Decidable (_ = true))

/-- `eraseFromView` is one round of the loop of `DownloadList::erase` over the views, `erase` its
end. A new download is a new object. -/
def Enabled (s : State α) : Event α → Prop
  | .multicall view _ _ => Active s ∧ (findView s view).isSome = true
  | .loop => s.frames.head?.any (!·.waits) = true
  | .returns _ | .throws => s.frames.head?.any (fun f => f.waits && !f.isHolding) = true
  | .hold i entries => Active s ∧
    (s.views[i]?).any (fun v => entries.all (· ∈ v.entries) && decide entries.Nodup) = true
  | .release => s.frames.head?.any Frame.isHolding = true
  | .insert d => Active s ∧ d ∉ s.downloads ∧ d ∉ s.erased
  | .insertView name => Active s ∧ name ≠ "" ∧ ∀ v ∈ s.views, v.name ≠ name
  | .arrange i w => Active s ∧ ∃ v ∈ s.views[i]?, Arranged v w
  | .eraseFromView i d => Active s ∧ (s.views[i]?).any (fun v => d ∈ v.entries) = true
  | .erase d => Active s ∧ d ∈ s.downloads ∧ ∀ v ∈ s.views, d ∉ v.entries

instance (s : State α) : ∀ e : Event α, Decidable (Enabled s e)
  | .multicall _ _ _ | .hold _ _ | .insert _ | .insertView _ | .arrange _ _
  | .eraseFromView _ _ | .erase _ => inferInstanceAs (Decidable (_ ∧ _))
  | .loop | .returns _ | .throws | .release => inferInstanceAs (Decidable (_ = true))

def next (s : State α) : Event α → State α
  | .multicall view passes commands =>
    match findView s view with
    | none => s
    | some v => { s with frames := .multicall (startMulticall v passes commands) :: s.frames }
  | .loop =>
    match s.frames with
    | .multicall m :: below => loopNext s m below
    | _ => s
  | .returns obj =>
    match s.frames with
    | .multicall m :: below =>
      { s with
        frames := .multicall
          { m with running := false, result := pushResult obj m.result } :: below }
    | _ => s
  | .throws | .release => { s with frames := s.frames.tail }
  | .hold _ entries => { s with frames := .holding entries :: s.frames }
  | .insert d =>
    { s with downloads := s.downloads ++ [d], views := s.views.map (·.insert d) }
  | .insertView name => { s with views := s.views ++ [.initialized name s.downloads] }
  | .arrange i w => { s with views := s.views.set i w }
  | .eraseFromView i d =>
    match s.views[i]? with
    | none => s
    | some v => { s with views := s.views.set i (v.eraseInternal (v.entries.idxOf d)) }
  | .erase d => { s with downloads := s.downloads.erase d, erased := d :: s.erased }

def machine : Machine (State α) (Event α) := ⟨Enabled, next⟩

instance (s : State α) (e : Event α) : Decidable (machine.Enabled s e) :=
  inferInstanceAs (Decidable (Enabled s e))

end DownloadMulticall
