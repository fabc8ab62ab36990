import Mathlib.Data.List.FinRange

/-! # The SCGI listener and its pool of tasks

`SCgi::event_read` looks for a free task behind the one it chose last and then before it. The
place of that task stands for "not found". -/
namespace ScgiListener

def maxTasks : ℕ := 100

/-- Which tasks are open, and `m_current`. -/
structure Listener where
  isOpen : Fin maxTasks → Bool
  current : Fin maxTasks

def Listener.initial : Listener := ⟨fun _ => false, ⟨0, by decide⟩⟩

def Listener.set (l : Listener) (task : Fin maxTasks) (value : Bool) : Fin maxTasks → Bool :=
  fun i => if i = task then value else l.isOpen i

/-- The two searches, over `[m_current + 1, end)` and over `[begin, m_current)`. -/
def Listener.search (l : Listener) : Fin maxTasks :=
  ((List.finRange maxTasks).find? fun i => decide (l.current < i) && !l.isOpen i).getD
    (((List.finRange maxTasks).find? fun i => decide (i < l.current) && !l.isOpen i).getD l.current)

/-- What `fd_accept` returns, and for a connection whether the socket manager lets it be opened. -/
inductive Accept where
  | connection (admitted : Bool)
  | retry
  | failed (message : String)
  deriving DecidableEq, Repr

inductive Error where
  | resourceError (message : String)
  deriving DecidableEq, Repr

/-- A task is opened for the connection, or it is closed because no task was found or by the
socket manager. -/
inductive Outcome where
  | opened (task : Fin maxTasks)
  | dropped
  | refused
  deriving DecidableEq, Repr

/-- An accepted connection and the listener before the search for a task. -/
structure Handled where
  before : Listener
  outcome : Outcome

structure Reading where
  listener : Listener
  handled : List Handled
  thrown : Option Error

def Listener.handle (l : Listener) (admitted : Bool) : Listener × Outcome :=
  if l.search = l.current then (l, .dropped)
  else if admitted then (⟨l.set l.search true, l.search⟩, .opened l.search)
  else ({ l with current := l.search }, .refused)

/-- The loop of `event_read` over what is accepted. The search is done before `fd_accept`. -/
def Listener.eventRead (l : Listener) : List Accept → Reading
  | [] => ⟨{ l with current := l.search }, [], none⟩
  | .retry :: _ => ⟨{ l with current := l.search }, [], none⟩
  | .failed message :: _ =>
    ⟨{ l with current := l.search }, [],
      some (.resourceError ("Listener port accept() failed: " ++ message))⟩
  | .connection admitted :: rest =>
    let after := l.handle admitted
    if after.2 = .refused then ⟨after.1, [⟨l, .refused⟩], none⟩
    else
      let reading := after.1.eventRead rest
      { reading with handled := ⟨l, after.2⟩ :: reading.handled }

inductive Event where
  | read (accepts : List Accept)
  | close (task : Fin maxTasks)

def Listener.next (l : Listener) : Event → Listener
  | .read accepts => (l.eventRead accepts).listener
  | .close task => { l with isOpen := l.set task false }

/-- The connections accepted in a run of events. -/
def Listener.accepted (l : Listener) : List Event → List Handled
  | [] => []
  | .read accepts :: events =>
    (l.eventRead accepts).handled ++ (l.next (.read accepts)).accepted events
  | .close task :: events => (l.next (.close task)).accepted events

theorem search_cases (l : Listener) :
    (l.search ≠ l.current ∧ l.isOpen l.search = false) ∨
      (l.search = l.current ∧ ∀ i, i ≠ l.current → l.isOpen i = true) := by
  rw [Listener.search]
  cases hbehind : (List.finRange maxTasks).find? fun i => decide (l.current < i) && !l.isOpen i with
  | some i =>
    have hi := List.find?_some hbehind
    simp only [Bool.and_eq_true, decide_eq_true_eq, Bool.not_eq_true'] at hi
    exact .inl ⟨hi.1.ne', hi.2⟩
  | none =>
    cases hbefore :
        (List.finRange maxTasks).find? fun i => decide (i < l.current) && !l.isOpen i with
    | some i =>
      have hi := List.find?_some hbefore
      simp only [Bool.and_eq_true, decide_eq_true_eq, Bool.not_eq_true'] at hi
      exact .inl ⟨hi.1.ne, hi.2⟩
    | none =>
      refine .inr ⟨rfl, fun i hi => ?_⟩
      have hup := List.find?_eq_none.mp hbehind i (List.mem_finRange i)
      have hdown := List.find?_eq_none.mp hbefore i (List.mem_finRange i)
      rcases lt_or_gt_of_ne hi with hlt | hgt
      · simpa [hlt] using hdown
      · simpa [hgt] using hup

/-- A task is opened that was not open, and a connection is dropped when all tasks are open. -/
structure Handled.Proper (h : Handled) : Prop where
  opened : ∀ task, h.outcome = .opened task → h.before.isOpen task = false
  dropped : h.outcome = .dropped → ∀ task, h.before.isOpen task = true

/-- All tasks are open, or one other than the task chosen last is free. -/
def HasRoom (l : Listener) : Prop :=
  (∀ task, l.isOpen task = true) ∨ ∃ task, task ≠ l.current ∧ l.isOpen task = false

theorem proper_iff (l : Listener) (admitted : Bool) :
    Handled.Proper ⟨l, (l.handle admitted).2⟩ ↔ HasRoom l := by
  rcases search_cases l with ⟨hfound, hfree⟩ | ⟨hnone, hopen⟩
  · have hroom : HasRoom l := .inr ⟨l.search, hfound, hfree⟩
    refine iff_of_true ?_ hroom
    cases admitted with
    | true =>
      refine ⟨fun task htask => ?_, fun h => ?_⟩
      · simp only [Listener.handle, if_neg hfound, if_true, Outcome.opened.injEq] at htask
        rw [← htask]
        exact hfree
      · simp [Listener.handle, hfound] at h
    | false => exact ⟨fun task h => by simp [Listener.handle, hfound] at h, fun h => by
        simp [Listener.handle, hfound] at h⟩
  · have hdropped : (l.handle admitted).2 = .dropped := by rw [Listener.handle, if_pos hnone]
    constructor
    · exact fun h => .inl (h.dropped hdropped)
    · rintro (hall | ⟨task, hne, hfree⟩)
      · exact ⟨fun task h => by simp [hdropped] at h, fun _ => hall⟩
      · exact absurd (hopen task hne) (by simp [hfree])

theorem mem_eventRead {l : Listener} {accepts : List Accept} {h : Handled}
    (hmem : h ∈ (l.eventRead accepts).handled) :
    ∃ admitted, h = ⟨h.before, (h.before.handle admitted).2⟩ := by
  induction accepts generalizing l with
  | nil => cases hmem
  | cons accept rest ih =>
    cases accept with
    | retry => cases hmem
    | failed message => cases hmem
    | connection admitted =>
      rw [Listener.eventRead] at hmem
      split at hmem
      · next hrefused =>
        cases List.mem_singleton.mp hmem
        exact ⟨admitted, by rw [hrefused]⟩
      · rcases List.mem_cons.mp hmem with rfl | hmem
        · exact ⟨admitted, rfl⟩
        · exact ih hmem

theorem mem_accepted {l : Listener} {events : List Event} {h : Handled}
    (hmem : h ∈ l.accepted events) :
    ∃ admitted, h = ⟨h.before, (h.before.handle admitted).2⟩ := by
  induction events generalizing l with
  | nil => cases hmem
  | cons event events ih =>
    cases event with
    | read accepts => exact (List.mem_append.mp hmem).elim mem_eventRead ih
    | close task => exact ih hmem

/-- The connections of a run are handled as they should be just when for each of them all tasks are
open or one is free besides the one chosen last. -/
theorem accepted_proper_iff (events : List Event) :
    (∀ h ∈ Listener.initial.accepted events, h.Proper) ↔
      ∀ h ∈ Listener.initial.accepted events, HasRoom h.before := by
  have hiff : ∀ h ∈ Listener.initial.accepted events, (h.Proper ↔ HasRoom h.before) := by
    intro h hmem
    obtain ⟨admitted, heq⟩ := mem_accepted hmem
    rw [heq]
    exact proper_iff h.before admitted
  exact forall₂_congr hiff

/-- All tasks but the first are taken in one call, whose last search goes on to the first. -/
def oneTaskLeft : List Event :=
  [.read (List.replicate 99 (.connection true)), .read [.connection true]]

theorem dropped_with_free_task :
    ∃ h ∈ Listener.initial.accepted oneTaskLeft,
      h.outcome = .dropped ∧ h.before.isOpen Listener.initial.current = false ∧ ¬h.Proper := by
  have hlast : (Listener.initial.accepted oneTaskLeft).getLast?.map (fun h =>
      (h.outcome, h.before.isOpen Listener.initial.current)) = some (.dropped, false) := by
    decide +kernel
  obtain ⟨h, hmem, heq⟩ := Option.map_eq_some_iff.mp hlast
  obtain ⟨hdropped, hfree⟩ := Prod.mk.inj heq
  refine ⟨h, List.mem_of_getLast? hmem, hdropped, hfree, fun hproper => ?_⟩
  exact absurd (hproper.dropped hdropped Listener.initial.current) (by simp [hfree])

end ScgiListener
