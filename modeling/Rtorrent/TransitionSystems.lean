import Mathlib.Logic.Basic

/-! # Labelled transition systems

A system is a relation between a state, an event and the state after it. A machine is the
executable case: a guard and a total next-state function. -/
namespace TransitionSystems

structure System (σ : Type*) (ε : Type*) where
  Step : σ → ε → σ → Prop

/-- Every step also has to meet a condition on the state before it and on its event. -/
def System.guarded {σ ε : Type*} (S : System σ ε) (G : σ → ε → Prop) : System σ ε :=
  ⟨fun s e t => G s e ∧ S.Step s e t⟩

inductive Execution {σ ε : Type*} (S : System σ ε) : σ → List ε → σ → Prop where
  | nil (s) : Execution S s [] s
  | cons {s e t es u} : S.Step s e t → Execution S t es u → Execution S s (e :: es) u

def Reachable {σ ε : Type*} (S : System σ ε) (s t : σ) : Prop := ∃ es, Execution S s es t

variable {σ ε : Type*} {S : System σ ε} {s t : σ} {es : List ε}

theorem Execution.trans {u : σ} {fs : List ε} (h : Execution S s es t)
    (k : Execution S t fs u) : Execution S s (es ++ fs) u := by
  induction h with
  | nil => exact k
  | cons hs _ ih => exact .cons hs (ih k)

variable {I : σ → Prop}

theorem Execution.preserves
    (h : Execution S s es t) (hstep : ∀ s e t, I s → S.Step s e t → I t) (hs : I s) : I t := by
  induction h with
  | nil => exact hs
  | cons h _ ih => exact ih (hstep _ _ _ hs h)

/-- What holds initially and is kept by every step holds in every reachable state. -/
theorem Reachable.invariant (h : Reachable S s t)
    (hs : I s) (hstep : ∀ s e t, I s → S.Step s e t → I t) : I t := by
  rcases h with ⟨es, he⟩
  exact he.preserves hstep hs

theorem Execution.unguarded {G : σ → ε → Prop}
    (h : Execution (S.guarded G) s es t) : Execution S s es t := by
  induction h with
  | nil => exact .nil _
  | cons h _ ih => exact .cons h.2 ih

structure Machine (σ : Type*) (ε : Type*) where
  Enabled : σ → ε → Prop
  next : σ → ε → σ

namespace Machine

variable (M : Machine σ ε)

def guarded (G : σ → ε → Prop) : Machine σ ε := ⟨fun s e => G s e ∧ M.Enabled s e, M.next⟩

def system : System σ ε := ⟨fun s e t => M.Enabled s e ∧ t = M.next s e⟩

/-- The state after a list of events, whether or not they are enabled. -/
def replay (s : σ) (es : List ε) : σ := es.foldl M.next s

def Accepts (s : σ) : List ε → Prop
  | [] => True
  | e :: es => M.Enabled s e ∧ Accepts (M.next s e) es

instance decidableAccepts [∀ s e, Decidable (M.Enabled s e)] :
    ∀ (es : List ε) (s : σ), Decidable (M.Accepts s es)
  | [], _ => isTrue trivial
  | e :: es, s =>
    have := decidableAccepts es (M.next s e)
    inferInstanceAs (Decidable (M.Enabled s e ∧ M.Accepts (M.next s e) es))

variable {M : Machine σ ε} {es : List ε} {s : σ}

theorem Accepts.execution (h : M.Accepts s es) : Execution M.system s es (M.replay s es) := by
  induction es generalizing s with
  | nil => exact .nil s
  | cons e es ih => exact .cons ⟨h.1, rfl⟩ (ih h.2)

variable {t : σ} {e : ε}

theorem accepts_guarded_cons {G : σ → ε → Prop}
    (hg : G s e) (he : M.Enabled s e) (ht : M.next s e = t) (h : (M.guarded G).Accepts t es) :
    (M.guarded G).Accepts s (e :: es) := by
  subst ht
  exact ⟨⟨hg, he⟩, h⟩

theorem reachable_next (he : M.Enabled s e)
    (h : Reachable M.system (M.next s e) t) : Reachable M.system s t := by
  rcases h with ⟨es, hes⟩
  exact ⟨e :: es, .cons ⟨he, rfl⟩ hes⟩

end Machine

end TransitionSystems
