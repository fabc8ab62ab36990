import Mathlib.Logic.Basic

/-! # Computations that change a state and may fail

The state at the point of failure is kept. A property that is kept by sequencing is proved once
for an interpreter and then used for what it keeps and for the failures it avoids. -/
namespace FallibleRuns

def Run (ε σ α : Type) := σ → Except ε α × σ

namespace Run

variable {ε σ α β : Type}

def bind (x : Run ε σ α) (f : α → Run ε σ β) : Run ε σ β := fun s =>
  match x s with
  | (.ok a, t) => f a t
  | (.error e, t) => (.error e, t)

instance : Monad (Run ε σ) where
  pure a := fun s => (.ok a, s)
  bind := bind

def fail (e : ε) : Run ε σ α := fun s => (.error e, s)

def get : Run ε σ σ := fun s => (.ok s, s)

def modify (f : σ → σ) : Run ε σ Unit := fun s => (.ok (), f s)

def ofExcept : Except ε α → Run ε σ α
  | .ok a => pure a
  | .error e => fail e

def handle (x : Run ε σ α) (h : ε → Run ε σ α) : Run ε σ α := fun s =>
  match x s with
  | (.ok a, t) => (.ok a, t)
  | (.error e, t) => h e t

def mapError {ε' : Type} (g : ε → ε') (x : Run ε σ α) : Run ε' σ α := fun s =>
  match x s with
  | (.ok a, t) => (.ok a, t)
  | (.error e, t) => (.error (g e), t)

/-- The state is changed when the computation is left, in either way. -/
def ensure (x : Run ε σ α) (f : σ → σ) : Run ε σ α := fun s => ((x s).1, f (x s).2)

theorem bind_apply (x : Run ε σ α) (f : α → Run ε σ β) (s : σ) :
    (x >>= f) s = match x s with
      | (.ok a, t) => f a t
      | (.error e, t) => (.error e, t) := rfl

theorem pure_apply (a : α) (s : σ) : (pure a : Run ε σ α) s = (.ok a, s) := rfl

variable {s t : σ}

theorem bind_of_ok {x : Run ε σ α} {a : α} (h : x s = (.ok a, t)) (f : α → Run ε σ β) :
    (x >>= f) s = f a t := by
  rw [bind_apply, h]

theorem bind_of_error {x : Run ε σ α} {e : ε} (h : x s = (.error e, t))
    (f : α → Run ε σ β) : (x >>= f) s = (.error e, t) := by
  rw [bind_apply, h]

theorem get_bind (f : σ → Run ε σ α) (s : σ) : (get >>= f) s = f s s := rfl

theorem ofExcept_ok_bind (a : α) (f : α → Run ε σ β) : (ofExcept (.ok a) >>= f) = f a := rfl

theorem ofExcept_error_bind (e : ε) (f : α → Run ε σ β) :
    ((ofExcept (.error e) : Run ε σ α) >>= f) = fail e := rfl

theorem ofExcept_ok {x : Except ε α} {a : α} (h : ofExcept x s = (.ok a, t)) : t = s := by
  cases x with
  | error e => cases h
  | ok b =>
    cases h
    rfl

theorem mapError_bind {ε' : Type} (g : ε → ε') (x : Run ε σ α) (f : α → Run ε σ β) :
    mapError g (x >>= f) = mapError g x >>= fun a => mapError g (f a) := by
  funext s
  simp only [mapError, bind_apply]
  cases x s with
  | mk r t =>
    cases r with
    | ok a => rfl
    | error e => rfl

theorem bind_ok {x : Run ε σ α} {f : α → Run ε σ β} {b : β}
    (h : (x >>= f) s = (.ok b, t)) : ∃ a u, x s = (.ok a, u) ∧ f a u = (.ok b, t) := by
  rw [bind_apply] at h
  split at h
  · rename_i a u hx
    exact ⟨a, u, hx, h⟩
  · cases h

theorem bind_assoc {γ : Type} (x : Run ε σ α) (f : α → Run ε σ β) (g : β → Run ε σ γ) :
    (x >>= f) >>= g = x >>= fun a => f a >>= g := by
  funext s
  rw [bind_apply, bind_apply, bind_apply]
  cases x s with
  | mk r t =>
    cases r with
    | ok a => rfl
    | error e => rfl

def effect (x : Run ε σ α) : Run ε σ Unit := x >>= fun _ => pure ()

theorem effect_apply (x : Run ε σ α) (s : σ) :
    effect x s = ((x s).1.map fun _ => (), (x s).2) := by
  rw [effect, bind_apply]
  cases x s with
  | mk r t =>
    cases r with
    | ok a => rfl
    | error e => rfl

theorem effect_unit (x : Run ε σ Unit) : effect x = x := by
  funext s
  rw [effect_apply]
  cases x s with
  | mk r t =>
    cases r with
    | ok a => rfl
    | error e => rfl

theorem effect_bind (x : Run ε σ α) (f : α → Run ε σ β) :
    effect (x >>= f) = x >>= fun a => effect (f a) :=
  bind_assoc x f _

theorem effect_bind_const (x : Run ε σ α) (y : Run ε σ β) :
    (effect x >>= fun _ => y) = x >>= fun _ => y :=
  bind_assoc x _ _

end Run

variable {α : Type}

theorem except_ok_bind {ε β : Type} (a : α) (f : α → Except ε β) :
    (Except.ok a >>= f) = f a := rfl

theorem except_bind_ok {ε β : Type} {x : Except ε α} {f : α → Except ε β} {b : β} :
    (x >>= f) = .ok b ↔ ∃ a, x = .ok a ∧ f a = .ok b := by
  cases x with
  | error e => simp [bind, Except.bind]
  | ok a => simp [bind, Except.bind]

theorem except_map_ok {ε β : Type} {x : Except ε α} {f : α → β} {b : β} :
    x.map f = .ok b ↔ ∃ a, x = .ok a ∧ f a = b := by
  cases x with
  | error e => simp [Except.map]
  | ok a => simp [Except.map]

variable {ε σ : Type}

/-- Holds of every return and of a failure with `F`, and is kept by sequencing. -/
structure Compositional (F : ε → Prop) (Q : ∀ {α : Type}, Run ε σ α → Prop) : Prop where
  pure : ∀ {α : Type} (a : α), Q (pure a : Run ε σ α)
  fail : ∀ {α : Type} {e : ε}, F e → Q (Run.fail e : Run ε σ α)
  bind : ∀ {α β : Type} {x : Run ε σ α} {f : α → Run ε σ β},
    Q x → (∀ a, Q (f a)) → Q (x >>= f)

theorem Compositional.mono {F G : ε → Prop} {Q : ∀ {α : Type}, Run ε σ α → Prop}
    (hQ : Compositional G Q) (h : ∀ e, F e → G e) : Compositional F Q :=
  ⟨hQ.pure, fun he => hQ.fail (h _ he), hQ.bind⟩

theorem Compositional.ofExcept {F : ε → Prop} {Q : ∀ {α : Type}, Run ε σ α → Prop}
    (hQ : Compositional F Q) {x : Except ε α} (hx : ∀ e, x = .error e → F e) :
    Q (Run.ofExcept x : Run ε σ α) := by
  cases x with
  | ok a => exact hQ.pure a
  | error e => exact hQ.fail (hx e rfl)

/-- The relation holds between the state before and the state at the end. -/
def Keeps (R : σ → σ → Prop) {α : Type} (x : Run ε σ α) : Prop := ∀ s, R s (x s).2

theorem keeps_compositional {R : σ → σ → Prop} (hr : ∀ s, R s s)
    (ht : ∀ s t u, R s t → R t u → R s u) (F : ε → Prop) :
    Compositional F (@Keeps ε σ R) where
  pure _ s := hr s
  fail _ s := hr s
  bind {_ _ x f} hx hf s := by
    have h := hx s
    rw [Run.bind_apply]
    cases hs : x s with
    | mk r t =>
      rw [hs] at h
      cases r with
      | ok a => exact ht s t _ h (hf a t)
      | error e => exact h

theorem keeps_handle {R : σ → σ → Prop} (ht : ∀ s t u, R s t → R t u → R s u)
    {x : Run ε σ α} {h : ε → Run ε σ α} (hx : Keeps R x) (hh : ∀ e, Keeps R (h e)) :
    Keeps R (Run.handle x h) := by
  intro s
  have hs := hx s
  unfold Run.handle
  cases he : x s with
  | mk r t =>
    rw [he] at hs
    cases r with
    | ok a => exact hs
    | error e => exact ht s t _ hs (hh e t)

def Avoids (P : ε → Prop) {α : Type} (x : Run ε σ α) : Prop := ∀ s e, (x s).1 = .error e → ¬ P e

theorem avoids_compositional (P : ε → Prop) :
    Compositional (fun e => ¬ P e) (@Avoids ε σ P) where
  pure _ _ _ h := by cases h
  fail he _ _ h := by cases h; exact he
  bind {_ _ x f} hx hf s e h := by
    rw [Run.bind_apply] at h
    cases hs : x s with
    | mk r t =>
      rw [hs] at h
      cases r with
      | ok a => exact hf a t e h
      | error e' =>
        cases h
        exact hx s e (by rw [hs])

/-- From `s` it ends with a result of `Q` or with a failure of `F`. -/
def Ends {α : Type} (Q : α → σ → Prop) (F : ε → σ → Prop) (x : Run ε σ α) (s : σ) : Prop :=
  match x s with
  | (.ok a, t) => Q a t
  | (.error e, t) => F e t

variable {α β : Type} {Q : α → σ → Prop} {F : ε → σ → Prop} {s : σ} {x : Run ε σ α}

theorem ends_of_ok {a : α} {t : σ} (h : x s = (.ok a, t)) (hq : Q a t) : Ends Q F x s := by
  rw [Ends, h]
  exact hq

theorem ends_pure {a : α} (h : Q a s) : Ends Q F (pure a : Run ε σ α) s := h

theorem ends_fail {e : ε} (h : F e s) : Ends Q F (Run.fail e : Run ε σ α) s := h

theorem ends_get {f : σ → Run ε σ α} (h : Ends Q F (f s) s) :
    Ends Q F (Run.get >>= f) s := h

theorem ends_modify {f : σ → σ} {g : Unit → Run ε σ α} (h : Ends Q F (g ()) (f s)) :
    Ends Q F (Run.modify f >>= g) s := h

theorem ends_bind_iff {x : Run ε σ β} {f : β → Run ε σ α} :
    Ends Q F (x >>= f) s ↔ Ends (fun b t => Ends Q F (f b) t) F x s := by
  unfold Ends
  rw [Run.bind_apply]
  cases x s with
  | mk r t =>
    cases r with
    | ok b => rfl
    | error e => rfl

theorem ends_handle_iff {h : ε → Run ε σ α} :
    Ends Q F (Run.handle x h) s ↔ Ends Q (fun e t => Ends Q F (h e) t) x s := by
  unfold Ends Run.handle
  cases x s with
  | mk r t =>
    cases r with
    | ok a => rfl
    | error e => rfl

theorem ends_congr {Q' : α → σ → Prop} {F' : ε → σ → Prop}
    (hq : ∀ a t, Q a t ↔ Q' a t) (hf : ∀ e t, F e t ↔ F' e t) :
    Ends Q F x s ↔ Ends Q' F' x s := by
  unfold Ends
  cases x s with
  | mk r t =>
    cases r with
    | ok a => exact hq a t
    | error e => exact hf e t

theorem Ends.imp {Q' : α → σ → Prop} {F' : ε → σ → Prop} (h : Ends Q F x s)
    (hq : ∀ a t, Q a t → Q' a t) (hf : ∀ e t, F e t → F' e t) : Ends Q' F' x s := by
  unfold Ends at h ⊢
  split
  · next a t hs =>
    rw [hs] at h
    exact hq a t h
  · next e t hs =>
    rw [hs] at h
    exact hf e t h

theorem ends_bind {R : β → σ → Prop} {x : Run ε σ β} {f : β → Run ε σ α} (hx : Ends R F x s)
    (hf : ∀ b t, R b t → Ends Q F (f b) t) : Ends Q F (x >>= f) s :=
  ends_bind_iff.mpr (hx.imp hf fun _ _ h => h)

theorem ends_handle {G : ε → σ → Prop} {h : ε → Run ε σ α}
    (hx : Ends Q G x s) (hh : ∀ e t, G e t → Ends Q F (h e) t) :
    Ends Q F (Run.handle x h) s :=
  ends_handle_iff.mpr (hx.imp (fun _ _ h => h) hh)

theorem ends_of_keeps {R : σ → σ → Prop} (hx : Keeps R x)
    (hf : ∀ e t, R s t → F e t) : Ends (fun _ t => R s t) F x s := by
  have h := hx s
  unfold Ends
  cases hs : x s with
  | mk r t =>
    rw [hs] at h
    cases r with
    | ok a => exact h
    | error e => exact hf e t h

theorem Ends.ok (h : Ends Q (fun _ _ => False) x s) : ∃ a t, x s = (.ok a, t) ∧ Q a t := by
  rw [Ends] at h
  split at h
  · next a t hs => exact ⟨a, t, hs, h⟩
  · exact h.elim

end FallibleRuns
