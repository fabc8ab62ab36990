import Rtorrent.CommandScheduler

/-! # Clearing the download list

A download is what its parts do at each attempt to close it. The list is kept from its back, where
`clear` works. -/
namespace DownloadListClear

open CommandScheduler (int32)

inductive Exception where
  | localError (what : String)
  | internalError (what : String)
  deriving DecidableEq, Repr

/-- What the calls of `close_throw` raise and return at one attempt. -/
structure Attempt where
  pauseBody : Option Exception
  isOpen : Bool
  close : Option Exception
  isHashFailed : Bool
  hashing : Except Exception ℤ
  eventHashRemoved : Option Exception
  eventClosed : Option Exception

structure Download where
  attempts : ℕ → Attempt
  remove : Option Exception

def variableHashingStopped : ℤ := 0

def raise : Option Exception → Except Exception Unit
  | none => .ok ()
  | some e => .error e

def catchLocal : Except Exception Unit → Except Exception Unit
  | .error (.localError _) => .ok ()
  | r => r

def pause (a : Attempt) : Except Exception Unit := catchLocal (raise a.pauseBody)

def checkHashingLoop (a : Attempt) : Except Exception Unit :=
  if a.isHashFailed then .ok ()
  else do
    let hashing ← a.hashing
    if hashing ≠ variableHashingStopped then
      .error (.internalError
        "DownloadList::close_throw(...) called but we're going into a hashing loop.")
    else .ok ()

def closeThrow (a : Attempt) : Except Exception Unit := do
  pause a
  if ¬a.isOpen then .ok ()
  else do
    raise a.close
    checkHashingLoop a
    raise a.eventHashRemoved
    raise a.eventClosed

def close (a : Attempt) : Except Exception Unit := catchLocal (closeThrow a)

/-- `attempt` counts the attempts on the download at the back, `raised` holds what was caught. -/
structure ClearState where
  list : List Download
  attempt : ℕ
  errorCount : ℤ
  raised : List Exception

def ClearState.caught (s : ClearState) (e : Exception) : ClearState :=
  { s with errorCount := int32 (s.errorCount + 1), raised := s.raised ++ [e] }

inductive Outcome where
  | returned
  | threw (e : Exception)
  deriving DecidableEq, Repr

def finish (s : ClearState) : Outcome :=
  if s.errorCount > 0 then
    .threw (.internalError ("DownloadList::clear() failed to close or remove " ++
      toString s.errorCount ++ " downloads."))
  else .returned

/-- The loop of `clear` for a number of turns. Only `internal_error` is caught. -/
def clearLoop : ℕ → ClearState → Option (ClearState × Outcome)
  | 0, _ => none
  | turns + 1, s =>
    match s.list with
    | [] => some (s, finish s)
    | download :: rest =>
      match close (download.attempts s.attempt) with
      | .error (.internalError what) =>
        clearLoop turns { s.caught (.internalError what) with attempt := s.attempt + 1 }
      | .error e => some (s, .threw e)
      | .ok () =>
        let popped := { s with list := rest, attempt := 0 }
        match download.remove with
        | none => clearLoop turns popped
        | some (.internalError what) => clearLoop turns (popped.caught (.internalError what))
        | some e => some (popped, .threw e)

def clear (turns : ℕ) (list : List Download) : Option (ClearState × Outcome) :=
  clearLoop turns ⟨list, 0, 0, []⟩

theorem close_cases (a : Attempt) :
    close a = .ok () ∨ ∃ what, close a = .error (.internalError what) := by
  unfold close
  cases closeThrow a with
  | ok _ => exact .inl rfl
  | error e =>
    cases e with
    | localError what => exact .inl rfl
    | internalError what => exact .inr ⟨what, rfl⟩

def Download.Closes (d : Download) (n : ℕ) : Prop := close (d.attempts n) = .ok ()

/-- The attempts from `first` on fail `k` times before one of them succeeds. -/
def Download.FailsTimes (d : Download) (first k : ℕ) : Prop :=
  (∀ i < k, ¬d.Closes (first + i)) ∧ d.Closes (first + k)

def Download.RemovesInternally (d : Download) : Prop :=
  ∀ e, d.remove = some e → ∃ what, e = .internalError what

def Download.removalFailures (d : Download) : ℕ := if d.remove.isSome then 1 else 0

def FailureCount : ℕ → List Download → ℕ → Prop
  | _, [], count => count = 0
  | first, d :: rest, count =>
    ∃ k n, d.FailsTimes first k ∧ FailureCount 0 rest n ∧ count = k + d.removalFailures + n

def ClearState.Counted (s : ClearState) : Prop := s.errorCount = int32 s.raised.length

theorem ClearState.Counted.caught {s : ClearState} (h : s.Counted) (e : Exception) :
    (s.caught e).Counted := by
  simp only [ClearState.Counted, ClearState.caught, List.length_append, List.length_singleton]
  rw [h, int32, int32, Int.bmod_add_bmod]
  rfl

section

variable {s t : ClearState} {turns : ℕ} {o : Outcome} {d : Download} {rest : List Download}

theorem clearLoop_nil (h : s.list = []) : clearLoop (turns + 1) s = some (s, finish s) := by
  rw [clearLoop, h]

theorem clearLoop_fails (hl : s.list = d :: rest) (h : ¬d.Closes s.attempt) :
    ∃ e, ∀ turns, clearLoop (turns + 1) s =
      clearLoop turns { s.caught e with attempt := s.attempt + 1 } := by
  rcases close_cases (d.attempts s.attempt) with hok | ⟨what, hf⟩
  · exact absurd hok h
  · refine ⟨.internalError what, fun turns => ?_⟩
    rw [clearLoop, hl]
    simp only [hf]

theorem clearLoop_closes (hl : s.list = d :: rest) (h : d.Closes s.attempt)
    (hr : d.RemovesInternally) :
    ∃ u : ClearState, u.list = rest ∧ u.attempt = 0 ∧
      u.raised.length = s.raised.length + d.removalFailures ∧ (s.Counted → u.Counted) ∧
      ∀ turns, clearLoop (turns + 1) s = clearLoop turns u := by
  have hstep : ∀ turns, clearLoop (turns + 1) s = match d.remove with
      | none => clearLoop turns { s with list := rest, attempt := 0 }
      | some (.internalError what) =>
        clearLoop turns (({ s with list := rest, attempt := 0 } : ClearState).caught
          (.internalError what))
      | some e => some ({ s with list := rest, attempt := 0 }, .threw e) := by
    intro turns
    rw [clearLoop, hl]
    unfold Download.Closes at h
    simp only [h]
  cases he : d.remove with
  | none =>
    simp only [he] at hstep
    exact ⟨{ s with list := rest, attempt := 0 }, rfl, rfl,
      by simp [Download.removalFailures, he], fun hc => hc, hstep⟩
  | some e =>
    obtain ⟨what, rfl⟩ := hr e he
    simp only [he] at hstep
    refine ⟨_, rfl, rfl, ?_, fun hc => ?_, hstep⟩
    · simp [Download.removalFailures, he, ClearState.caught]
    · exact ClearState.Counted.caught hc _

theorem failsTimes_succ {first k : ℕ} :
    d.FailsTimes first (k + 1) ↔ ¬d.Closes first ∧ d.FailsTimes (first + 1) k := by
  constructor
  · rintro ⟨hf, hc⟩
    refine ⟨hf 0 (Nat.succ_pos k), fun i hi => ?_, ?_⟩
    · have h := hf (i + 1) (Nat.succ_lt_succ hi)
      rwa [Nat.add_assoc, Nat.add_comm 1 i]
    · rwa [Nat.add_assoc, Nat.add_comm 1 k]
  · rintro ⟨h0, hf, hc⟩
    refine ⟨fun i hi => ?_, ?_⟩
    · cases i with
      | zero => exact h0
      | succ i =>
        have h := hf i (Nat.lt_of_succ_lt_succ hi)
        rwa [Nat.add_assoc, Nat.add_comm 1 i] at h
    · rwa [Nat.add_assoc, Nat.add_comm 1 k] at hc

theorem clearLoop_some (hr : ∀ d ∈ s.list, d.RemovesInternally)
    (h : clearLoop turns s = some (t, o)) :
    ∃ n, FailureCount s.attempt s.list n ∧ t.list = [] ∧
      t.raised.length = s.raised.length + n ∧ (s.Counted → t.Counted) ∧ o = finish t := by
  induction turns generalizing s with
  | zero => cases h
  | succ turns ih =>
    cases hl : s.list with
    | nil =>
      rw [clearLoop_nil hl] at h
      cases h
      exact ⟨0, rfl, hl, rfl, id, rfl⟩
    | cons d rest =>
      rw [hl, List.forall_mem_cons] at hr
      by_cases hc : d.Closes s.attempt
      · obtain ⟨u, hul, hua, hur, huc, hstep⟩ := clearLoop_closes hl hc hr.1
        rw [hstep turns] at h
        obtain ⟨n, hn, htl, htr, htc, ho⟩ := ih (by rw [hul]; exact hr.2) h
        rw [hul, hua] at hn
        refine ⟨0 + d.removalFailures + n, ⟨0, n, ⟨?_, hc⟩, hn, rfl⟩, htl, ?_, htc ∘ huc, ho⟩
        · exact fun i hi => absurd hi (Nat.not_lt_zero i)
        · omega
      · obtain ⟨e, hstep⟩ := clearLoop_fails hl hc
        rw [hstep] at h
        have hl' : ({ s.caught e with attempt := s.attempt + 1 } : ClearState).list = d :: rest :=
          hl
        obtain ⟨n, hn, htl, htr, htc, ho⟩ := ih (by rw [hl', List.forall_mem_cons]; exact hr) h
        rw [hl'] at hn
        obtain ⟨k, m, hk, hm, rfl⟩ := hn
        refine ⟨k + 1 + d.removalFailures + m,
          ⟨k + 1, m, failsTimes_succ.mpr ⟨hc, hk⟩, hm, rfl⟩, htl, ?_,
          fun hs => htc (hs.caught e), ho⟩
        rw [htr]
        simp only [ClearState.caught, List.length_append, List.length_singleton]
        omega

theorem clearLoop_ends {n : ℕ} (hr : ∀ d ∈ s.list, d.RemovesInternally)
    (h : FailureCount s.attempt s.list n) : ∃ turns t o, clearLoop turns s = some (t, o) := by
  obtain ⟨l, hl⟩ : ∃ l, s.list = l := ⟨_, rfl⟩
  rw [hl] at h hr
  induction l generalizing s n with
  | nil => exact ⟨1, s, finish s, clearLoop_nil hl⟩
  | cons d rest ih =>
    obtain ⟨k, m, hk, hm, -⟩ := h
    rw [List.forall_mem_cons] at hr
    induction k generalizing s with
    | zero =>
      obtain ⟨u, hul, hua, -, -, hstep⟩ := clearLoop_closes hl hk.2 hr.1
      rw [← hua] at hm
      obtain ⟨turns, t, o, h⟩ := ih hr.2 hm hul
      exact ⟨turns + 1, t, o, (hstep turns).trans h⟩
    | succ k ihk =>
      rw [failsTimes_succ] at hk
      obtain ⟨e, hstep⟩ := clearLoop_fails hl hk.1
      obtain ⟨turns, t, o, h⟩ := @ihk { s.caught e with attempt := s.attempt + 1 } hl hk.2
      exact ⟨turns + 1, t, o, (hstep turns).trans h⟩

end

theorem failsTimes_unique {d : Download} {first k m : ℕ} (hk : d.FailsTimes first k)
    (hm : d.FailsTimes first m) : k = m := by
  rcases Nat.lt_trichotomy k m with h | h | h
  · exact absurd hk.2 (hm.1 k h)
  · exact h
  · exact absurd hm.2 (hk.1 m h)

theorem failureCount_unique {list : List Download} {first n m : ℕ}
    (hn : FailureCount first list n) (hm : FailureCount first list m) : n = m := by
  induction list generalizing first n m with
  | nil => exact hn.trans hm.symm
  | cons d rest ih =>
    obtain ⟨k, n, hk, hn, rfl⟩ := hn
    obtain ⟨k', m, hk', hm, rfl⟩ := hm
    rw [failsTimes_unique hk hk', ih hn hm]

/-- The list is empty in the end, and `clear` throws if anything failed and only then. -/
def Clears (list : List Download) : Prop :=
  ∃ turns s o, clear turns list = some (s, o) ∧ s.list = [] ∧
    ((∃ what, o = .threw (.internalError what)) ↔ s.raised ≠ [])

theorem finish_threw_iff (s : ClearState) :
    (∃ what, finish s = .threw (.internalError what)) ↔ s.errorCount > 0 := by
  unfold finish
  split
  · rename_i h
    exact iff_of_true ⟨_, rfl⟩ h
  · rename_i h
    refine iff_of_false ?_ h
    rintro ⟨what, hw⟩
    cases hw

theorem clears_iff {list : List Download} (hr : ∀ d ∈ list, d.RemovesInternally) :
    Clears list ↔ ∃ n : ℕ, FailureCount 0 list n ∧ (0 < n → 0 < int32 n) := by
  have hzero : int32 0 = 0 := by decide
  have hlast : ∀ {turns s o}, clear turns list = some (s, o) →
      ∃ n : ℕ, FailureCount 0 list n ∧ s.list = [] ∧ s.raised.length = n ∧
        ((∃ what, o = .threw (.internalError what)) ↔ 0 < int32 n) := by
    intro turns s o h
    obtain ⟨n, hn, hl, hlen, hc, rfl⟩ := clearLoop_some hr h
    simp only [List.length_nil, Nat.zero_add] at hlen
    have hcount : s.errorCount = int32 n := by
      rw [← hlen]
      exact hc hzero.symm
    exact ⟨n, hn, hl, hlen, by rw [finish_threw_iff, hcount]⟩
  constructor
  · rintro ⟨turns, s, o, h, -, hiff⟩
    obtain ⟨n, hn, -, hlen, ho⟩ := hlast h
    refine ⟨n, hn, fun hpos => ho.mp (hiff.mpr ?_)⟩
    rw [← List.length_pos_iff, hlen]
    exact hpos
  · rintro ⟨n, hn, hpos⟩
    obtain ⟨turns, s, o, h⟩ := @clearLoop_ends ⟨list, 0, 0, []⟩ n hr hn
    obtain ⟨m, hm, hl, hlen, ho⟩ := hlast h
    rw [failureCount_unique hm hn] at hlen ho
    refine ⟨turns, s, o, h, hl, ho.trans ?_⟩
    rw [← List.length_pos_iff, hlen]
    refine ⟨fun hi => Nat.pos_of_ne_zero ?_, hpos⟩
    rintro rfl
    exact absurd hi (by decide)

def quiet : Attempt := ⟨none, true, none, true, .ok 0, none, none⟩

def reluctant (refusals : ℕ) : Download where
  attempts n := if n < refusals then { quiet with close := some (.internalError "busy") } else quiet
  remove := some (.internalError "unknown")

theorem clears_iff_reluctant : Clears [reluctant 2, reluctant 0] := by
  have hr : ∀ d ∈ [reluctant 2, reluctant 0], d.RemovesInternally := by
    intro d hd e he
    simp only [List.mem_cons, List.not_mem_nil, or_false] at hd
    rcases hd with rfl | rfl <;> exact ⟨"unknown", (Option.some.inj he).symm⟩
  refine (clears_iff hr).mpr ⟨4, ⟨2, 1, ⟨?_, rfl⟩, ⟨0, 0, ⟨?_, rfl⟩, rfl, rfl⟩, rfl⟩, by decide⟩
  · intro i hi h
    obtain rfl | rfl : i = 0 ∨ i = 1 := by omega
    · cases h
    · cases h
  · exact fun i hi => absurd hi (Nat.not_lt_zero i)

def stuck : Download where
  attempts _ := { quiet with close := some (.internalError "busy") }
  remove := none

theorem clearLoop_stuck {s : ClearState} (h : s.list = [stuck]) (turns : ℕ) :
    clearLoop turns s = none := by
  induction turns generalizing s with
  | zero => rfl
  | succ turns ih =>
    obtain ⟨e, hstep⟩ := clearLoop_fails h fun hc => by cases hc
    rw [hstep turns]
    exact ih h

/-- The download stays at the back of the list and is tried again without end. -/
theorem clear_never_ends :
    (∀ turns, clear turns [stuck] = none) ∧ ¬Clears [stuck] := by
  have hnever : ∀ turns, clear turns [stuck] = none := fun turns => clearLoop_stuck rfl turns
  refine ⟨hnever, ?_⟩
  rintro ⟨turns, s, o, hclear, -⟩
  rw [hnever] at hclear
  cases hclear

end DownloadListClear
