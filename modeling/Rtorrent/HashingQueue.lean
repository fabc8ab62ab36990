import Rtorrent.DownloadListClear

/-! # The hashing queue

`receive_hashing_changed` goes once through the hashing view. A download carries the answers of
the library. -/
namespace HashingQueue

open FallibleRuns
open DownloadListClear (Exception)

def variableHashingInitial : ℤ := 1
def variableHashingRehash : ℤ := 3

/-- What the calls for a download raise and return. An `input_error` of the event is caught
inside. -/
structure Answers where
  fileAllocate : Option Exception
  openFiles : Option Exception
  bitfieldEmptyOpened : Bool
  eventOpened : Option Exception
  resumeLoadProgress : Option Exception
  quickCheck : Except Exception Bool
  hashStop : Option Exception
  fullCheck : Option Exception

structure Download where
  isHashChecked : Bool
  isHashChecking : Bool
  isHashFailed : Bool
  hashing : ℤ
  isOpen : Bool
  bitfieldEmpty : Bool
  message : String
  answers : Answers

inductive Action where
  | openTried
  | resumeTried
  | quickTried
  | quickFailed
  | stopTried
  | fullTried
  | fullStarted
  deriving DecidableEq, Repr

structure Visit where
  before : Download
  download : Download
  foundHashing : Bool
  actions : List Action

abbrev VisitRun (α : Type) := Run Exception Visit α

def note (action : Action) : VisitRun Unit :=
  Run.modify fun v => { v with actions := v.actions ++ [action] }

def update (f : Download → Download) : VisitRun Unit :=
  Run.modify fun v => { v with download := f v.download }

def raise : Option Exception → VisitRun Unit
  | none => pure ()
  | some e => Run.fail e

def openThrow (answers : Answers) : VisitRun Unit := do
  let v ← Run.get
  if v.download.isOpen then pure ()
  else do
    raise answers.fileAllocate
    note .openTried
    raise answers.openFiles
    update fun d => { d with isOpen := true, bitfieldEmpty := answers.bitfieldEmptyOpened }
    raise answers.eventOpened

def resumeLoadProgress (answers : Answers) : VisitRun Unit := do
  note .resumeTried
  raise answers.resumeLoadProgress

def hashCheckQuick (answers : Answers) : VisitRun Bool := do
  note .quickTried
  match answers.quickCheck with
  | .ok true => pure true
  | .ok false => do
    note .quickFailed
    pure false
  | .error e => do
    note .quickFailed
    Run.fail e

def hashStop (answers : Answers) : VisitRun Unit := do
  note .stopTried
  raise answers.hashStop

def setHashing (value : ℤ) : VisitRun Unit := update fun d => { d with hashing := value }

def hashCheckFull (answers : Answers) : VisitRun Unit := do
  note .fullTried
  raise answers.fullCheck
  note .fullStarted
  Run.modify fun v =>
    { v with download := { v.download with isHashChecking := true }, foundHashing := true }

def prepare (answers : Answers) : VisitRun Unit := do
  openThrow answers
  let v ← Run.get
  if v.download.bitfieldEmpty then resumeLoadProgress answers else pure ()

def startChecks (answers : Answers) (tryQuick : Bool) : VisitRun Unit := do
  prepare answers
  if tryQuick then do
    let succeeded ← hashCheckQuick answers
    if succeeded then pure ()
    else do
      hashStop answers
      let v ← Run.get
      if v.foundHashing then setHashing variableHashingRehash else hashCheckFull answers
  else hashCheckFull answers

def onLocalError (tryQuick : Bool) (what : String) : VisitRun Unit :=
  if tryQuick then setHashing variableHashingRehash
  else update fun d => { d with isHashFailed := true, message := "Hashing failed: " ++ what }

def visitDownload : VisitRun Unit := do
  let v ← Run.get
  let d := v.download
  if d.isHashChecked then
    Run.fail (.internalError "core::Manager::receive_hashing_changed() (*itr)->is_hash_checked().")
  else if d.isHashChecking || d.isHashFailed then pure ()
  else
    let tryQuick := d.hashing == variableHashingInitial && d.bitfieldEmpty
    if !tryQuick && v.foundHashing then pure ()
    else Run.handle (startChecks d.answers tryQuick) fun
      | .localError what => onLocalError tryQuick what
      | e => Run.fail e

def visitAll : Bool → List Download → List Visit × Option Exception
  | _, [] => ([], none)
  | foundHashing, d :: ds =>
    match visitDownload ⟨d, d, foundHashing, []⟩ with
    | (.error e, v) => ([v], some e)
    | (.ok (), v) => (v :: (visitAll v.foundHashing ds).1, (visitAll v.foundHashing ds).2)

/-- The turns that were made, and the exception that ended them. -/
def receiveHashingChanged (visible : List Download) : List Visit × Option Exception :=
  visitAll (visible.any (·.isHashChecking)) visible

def Visit.fullStarts (v : Visit) : ℕ := v.actions.count .fullStarted

def Quiet (v w : Visit) : Prop :=
  w.before = v.before ∧ w.foundHashing = v.foundHashing ∧ w.fullStarts = v.fullStarts

def NoQuick (v w : Visit) : Prop :=
  Quiet v w ∧ (.quickFailed ∈ w.actions → .quickFailed ∈ v.actions)

variable {u v : Visit}

theorem quiet_trans {w : Visit} (h : Quiet u v) (h' : Quiet v w) : Quiet u w :=
  ⟨h'.1.trans h.1, h'.2.1.trans h.2.1, h'.2.2.trans h.2.2⟩

theorem quiet_compositional :
    Compositional (fun _ : Exception => True) (@Keeps Exception Visit Quiet) :=
  keeps_compositional (R := Quiet) (fun _ => ⟨rfl, rfl, rfl⟩) (fun _ _ _ => quiet_trans) _

theorem noQuick_compositional :
    Compositional (fun _ : Exception => True) (@Keeps Exception Visit NoQuick) :=
  keeps_compositional (fun _ => ⟨⟨rfl, rfl, rfl⟩, id⟩)
    (fun _ _ _ h h' => ⟨quiet_trans h.1 h'.1, h.2 ∘ h'.2⟩) _

section

variable {Q : ∀ {α : Type}, VisitRun α → Prop} {action : Action}

theorem note_quiet (h : action ≠ .fullStarted) : Keeps Quiet (note action) := by
  intro v
  refine ⟨rfl, rfl, ?_⟩
  simp [Visit.fullStarts, note, Run.modify, List.count_append, h]

theorem note_noQuick (h : action ≠ .fullStarted) (hq : action ≠ .quickFailed) :
    Keeps NoQuick (note action) := by
  intro v
  refine ⟨note_quiet h v, fun hm => ?_⟩
  rcases List.mem_append.mp hm with hm | hm
  · exact hm
  · exact absurd (List.mem_singleton.mp hm).symm hq

theorem update_noQuick (f : Download → Download) : Keeps NoQuick (update f) :=
  fun _ => ⟨⟨rfl, rfl, rfl⟩, id⟩

theorem raise_keeps (hQ : Compositional (fun _ => True) @Q) (e : Option Exception) :
    Q (raise e) := by
  cases e with
  | none => exact hQ.pure ()
  | some e => exact hQ.fail trivial

theorem get_noQuick : Keeps NoQuick (Run.get : VisitRun Visit) := fun _ => ⟨⟨rfl, rfl, rfl⟩, id⟩

end

theorem prepare_noQuick (answers : Answers) : Keeps NoQuick (prepare answers) := by
  have hC := noQuick_compositional
  have hopen : Keeps NoQuick (openThrow answers) := by
    refine hC.bind get_noQuick fun v => ?_
    split
    · exact hC.pure ()
    · refine hC.bind (raise_keeps hC _) fun _ => ?_
      refine hC.bind (note_noQuick (by decide) (by decide)) fun _ => ?_
      refine hC.bind (raise_keeps hC _) fun _ => ?_
      exact hC.bind (update_noQuick _) fun _ => raise_keeps hC _
  refine hC.bind hopen fun _ => hC.bind get_noQuick fun v => ?_
  split
  · exact hC.bind (note_noQuick (by decide) (by decide)) fun _ => raise_keeps hC _
  · exact hC.pure ()

theorem hashCheckQuick_quiet (answers : Answers) : Keeps Quiet (hashCheckQuick answers) := by
  have hC := quiet_compositional
  refine hC.bind (note_quiet (by decide)) fun _ => ?_
  split
  · exact hC.pure true
  · exact hC.bind (note_quiet (by decide)) fun _ => hC.pure false
  · exact hC.bind (note_quiet (by decide)) fun _ => hC.fail trivial

theorem hashStop_quiet (answers : Answers) : Keeps Quiet (hashStop answers) :=
  quiet_compositional.bind (note_quiet (by decide)) fun _ => raise_keeps quiet_compositional _

/-- A turn without a full check leaves no failed quick check behind, and a full check starts only
while none was found. -/
def Done (v w : Visit) : Prop :=
  Quiet v w ∧ (.quickFailed ∈ w.actions → w.download.hashing ≠ variableHashingInitial) ∨
    w.before = v.before ∧ v.foundHashing = false ∧ w.foundHashing = true ∧
      w.fullStarts = v.fullStarts + 1

variable {answers : Answers}

theorem hashCheckFull_ends (h : Quiet v u) (hf : v.foundHashing = false) :
    Ends (fun _ w => Done v w) (fun _ w => NoQuick u w) (hashCheckFull answers) u := by
  cases ha : answers.fullCheck with
  | none =>
    have hx : hashCheckFull answers u = (.ok (), { u with
        download := { u.download with isHashChecking := true }
        foundHashing := true
        actions := u.actions ++ [.fullTried] ++ [.fullStarted] }) := by
      rw [hashCheckFull, ha]
      rfl
    refine ends_of_ok hx (.inr ⟨h.1, hf, rfl, ?_⟩)
    rw [← h.2.2]
    simp [Visit.fullStarts, List.count_append]
  | some e =>
    have hx : hashCheckFull answers u =
        (.error e, { u with actions := u.actions ++ [.fullTried] }) := by
      rw [hashCheckFull, ha]
      rfl
    rw [Ends, hx]
    exact note_noQuick (by decide) (by decide) u

theorem hashCheckQuick_ends (answers : Answers) (h : .quickFailed ∉ u.actions) :
    Ends (fun succeeded w => Quiet u w ∧ (succeeded = true → .quickFailed ∉ w.actions))
      (fun _ w => Quiet u w) (hashCheckQuick answers) u := by
  have hq := hashCheckQuick_quiet answers u
  cases ha : answers.quickCheck with
  | error e =>
    have hx : hashCheckQuick answers u =
        (.error e, { u with actions := u.actions ++ [.quickTried] ++ [.quickFailed] }) := by
      rw [hashCheckQuick, ha]
      rfl
    rw [hx] at hq
    rw [Ends, hx]
    exact hq
  | ok succeeded =>
    cases succeeded with
    | true =>
      have hx : hashCheckQuick answers u =
          (.ok true, { u with actions := u.actions ++ [.quickTried] }) := by
        rw [hashCheckQuick, ha]
        rfl
      rw [hx] at hq
      refine ends_of_ok hx ⟨hq, fun _ hm => ?_⟩
      exact h ((List.mem_append.mp hm).resolve_right (by decide))
    | false =>
      have hx : hashCheckQuick answers u =
          (.ok false, { u with actions := u.actions ++ [.quickTried] ++ [.quickFailed] }) := by
        rw [hashCheckQuick, ha]
        rfl
      rw [hx] at hq
      exact ends_of_ok hx ⟨hq, fun hb => by cases hb⟩

theorem setHashing_done (h : Quiet v u) :
    Ends (fun _ w => Done v w) (fun _ _ => False) (setHashing variableHashingRehash) u := by
  refine ends_of_ok rfl (.inl ⟨quiet_trans h ⟨rfl, rfl, rfl⟩, fun _ => ?_⟩)
  change variableHashingRehash ≠ variableHashingInitial
  decide

theorem startChecks_ends (answers : Answers) {tryQuick : Bool}
    (ha : .quickFailed ∉ v.actions) (hf : tryQuick = false → v.foundHashing = false) :
    Ends (fun _ w => Done v w)
      (fun _ w => Quiet v w ∧ (tryQuick = false → .quickFailed ∉ w.actions))
      (startChecks answers tryQuick) v := by
  refine ends_bind (R := fun _ u => NoQuick v u) (ends_of_keeps (prepare_noQuick answers)
    fun _ w h => ⟨h.1, fun _ hm => ha (h.2 hm)⟩) fun _ u hu => ?_
  have hnone : .quickFailed ∉ u.actions := fun hm => ha (hu.2 hm)
  cases tryQuick with
  | false =>
    refine (hashCheckFull_ends hu.1 (hf rfl)).imp (fun _ _ h => h) fun _ w hw => ?_
    exact ⟨quiet_trans hu.1 hw.1, fun _ hm => hnone (hw.2 hm)⟩
  | true =>
    have hfail : ∀ {w : Visit}, Quiet v w →
        Quiet v w ∧ (true = false → .quickFailed ∉ w.actions) := fun h => ⟨h, fun h => by cases h⟩
    refine ends_bind ((hashCheckQuick_ends answers hnone).imp (fun _ _ h => h)
      fun _ w hw => hfail (quiet_trans hu.1 hw)) fun succeeded w hw => ?_
    have hquiet := quiet_trans hu.1 hw.1
    cases succeeded with
    | true => exact ends_pure (.inl ⟨hquiet, fun hm => absurd hm (hw.2 rfl)⟩)
    | false =>
      refine ends_bind (R := fun _ x => Quiet w x) (ends_of_keeps (hashStop_quiet answers)
        fun _ x h => hfail (quiet_trans hquiet h)) fun _ x hx => ends_get ?_
      have hquiet := quiet_trans hquiet hx
      by_cases hfound : x.foundHashing = true
      · rw [if_pos hfound]
        exact (setHashing_done hquiet).imp (fun _ _ h => h) fun _ _ h => h.elim
      · rw [if_neg hfound]
        have hf : v.foundHashing = false := hquiet.2.1.symm.trans (Bool.of_not_eq_true hfound)
        exact (hashCheckFull_ends hquiet hf).imp (fun _ _ h => h) fun _ _ h =>
          hfail (quiet_trans hquiet h.1)

theorem visitDownload_ends (ha : v.actions = []) :
    Ends (fun _ w => Done v w) (fun _ w => Quiet v w) visitDownload v := by
  have hnone : .quickFailed ∉ v.actions := by simp [ha]
  have hskip : Done v v := .inl ⟨⟨rfl, rfl, rfl⟩, fun h => absurd h hnone⟩
  refine ends_get ?_
  by_cases hchecked : v.download.isHashChecked = true
  · rw [if_pos hchecked]
    exact ends_fail ⟨rfl, rfl, rfl⟩
  rw [if_neg hchecked]
  by_cases hbusy : (v.download.isHashChecking || v.download.isHashFailed) = true
  · rw [if_pos hbusy]
    exact ends_pure hskip
  rw [if_neg hbusy]
  dsimp only
  by_cases hwait : (!(v.download.hashing == variableHashingInitial && v.download.bitfieldEmpty) &&
      v.foundHashing) = true
  · rw [if_pos hwait]
    exact ends_pure hskip
  rw [if_neg hwait]
  refine ends_handle (startChecks_ends v.download.answers hnone ?_) fun e t ht => ?_
  · intro hquick
    rw [hquick, Bool.not_false, Bool.true_and] at hwait
    exact Bool.of_not_eq_true hwait
  · cases e with
    | internalError what => exact ends_fail ht.1
    | localError what =>
      dsimp only [onLocalError]
      split
      · exact (setHashing_done ht.1).imp (fun _ _ h => h) fun _ _ h => h.elim
      · rename_i hquick
        refine ends_of_ok rfl (.inl ⟨quiet_trans ht.1 ⟨rfl, rfl, rfl⟩, fun hm => ?_⟩)
        exact absurd hm (ht.2 (Bool.of_not_eq_true hquick))

theorem visitDownload_skips
    (h : v.download.isHashChecking = true ∨ v.download.isHashFailed = true) :
    (visitDownload v).2 = v := by
  simp only [visitDownload, Run.bind_apply, Run.get]
  split
  · rfl
  · rw [if_pos (by simpa using h)]
    rfl

def IsInternal (e : Exception) : Prop := ∃ what, e = .internalError what

/-- Whatever the library raises for the download is a `local_error`. -/
structure Answers.OnlyLocal (answers : Answers) : Prop where
  fileAllocate : ∀ e, answers.fileAllocate = some e → ¬IsInternal e
  openFiles : ∀ e, answers.openFiles = some e → ¬IsInternal e
  eventOpened : ∀ e, answers.eventOpened = some e → ¬IsInternal e
  resumeLoadProgress : ∀ e, answers.resumeLoadProgress = some e → ¬IsInternal e
  quickCheck : ∀ e, answers.quickCheck = .error e → ¬IsInternal e
  hashStop : ∀ e, answers.hashStop = some e → ¬IsInternal e
  fullCheck : ∀ e, answers.fullCheck = some e → ¬IsInternal e

theorem raise_avoids {e : Option Exception} (h : ∀ x, e = some x → ¬IsInternal x) :
    Avoids IsInternal (raise e) := by
  cases e with
  | none => exact (avoids_compositional IsInternal).pure ()
  | some e => exact (avoids_compositional IsInternal).fail (h e rfl)

theorem modify_avoids (f : Visit → Visit) :
    Avoids IsInternal (Run.modify f : VisitRun Unit) := by
  intro v e h
  cases h

theorem get_avoids : Avoids IsInternal (Run.get : VisitRun Visit) := by
  intro v e h
  cases h

theorem startChecks_avoids (h : answers.OnlyLocal) (tryQuick : Bool) :
    Avoids IsInternal (startChecks answers tryQuick) := by
  have hC := avoids_compositional (σ := Visit) IsInternal
  have hopen : Avoids IsInternal (openThrow answers) := by
    refine hC.bind get_avoids fun v => ?_
    split
    · exact hC.pure ()
    · refine hC.bind (raise_avoids h.fileAllocate) fun _ => hC.bind (modify_avoids _) fun _ => ?_
      refine hC.bind (raise_avoids h.openFiles) fun _ => hC.bind (modify_avoids _) fun _ => ?_
      exact raise_avoids h.eventOpened
  have hprepare : Avoids IsInternal (prepare answers) := by
    refine hC.bind hopen fun _ => hC.bind get_avoids fun v => ?_
    split
    · exact hC.bind (modify_avoids _) fun _ => raise_avoids h.resumeLoadProgress
    · exact hC.pure ()
  have hquick : Avoids IsInternal (hashCheckQuick answers) := by
    refine hC.bind (modify_avoids _) fun _ => ?_
    split
    · exact hC.pure true
    · exact hC.bind (modify_avoids _) fun _ => hC.pure false
    · rename_i e he
      exact hC.bind (modify_avoids _) fun _ => hC.fail (h.quickCheck e he)
  have hfull : Avoids IsInternal (hashCheckFull answers) := by
    refine hC.bind (modify_avoids _) fun _ => hC.bind (raise_avoids h.fullCheck) fun _ => ?_
    exact hC.bind (modify_avoids _) fun _ => modify_avoids _
  refine hC.bind hprepare fun _ => ?_
  cases tryQuick with
  | false => exact hfull
  | true =>
    refine hC.bind hquick fun succeeded => ?_
    cases succeeded with
    | true => exact hC.pure ()
    | false =>
      refine hC.bind (hC.bind (modify_avoids _) fun _ => raise_avoids h.hashStop) fun _ => ?_
      refine hC.bind get_avoids fun v => ?_
      split
      · exact modify_avoids _
      · exact hfull

theorem visitDownload_returns (hc : v.download.isHashChecked = false)
    (h : v.download.answers.OnlyLocal) : (visitDownload v).1 = .ok () := by
  simp only [visitDownload, Run.bind_apply, Run.get, hc, Bool.false_eq_true, if_false]
  split
  · rfl
  split
  · rfl
  · have ha := startChecks_avoids h
      (v.download.hashing == variableHashingInitial && v.download.bitfieldEmpty) v
    unfold Run.handle
    split
    · rfl
    · rename_i e t he
      rw [he] at ha
      cases e with
      | internalError what => exact absurd ⟨what, rfl⟩ (ha _ rfl)
      | localError what =>
        dsimp only [onLocalError]
        split <;> rfl

def fullStarts (visits : List Visit) : ℕ := (visits.flatMap (·.actions)).count .fullStarted

theorem fullStarts_cons (v : Visit) (visits : List Visit) :
    fullStarts (v :: visits) = v.fullStarts + fullStarts visits := by
  rw [fullStarts, List.flatMap_cons, List.count_append]
  rfl

theorem visitAll_induction {P : Bool → List Download → List Visit → Option Exception → Prop}
    (nil : ∀ found, P found [] [] none)
    (stop : ∀ found d ds v e, visitDownload ⟨d, d, found, []⟩ = (.error e, v) →
      P found (d :: ds) [v] (some e))
    (turn : ∀ found d ds v visits e, visitDownload ⟨d, d, found, []⟩ = (.ok (), v) →
      P v.foundHashing ds visits e → P found (d :: ds) (v :: visits) e)
    (found : Bool) (ds : List Download) :
    P found ds (visitAll found ds).1 (visitAll found ds).2 := by
  induction ds generalizing found with
  | nil => exact nil found
  | cons d ds ih =>
    rw [visitAll]
    split
    · rename_i e v h
      exact stop found d ds v e h
    · rename_i v h
      exact turn found d ds v _ _ h (ih v.foundHashing)

variable {d : Download} {found : Bool}

theorem done_of_ok
    (h : visitDownload ⟨d, d, found, []⟩ = (.ok (), v)) : Done ⟨d, d, found, []⟩ v := by
  have he := @visitDownload_ends ⟨d, d, found, []⟩ rfl
  rw [Ends, h] at he
  exact he

theorem quiet_of_error {e : Exception}
    (h : visitDownload ⟨d, d, found, []⟩ = (.error e, v)) : Quiet ⟨d, d, found, []⟩ v := by
  have he := @visitDownload_ends ⟨d, d, found, []⟩ rfl
  rw [Ends, h] at he
  exact he

theorem visitAll_starts (found : Bool) (ds : List Download) :
    fullStarts (visitAll found ds).1 + found.toNat ≤ 1 := by
  refine visitAll_induction (P := fun found _ visits _ => fullStarts visits + found.toNat ≤ 1)
    ?_ ?_ ?_ found ds
  · intro found
    cases found <;> decide
  · intro found d ds v e h
    have hq : v.fullStarts = 0 := (quiet_of_error h).2.2
    rw [fullStarts_cons, hq]
    cases found <;> simp [fullStarts]
  · intro found d ds v visits e h ih
    rw [fullStarts_cons]
    rcases done_of_ok h with ⟨⟨-, hf, hs⟩, -⟩ | ⟨-, hf, ht, hs⟩
    · have hs : v.fullStarts = 0 := hs
      have hf : v.foundHashing = found := hf
      rw [hf] at ih
      omega
    · have hs : v.fullStarts = 1 := hs
      have hf : found = false := hf
      rw [ht] at ih
      simp only [Bool.toNat_true] at ih
      simp only [hf, Bool.toNat_false]
      omega

theorem visitDownload_before (h : (visitDownload ⟨d, d, found, []⟩).2 = v) : v.before = d := by
  have he := @visitDownload_ends ⟨d, d, found, []⟩ rfl
  rw [Ends] at he
  split at he
  · rename_i w hw
    rw [hw] at h
    cases h
    exact he.elim (·.1.1) (·.1)
  · rename_i w hw
    rw [hw] at h
    cases h
    exact he.1

theorem visitAll_turns (found : Bool) (ds : List Download) :
    (∀ v ∈ (visitAll found ds).1, ∃ f, (visitDownload ⟨v.before, v.before, f, []⟩).2 = v) ∧
    (visitAll found ds).1.map (·.before) <+: ds ∧
    ((visitAll found ds).2 = none →
      (∀ v ∈ (visitAll found ds).1,
        ∃ f, visitDownload ⟨v.before, v.before, f, []⟩ = (.ok (), v)) ∧
      (visitAll found ds).1.map (·.before) = ds) := by
  refine visitAll_induction (P := fun found ds visits e =>
    (∀ v ∈ visits, ∃ f, (visitDownload ⟨v.before, v.before, f, []⟩).2 = v) ∧
    visits.map (·.before) <+: ds ∧
    (e = none →
      (∀ v ∈ visits, ∃ f, visitDownload ⟨v.before, v.before, f, []⟩ = (.ok (), v)) ∧
      visits.map (·.before) = ds)) ?_ ?_ ?_ found ds
  · intro found
    simp
  · intro found d ds v e h
    have hb : v.before = d := visitDownload_before (congrArg Prod.snd h)
    refine ⟨?_, ?_, fun he => by cases he⟩
    · simp only [List.mem_singleton, forall_eq, hb]
      exact ⟨found, congrArg Prod.snd h⟩
    · simp [hb]
  · intro found d ds v visits e h ih
    have hb : v.before = d := visitDownload_before (congrArg Prod.snd h)
    obtain ⟨ih1, ih2, ih3⟩ := ih
    refine ⟨?_, ?_, fun he => ⟨?_, ?_⟩⟩
    · refine List.forall_mem_cons.mpr ⟨⟨found, ?_⟩, ih1⟩
      rw [hb]
      exact congrArg Prod.snd h
    · rw [List.map_cons, hb]
      exact (List.prefix_cons_inj d).mpr ih2
    · refine List.forall_mem_cons.mpr ⟨⟨found, ?_⟩, (ih3 he).1⟩
      rw [hb]
      exact h
    · rw [List.map_cons, hb, (ih3 he).2]

theorem visitAll_returns {ds : List Download}
    (h : ∀ d ∈ ds, d.isHashChecked = false ∧ d.answers.OnlyLocal) (found : Bool) :
    (visitAll found ds).2 = none := by
  induction ds generalizing found with
  | nil => rfl
  | cons d ds ih =>
    rw [List.forall_mem_cons] at h
    have hr := @visitDownload_returns ⟨d, d, found, []⟩ h.1.1 h.1.2
    rw [visitAll]
    split
    · rename_i e v hv
      rw [hv] at hr
      cases hr
    · exact ih h.2 _

theorem receiveHashingChanged_safe (visible : List Download) :
    fullStarts (receiveHashingChanged visible).1 ≤ 1 ∧
    ((∃ d ∈ visible, d.isHashChecking = true) →
      fullStarts (receiveHashingChanged visible).1 = 0) ∧
    (∀ v ∈ (receiveHashingChanged visible).1,
      v.before.isHashChecking = true ∨ v.before.isHashFailed = true → v.actions = []) ∧
    ((receiveHashingChanged visible).2 = none → ∀ v ∈ (receiveHashingChanged visible).1,
      .quickFailed ∈ v.actions → v.download.hashing = variableHashingInitial →
        .fullStarted ∈ v.actions) ∧
    (receiveHashingChanged visible).1.map (·.before) <+: visible ∧
    ((∀ d ∈ visible, d.isHashChecked = false ∧ d.answers.OnlyLocal) →
      (receiveHashingChanged visible).2 = none ∧
        (receiveHashingChanged visible).1.map (·.before) = visible) := by
  have hstarts := visitAll_starts (visible.any (·.isHashChecking)) visible
  obtain ⟨hturn, hprefix, hall⟩ := visitAll_turns (visible.any (·.isHashChecking)) visible
  refine ⟨Nat.le_trans (Nat.le_add_right _ _) hstarts, ?_, ?_, ?_, hprefix, ?_⟩
  · rintro ⟨d, hd, hc⟩
    have hany : visible.any (·.isHashChecking) = true := List.any_eq_true.mpr ⟨d, hd, hc⟩
    rw [hany] at hstarts
    rw [receiveHashingChanged, hany]
    exact Nat.le_zero.mp (Nat.le_of_add_le_add_right hstarts)
  · intro v hv hbusy
    obtain ⟨f, hf⟩ := hturn v hv
    have hskip := @visitDownload_skips ⟨v.before, v.before, f, []⟩ hbusy
    rw [hf] at hskip
    rw [hskip]
  · intro hn v hv hquick hinitial
    obtain ⟨f, hf⟩ := (hall hn).1 v hv
    rcases done_of_ok hf with ⟨-, hq⟩ | ⟨-, -, -, hs⟩
    · exact absurd hinitial (hq hquick)
    · have hs : v.fullStarts = 1 := hs
      exact List.count_pos_iff.mp (by rw [Visit.fullStarts] at hs; omega)
  · intro h
    have hn := visitAll_returns h (visible.any (·.isHashChecking))
    exact ⟨hn, (hall hn).2⟩

def unverified : Answers := ⟨none, none, true, none, none, .ok false, none, none⟩

def waiting : Download := ⟨false, false, false, variableHashingInitial, false, true, "", unverified⟩

theorem unverified_onlyLocal : unverified.OnlyLocal := by
  constructor <;> intro e he <;> cases he

theorem receiveHashingChanged_safe_queue :
    fullStarts (receiveHashingChanged [waiting, waiting]).1 ≤ 1 ∧
    fullStarts (receiveHashingChanged [waiting, { waiting with isHashChecking := true }]).1 = 0 ∧
    (receiveHashingChanged [waiting, waiting]).2 = none := by
  refine ⟨(receiveHashingChanged_safe _).1, ?_, ?_⟩
  · exact (receiveHashingChanged_safe _).2.1 ⟨{ waiting with isHashChecking := true }, by simp, rfl⟩
  · refine ((receiveHashingChanged_safe _).2.2.2.2.2 fun d hd => ?_).1
    have hd : d = waiting := by simpa using hd
    exact hd ▸ ⟨rfl, unverified_onlyLocal⟩

end HashingQueue
