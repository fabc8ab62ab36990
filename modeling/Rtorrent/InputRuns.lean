import Rtorrent.InputNavigation

/-! # Runs of the input history

The operations on the rings and on the open input, in any order. Along a run every entry can be
shown, and none gives way as long as a slot is free, exactly when each operation fits the rings.
-/
namespace InputRuns

open RpcTextParser InputHistory InputHistoryFile InputRings InputNavigation RingCopies

inductive Op where
  | add (type : Input) (item : Text)
  | setSize (size : ℤ)
  | clear
  | load (file : Option Text)
  | enable (type : Input) (text : Text)
  | disable
  | prev
  | next

/-- There is no file to load when it is not used or cannot be read. -/
def perform (trim : Text → Text) (s : State) : Op → Except Error State
  | .add type item => .ok { s with history := s.history.addToInputHistory trim type item }
  | .setSize size =>
    match s.history.setInputHistorySize size with
    | .ok history => .ok { s with history }
    | .error e => .error (.thrown e)
  | .clear => .ok { s with history := clearInputHistory s.history }
  | .load none => .ok s
  | .load (some file) => .ok { s with history := loadInputHistory trim file s.history }
  | .enable type text => enableInput type text s
  | .disable => disableInput s
  | .prev => prevInInputHistory s
  | .next => nextInInputHistory s

/-- Nothing has been changed when an operation throws. -/
def after (trim : Text → Text) (s : State) (op : Op) : State :=
  match perform trim s op with
  | .ok t => t
  | .error _ => s

def run (trim : Text → Text) (s : State) (ops : List Op) : State := ops.foldl (after trim) s

def start : State where
  history := { length := 99, category := fun _ => .fresh 99 (by decide), length_slots :=
    fun _ => rfl }
  input := none
  pointerGet := 0
  lastInput := []

/-- The operations that write one text to a ring. -/
def Op.stores : Op → Bool
  | .add _ _ => true
  | .prev => true
  | .next => true
  | _ => false

/-- Another entry is in the place of an entry only when all slots were in use. -/
def Spares (h t : History) : Prop :=
  ∀ type, ∀ i < h.length,
    (h.category type).slots.getD i [] ≠ [] → (t.category type).slots.getD i [] ≠ [] →
    (t.category type).slots.getD i [] ≠ (h.category type).slots.getD i [] →
    ∀ text ∈ (h.category type).slots, text ≠ []

structure Sound (trim : Text → Text) (s : State) (ops : List Op) : Prop where
  browsable : ∀ done rest, done ++ rest = ops → Browsable (run trim s done).history
  spares : ∀ done op rest, done ++ op :: rest = ops → op.stores = true →
    Spares (run trim s done).history (after trim (run trim s done) op).history

variable {trim : Text → Text}

theorem sound_cons {s : State} {op : Op} {ops : List Op} :
    Sound trim s (op :: ops) ↔
      Browsable s.history ∧ (op.stores = true → Spares s.history (after trim s op).history) ∧
        Sound trim (after trim s op) ops := by
  constructor
  · intro h
    refine ⟨h.browsable [] _ rfl, h.spares [] _ _ rfl, ?_, ?_⟩
    · exact fun done rest heq => h.browsable (op :: done) rest (congrArg _ heq)
    · exact fun done other rest heq => h.spares (op :: done) other rest (congrArg _ heq)
  · rintro ⟨hbrowsable, hspares, h⟩
    constructor
    · intro done rest heq
      cases done with
      | nil => exact hbrowsable
      | cons first done =>
        obtain ⟨rfl, rfl⟩ := List.cons.inj heq
        exact h.browsable done rest rfl
    · intro done other rest heq
      cases done with
      | nil =>
        obtain ⟨rfl, rfl⟩ := List.cons.inj heq
        exact hspares
      | cons first done =>
        obtain ⟨rfl, rfl⟩ := List.cons.inj heq
        exact h.spares done other rest rfl

/-- A key writes the text that is shown to the slot that was read. It may write what is there, a
text to the slot before all entries, and no text to the oldest entry. -/
def KeyFits (s : State) : Prop :=
  ∀ type text, s.input = some (type, text) →
    s.pointerGet = (s.history.category type).pointer ∨
    s.history.length ≤ s.pointerGet ∨
    text = (s.history.category type).slots.getD s.pointerGet [] ∨
    text ≠ [] ∧ distance (s.history.category type) s.pointerGet =
      (s.history.category type).entries.length ∨
    text = [] ∧ distance (s.history.category type) s.pointerGet + 1 =
      (s.history.category type).entries.length

def Fits (trim : Text → Text) (s : State) : Op → Prop
  | .add type item =>
    item = [] ∨ item = newest (s.history.category type) 0 ∨
    trim item ≠ [] ∧ (s.history.category type).entries.length + 1 < s.history.length ∨
    trim item = [] ∧ (s.history.category type).entries.length = 0
  | .setSize size =>
    size < 1 ∨ maxInputHistorySize < size ∨
      ∀ type, Resizes (s.history.category type) size.toNat
  | .load (some file) => ∀ type, (readCategory trim file type).length < s.history.length
  | .prev => KeyFits s
  | .next => KeyFits s
  | .clear => True
  | .load none => True
  | .enable _ _ => True
  | .disable => True

def RunFits (trim : Text → Text) : State → List Op → Prop
  | _, [] => True
  | s, op :: ops => Fits trim s op ∧ RunFits trim (after trim s op) ops

def AllPacked (h : History) : Prop := ∀ type, Packed (h.category type)

theorem free_pointer {c : Category} (hpacked : Packed c) : c.slots.getD c.pointer [] = [] := by
  obtain ⟨hlt, hnewest⟩ := hpacked
  have hlast := hnewest (c.slots.length - 1) (by omega)
  rw [newest, position_last] at hlast
  by_contra hne
  have := hlast.mp hne
  omega

section

variable {h t : History} (hpacked : AllPacked h)
include hpacked

theorem spares_iff : Spares h t ↔ ∀ type, ∀ i < h.length,
    (h.category type).slots.getD i [] ≠ [] → (t.category type).slots.getD i [] ≠ [] →
      (t.category type).slots.getD i [] = (h.category type).slots.getD i [] := by
  refine forall_congr' fun type => forall₂_congr fun i hi => forall₂_congr fun hold hnew => ?_
  have hfree : ¬∀ text ∈ (h.category type).slots, text ≠ [] := by
    intro hall
    have hp := (h.category type).pointer_lt
    refine hall _ ?_ (free_pointer (hpacked type))
    rw [List.getD_eq_getElem _ _ hp]
    exact List.getElem_mem hp
  simp only [hfree, imp_false, not_not]

variable {type : Input} {c : Category} (ht : t.category = Function.update h.category type c)
include ht

theorem allPacked_update : AllPacked t ↔ Packed c := by
  rw [AllPacked, ht, Function.forall_update_iff h.category fun _ => Packed]
  exact and_iff_left fun other _ => hpacked other

theorem spares_update : Spares h t ↔ ∀ i < h.length, (h.category type).slots.getD i [] ≠ [] →
    c.slots.getD i [] ≠ [] → c.slots.getD i [] = (h.category type).slots.getD i [] := by
  rw [spares_iff hpacked, ht, Function.forall_update_iff h.category fun type c => ∀ i < h.length,
    (h.category type).slots.getD i [] ≠ [] → c.slots.getD i [] ≠ [] →
      c.slots.getD i [] = (h.category type).slots.getD i []]
  exact and_iff_left fun _ _ _ _ _ _ => rfl

end

section

variable {trim : Text → Text} {s : State} (hpacked : AllPacked s.history)
include hpacked

theorem packed_add (type : Input) (item : Text) :
    AllPacked (s.history.addToInputHistory trim type item) ↔ Fits trim s (.add type item) := by
  rw [allPacked_update hpacked rfl]
  by_cases hitem : item = []
  · simp [Category.add, hitem, hpacked type, Fits]
  by_cases hnew : item = newest (s.history.category type) 0
  · have hsame : (s.history.category type).add trim item = s.history.category type := by
      rw [newest_zero, ← Category.getD_previous] at hnew
      exact if_neg fun h => h.2 hnew
    rw [hsame]
    exact iff_of_true (hpacked type) (.inr (.inl hnew))
  · rw [packed_add_iff (hpacked type) trim hitem hnew, s.history.length_slots]
    simp [Fits, hitem, hnew]

theorem spares_add (type : Input) (item : Text) :
    Spares s.history (s.history.addToInputHistory trim type item) := by
  refine (spares_update hpacked rfl).mpr fun i _ hold _ => ?_
  unfold Category.add
  split
  · have hne : (s.history.category type).pointer ≠ i := by
      rintro rfl
      exact hold (free_pointer (hpacked type))
    rw [getD_set (s.history.category type).pointer_lt, if_neg hne]
  · rfl

theorem setSize_fits (size : ℤ) :
    AllPacked (after trim s (.setSize size)).history ↔ Fits trim s (.setSize size) := by
  by_cases hsize : size < 1 ∨ maxInputHistorySize < size
  · have hafter : (after trim s (.setSize size)).history = s.history := by
      simp [after, perform, History.setInputHistorySize, hsize, inputError]
    rw [hafter]
    refine iff_of_true hpacked ?_
    exact or_assoc.mp (.inl hsize)
  · have hafter : AllPacked (after trim s (.setSize size)).history ↔
        ∀ type, Packed ((s.history.category type).setSize size.toNat (by omega)) := by
      simp [after, perform, History.setInputHistorySize, hsize, AllPacked]
    rw [hafter, Fits, ← or_assoc, or_iff_right hsize]
    exact forall_congr' fun type => packed_setSize_iff (hpacked type)

end

theorem readLine_ne_nil {line : Text} {r : Input × Text}
    (h : readLine trim line = some r) : r.2 ≠ [] := by
  unfold readLine at h
  simp only at h
  split at h
  · cases h
  · split at h
    · cases h
    · split at h
      · cases h
      · next hne =>
        obtain rfl := Option.some.inj h
        exact fun hnil => hne (List.isEmpty_iff.mpr hnil)

theorem load_fits (trim : Text → Text) (s : State) (file : Text) :
    AllPacked (loadInputHistory trim file s.history) ↔ Fits trim s (.load (some file)) := by
  refine forall_congr' fun type => packed_loadCategory_iff (length_pos s.history) ?_
  intro text htext
  obtain ⟨r, hr, rfl⟩ := List.mem_map.mp htext
  obtain ⟨line, -, hline⟩ := List.mem_filterMap.mp (List.mem_filter.mp hr).1
  exact readLine_ne_nil hline

theorem packed_fresh {length : ℕ} (hpos : 0 < length) : Packed (.fresh length hpos) :=
  packed_of_blank fun d _ => by simp [newest, Category.fresh]

def keptHistory (type : Input) (text : Text) (s : State) : History :=
  if s.pointerGet ≠ (s.history.category type).pointer ∧ s.pointerGet < s.history.length then
    writeSlot type s.pointerGet text s.history
  else s.history

theorem history_of_key {s : State} {op : Op} {type : Input} {text : Text}
    {moved : State → State} (hop : perform trim s op = (keepInput type text s).map moved)
    (hmoved : ∀ t, (moved t).history = t.history) :
    (after trim s op).history = keptHistory type text s := by
  unfold after
  rw [hop, keepInput, keptHistory, s.history.length_slots]
  by_cases hp : s.pointerGet = (s.history.category type).pointer
  · simp [hp, Except.map, hmoved]
  by_cases hlt : s.pointerGet < s.history.length
  · simp [hp, hlt, Except.map, hmoved]
  · simp [hp, hlt, Except.map]

theorem history_showNext (type : Input) (s : State) : (showNext type s).history = s.history := by
  simp only [showNext]
  split <;> rfl

section

variable {trim : Text → Text} {s : State} {type : Input} {text : Text}

theorem history_prev (hinput : s.input = some (type, text)) :
    (after trim s .prev).history = keptHistory type text s := by
  have hop : perform trim s .prev = (keepInput type text s).map (showPrev type) := by
    simp [perform, prevInInputHistory, hinput]
  exact history_of_key hop fun _ => rfl

theorem history_next (hinput : s.input = some (type, text)) :
    (after trim s .next).history = keptHistory type text s := by
  have hop : perform trim s .next = (keepInput type text s).map (showNext type) := by
    simp [perform, nextInInputHistory, hinput]
  exact history_of_key hop (history_showNext type)

theorem write_fits {c : Category} (hpacked : Packed c) {i : ℕ} (hi : i < c.slots.length)
    (hne : i ≠ c.pointer) (text : Text) :
    Packed (write i text c) ∧ (c.slots.getD i [] ≠ [] → text ≠ [] → text = c.slots.getD i []) ↔
      text = c.slots.getD i [] ∨ text ≠ [] ∧ distance c i = c.entries.length ∨
        text = [] ∧ distance c i + 1 = c.entries.length := by
  have hposition : position c (distance c i) = i :=
    (position_eq_iff (Nat.mod_lt _ c.length_pos) hi).mpr rfl
  have hentry := hpacked.2 (distance c i) (Nat.mod_lt _ c.length_pos)
  rw [newest, hposition] at hentry
  rw [packed_write_iff hpacked hi hne]
  by_cases htext : text = []
  · have hfree : text = c.slots.getD i [] ↔ c.entries.length ≤ distance c i := by
      rw [htext, eq_comm, ← Nat.not_lt, ← hentry, not_not]
    simp only [htext, ne_eq, not_true_eq_false, false_and, false_or, true_and, false_imp_iff,
      implies_true, and_true] at hfree ⊢
    rw [hfree]
    omega
  · simp only [htext, ne_eq, not_false_eq_true, true_and, false_and, or_false, true_imp_iff]
    constructor
    · rintro ⟨hle, hsame⟩
      rcases Nat.eq_or_lt_of_le hle with heq | hlt
      · exact .inr heq
      · exact .inl (hsame (hentry.mpr hlt))
    · rintro (hsame | heq)
      · exact ⟨(hentry.mp (hsame ▸ htext)).le, fun _ => hsame⟩
      · exact ⟨heq.le, fun hused => absurd (hentry.mp hused) (by omega)⟩

theorem kept_fits (hpacked : AllPacked s.history) (hinput : s.input = some (type, text)) :
    AllPacked (keptHistory type text s) ∧ Spares s.history (keptHistory type text s) ↔
      KeyFits s := by
  have hfits : KeyFits s ↔ _ := ⟨fun h => h type text hinput, fun h type' text' hinput' => by
    cases hinput.symm.trans hinput'
    exact h⟩
  rw [hfits, keptHistory]
  split
  · next hwrites =>
    obtain ⟨hne, hlt⟩ := hwrites
    have hin : s.pointerGet < (s.history.category type).slots.length := by
      rwa [s.history.length_slots]
    have hspares : Spares s.history (writeSlot type s.pointerGet text s.history) ↔
        ((s.history.category type).slots.getD s.pointerGet [] ≠ [] → text ≠ [] →
          text = (s.history.category type).slots.getD s.pointerGet []) := by
      rw [spares_update hpacked rfl]
      simp only [write, getD_set hin]
      constructor
      · intro hall
        simpa using hall _ hlt
      · intro hone i _
        by_cases heq : s.pointerGet = i
        · subst heq
          simpa using hone
        · simp [heq]
    rw [allPacked_update hpacked rfl, hspares, write_fits (hpacked type) hin hne,
      or_iff_right hne, or_iff_right (Nat.not_le.mpr hlt)]
  · next hkeeps =>
    refine iff_of_true ⟨hpacked, fun _ _ _ _ _ hne => absurd rfl hne⟩ ?_
    rw [not_and_or, not_not, Nat.not_lt] at hkeeps
    exact or_assoc.mp (.inl hkeeps)

theorem history_enable (type : Input) (text : Text) :
    (after trim s (.enable type text)).history = s.history := by
  cases hinput : s.input <;> simp [after, perform, enableInput, hinput, internalError]

theorem history_disable : (after trim s .disable).history = s.history := by
  cases hinput : s.input <;> simp [after, perform, disableInput, hinput, internalError]

theorem key_fits (hpacked : AllPacked s.history) {t : History}
    (hnone : s.input = none → t = s.history)
    (hsome : ∀ type text, s.input = some (type, text) → t = keptHistory type text s) :
    AllPacked t ∧ (true = true → Spares s.history t) ↔ KeyFits s := by
  cases hinput : s.input with
  | none =>
    refine iff_of_true ?_ (by simp [KeyFits, hinput])
    rw [hnone hinput]
    exact ⟨hpacked, fun _ _ _ _ _ _ hne => absurd rfl hne⟩
  | some r =>
    rw [hsome r.1 r.2 hinput, ← kept_fits hpacked hinput]
    simp

theorem step_fits (hpacked : AllPacked s.history) (op : Op) :
    AllPacked (after trim s op).history ∧
      (op.stores = true → Spares s.history (after trim s op).history) ↔ Fits trim s op := by
  cases op with
  | add type item =>
    exact (and_iff_left fun _ => spares_add hpacked type item).trans (packed_add hpacked type item)
  | setSize size =>
    exact (and_iff_left fun h => absurd h Bool.false_ne_true).trans (setSize_fits hpacked size)
  | clear =>
    refine iff_of_true ⟨fun _ => packed_fresh (length_pos s.history), ?_⟩ trivial
    exact fun h => absurd h Bool.false_ne_true
  | load file =>
    cases file with
    | none => exact iff_of_true ⟨hpacked, fun h => absurd h Bool.false_ne_true⟩ trivial
    | some file =>
      exact (and_iff_left fun h => absurd h Bool.false_ne_true).trans (load_fits trim s file)
  | enable type text =>
    refine iff_of_true ⟨?_, fun h => absurd h Bool.false_ne_true⟩ trivial
    rwa [history_enable]
  | disable =>
    refine iff_of_true ⟨?_, fun h => absurd h Bool.false_ne_true⟩ trivial
    rwa [history_disable]
  | prev =>
    refine key_fits hpacked (fun hnone => ?_) fun _ _ => history_prev
    simp [after, perform, prevInInputHistory, hnone, internalError]
  | next =>
    refine key_fits hpacked (fun hnone => ?_) fun _ _ => history_next
    simp [after, perform, nextInInputHistory, hnone, internalError]

theorem sound_iff_of_packed (hpacked : AllPacked s.history) (ops : List Op) :
    Sound trim s ops ↔ RunFits trim s ops := by
  have hbrowsable : Browsable s.history := (browsable_iff _).mpr hpacked
  induction ops generalizing s with
  | nil =>
    refine iff_of_true ⟨fun done rest heq => ?_, fun done op rest heq => ?_⟩ trivial
    · obtain ⟨rfl, rfl⟩ := List.append_eq_nil_iff.mp heq
      exact hbrowsable
    · cases (List.append_eq_nil_iff.mp heq).2
  | cons op ops ih =>
    rw [sound_cons, RunFits, ← step_fits hpacked op]
    constructor
    · rintro ⟨-, hspares, hsound⟩
      have hafter := hsound.browsable [] ops rfl
      have hpacked' : AllPacked (after trim s op).history := (browsable_iff _).mp hafter
      exact ⟨⟨hpacked', hspares⟩, (ih hpacked' hafter).mp hsound⟩
    · rintro ⟨⟨hpacked', hspares⟩, hfits⟩
      exact ⟨hbrowsable, hspares, (ih hpacked' ((browsable_iff _).mpr hpacked')).mpr hfits⟩

end

theorem sound_iff (trim : Text → Text) (ops : List Op) :
    Sound trim start ops ↔ RunFits trim start ops :=
  sound_iff_of_packed (fun _ => packed_fresh (by decide)) ops

def filled : History :=
  (run id start [.setSize 2, .add .command ['a'], .add .command ['b']]).history

theorem filled_slots : (filled.category .command).slots = [['a'], ['b']] := rfl

theorem filled_pressed (n : ℕ) : ∃ s, presses (n + 1) (opened filled .command []) = .ok s ∧
    Stands filled .command [] 1 s := by
  induction n with
  | zero =>
    obtain ⟨s, hprev, hs⟩ := stands_opened.prev (filled.category .command).length_pos
    exact ⟨s, hprev, hs⟩
  | succ n ih =>
    obtain ⟨s, hpresses, hs⟩ := ih
    obtain ⟨t, hprev, ht⟩ := hs.prev (by rw [filled_slots]; decide)
    exact ⟨t, by rw [presses, hpresses]; exact hprev, ht⟩

theorem filled_hides :
    (filled.category .command).slots = [['a'], ['b']] ∧
    (∀ n, ∃ s, presses (n + 1) (opened filled .command []) = .ok s ∧
      s.input = some (.command, ['b'])) ∧
    ¬Sound id start [.setSize 2, .add .command ['a'], .add .command ['b']] := by
  refine ⟨filled_slots, fun n => ?_, fun hsound => ?_⟩
  · obtain ⟨s, hpresses, hs⟩ := filled_pressed n
    exact ⟨s, hpresses, hs.input_eq⟩
  · have hshows : Shows filled .command := hsound.browsable _ [] rfl .command
    obtain ⟨s, hpresses, -, hinput⟩ := hshows [] 1 1 rfl
    obtain ⟨t, hpresses', ht⟩ := filled_pressed 1
    obtain rfl := Except.ok.inj (hpresses.symm.trans hpresses')
    have hshown : some (Input.command, ['a']) = some (Input.command, ['b']) :=
      hinput.symm.trans ht.input_eq
    simp at hshown

end InputRuns
