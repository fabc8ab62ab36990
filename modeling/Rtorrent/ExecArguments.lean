import Rtorrent.ObjectPrinting

/-! # The arguments of a program that is executed

`execute_object` collects pointers to its arguments or to what it has printed of them into its
buffer, and the program is started with what is there then. -/
namespace ExecArguments

open MemoryCells RpcTextParser RpcCommandParser RpcIntegers ObjectPrinting

def maxArgs : ℕ := 128
def bufferSize : ℕ := 4096

def flagExpandTilde : BitVec 32 := 0x1
def flagThrow : BitVec 32 := 0x2
def flagCapture : BitVec 32 := 0x4
def flagBackground : BitVec 32 := 0x8

inductive Pointer where
  | string (str : Text)
  | buffer (pos : ℕ)
  deriving DecidableEq, Repr

/-- The pointers so far, `valueCurrent` and `valueBuffer`. -/
structure Collected where
  args : List Pointer
  current : ℕ
  buffer : Memory

def hasTilde (flags : BitVec 32) (str : Text) : Prop :=
  flags &&& flagExpandTilde ≠ 0 ∧ str.head? = some '~'

instance (flags : BitVec 32) (str : Text) : Decidable (hasTilde flags str) :=
  inferInstanceAs (Decidable (flags &&& flagExpandTilde ≠ 0 ∧ str.head? = some '~'))

def printArgument (home : Option Text) (flags : BitVec 32) (item : Object) (c : Collected) :
    Except Failure Collected := do
  let (first, buffer) ← printObject home bufferSize flags item (c.current, c.buffer)
  if bufferSize ≤ first + 1 then inputError "Overflowed execute arg buffer."
  else .ok ⟨c.args ++ [.buffer c.current], first + 1, buffer⟩

def collectArgument (home : Option Text) (flags : BitVec 32) (item : Object) (c : Collected) :
    Except Failure Collected :=
  if c.args.length = maxArgs - 1 then inputError "Too many arguments."
  else match item with
    | .string str =>
      if ¬ hasTilde flags str then .ok { c with args := c.args ++ [.string str] }
      else printArgument home flags item c
    | item => printArgument home flags item c

def collectArguments (home : Option Text) (flags : BitVec 32) :
    List Object → Collected → Except Failure Collected
  | [], c => .ok c
  | item :: items, c => do
    let c ← collectArgument home flags item c
    collectArguments home flags items c

/-- Here there is no test for what did not fit. -/
def collectString (home : Option Text) (flags : BitVec 32) (str : Text) (c : Collected) :
    Except Failure Collected :=
  if hasTilde flags str then do
    let (first, buffer) ← printObject home bufferSize flags (.string str) (c.current, c.buffer)
    .ok ⟨c.args ++ [.buffer c.current], first + 1, buffer⟩
  else .ok { c with args := c.args ++ [.string str] }

def collect (home : Option Text) (flags : BitVec 32) (buffer : Memory) :
    Object → Except Failure Collected
  | .list [] => inputError "Too few arguments."
  | .list items => collectArguments home flags items ⟨[], 0, buffer⟩
  | .string str => collectString home flags str ⟨[], 0, buffer⟩
  | _ => inputError "Wrong object type."

def readPointer (buffer : Memory) : Pointer → Text
  | .string str => cString str
  | .buffer pos => stringAt nul (bufferSize + 1) buffer pos

def Collected.argv (c : Collected) : List Text := c.args.map (readPointer c.buffer)

structure Child where
  status : ℤ
  output : Text
  deriving DecidableEq, Repr

/-- The `argv` of the program, when it was started, and what the call returns or throws. -/
structure Executed where
  started : Option (List Text)
  result : Except Failure Object

/-- `spawn` is `SpawnProcess`, which fails with an error number or starts the program, and
`capture` is `m_capture` before the call. -/
def execute (spawn : List Text → Except String Child) (capture : Text) (flags : BitVec 32)
    (argv : List Text) : Executed :=
  match spawn argv with
  | .error errno => ⟨none, inputError ("ExecFile::execute() posix_spawn failed: " ++ errno)⟩
  | .ok child =>
    let background := flags &&& flagBackground ≠ 0
    let status := if background then 0 else child.status
    let captured := if ¬ background ∧ flags &&& flagCapture ≠ 0 then child.output else capture
    ⟨some argv,
      if flags &&& flagThrow ≠ 0 ∧ status ≠ 0 then inputError "Bad return code."
      else if flags &&& flagCapture ≠ 0 then .ok (.string captured)
      else .ok (.value status)⟩

def executeObject (home : Option Text) (spawn : List Text → Except String Child) (capture : Text)
    (buffer : Memory) (rawArgs : Object) (flags : BitVec 32) : Executed :=
  match collect home flags buffer rawArgs with
  | .error e => ⟨none, .error e⟩
  | .ok c => execute spawn capture flags c.argv

def argumentTexts (home : Option Text) (flags : BitVec 32) :
    List Object → Except Failure (List Text)
  | [] => .ok []
  | item :: items => do
    let text ← printObjectStd home flags item []
    let texts ← argumentTexts home flags items
    .ok (text :: texts)

def texts (home : Option Text) (flags : BitVec 32) : Object → Except Failure (List Text)
  | .list items => argumentTexts home flags items
  | obj => argumentTexts home flags [obj]

def isExpanded (flags : BitVec 32) : Object → Prop
  | .string str => hasTilde flags str
  | _ => False

/-- No text has a nul byte in it, and a string on its own fits into the buffer when it is
expanded. -/
def Representable (home : Option Text) (flags : BitVec 32) (rawArgs : Object) : Prop :=
  ∀ ts, texts home flags rawArgs = .ok ts →
    ∀ t ∈ ts, nul ∉ t ∧ (isExpanded flags rawArgs → t.length < bufferSize)

section

variable {home : Option Text} {flags : BitVec 32} {c : Collected} {ts : List Text} {t : Text}

def Points (current : ℕ) (buffer : Memory) : Pointer → Text → Prop
  | .string str, t => str = t
  | .buffer pos, t => Holds buffer pos (t ++ [nul]) ∧ pos + t.length < current

structure Collecting (c : Collected) (ts : List Text) : Prop where
  room : c.current < bufferSize
  points : List.Forall₂ (Points c.current c.buffer) c.args ts

variable {current : ℕ} {buffer : Memory} {p : Pointer}

theorem Points.later {current' : ℕ} {buffer' : Memory}
    (h : Points current buffer p t) (hc : current ≤ current')
    (hb : ∀ i < current, buffer' i = buffer i) : Points current' buffer' p t := by
  cases p with
  | string str => exact h
  | buffer pos =>
    refine ⟨h.1.congr ?_, Nat.lt_of_lt_of_le h.2 hc⟩
    intro i hi
    have hlt := h.2
    rw [List.length_append, List.length_singleton] at hi
    exact hb i (by omega)

theorem Points.read (h : Points current buffer p t)
    (hc : current ≤ bufferSize) : readPointer buffer p = cString t := by
  cases p with
  | string str =>
    cases h
    rfl
  | buffer pos =>
    have hlt := h.2
    exact h.1.stringAt_eq (by omega)

theorem Collecting.argv_eq (h : Collecting c ts) : c.argv = ts.map cString := by
  have hroom := Nat.le_of_lt h.room
  have hp := h.points
  rw [Collected.argv]
  clear h
  generalize c.args = args at hp
  induction hp with
  | nil => rfl
  | cons hp _ ih => rw [List.map_cons, List.map_cons, hp.read hroom, ih]

theorem Collecting.push (h : Collecting c ts)
    (hc : c.current ≤ current) (hroom : current < bufferSize)
    (hb : ∀ i < c.current, buffer i = c.buffer i) (hp : Points current buffer p t) :
    Collecting ⟨c.args ++ [p], current, buffer⟩ (ts ++ [t]) := by
  refine ⟨hroom, ?_⟩
  apply List.rel_append (R := Points current buffer)
  · exact h.points.imp fun _ _ hq => hq.later hc hb
  · exact .cons hp .nil

def IsInputError (e : Failure) : Prop := ∃ what, e = .error .inputError what

theorem expandPath_error {path : Text} {e : Failure} (h : expandPath home path = .error e) :
    IsInputError e := by
  unfold expandPath at h
  split at h
  · split at h
    · cases h
      exact ⟨_, rfl⟩
    · split at h
      · cases h
        exact ⟨_, rfl⟩
      · cases h
        exact ⟨_, rfl⟩
      · cases h
  · cases h

mutual

theorem printObjectStd_error : ∀ {obj : Object} {flags : BitVec 32} {dest : Text} {e : Failure},
    printObjectStd home flags obj dest = .error e → IsInputError e
  | .string str, flags, dest, e, h => by
    rw [printObjectStd] at h
    split at h
    · cases hp : expandPath home str with
      | error e' =>
        rw [hp] at h
        cases h
        exact expandPath_error hp
      | ok expanded =>
        rw [hp] at h
        cases h
    · cases h
  | .value v, flags, dest, e, h => by
    rw [printObjectStd] at h
    cases h
  | .list items, flags, dest, e, h => by
    rw [printObjectStd] at h
    exact printItemsStd_error h
  | .none, flags, dest, e, h => by
    rw [printObjectStd] at h
    cases h
  | .rawString _, _, _, _, h => by
    cases h
    exact ⟨_, rfl⟩
  | .map _, _, _, _, h => by
    cases h
    exact ⟨_, rfl⟩
  | .dictKey _ _ _, _, _, _, h => by
    cases h
    exact ⟨_, rfl⟩

theorem printItemsStd_error :
    ∀ {items : List Object} {flags : BitVec 32} {dest : Text} {e : Failure},
    printItemsStd home flags items dest = .error e → IsInputError e
  | [], flags, dest, e, h => by
    rw [printItemsStd] at h
    cases h
  | item :: items, flags, dest, e, h => by
    rw [printItemsStd] at h
    cases hp : printObjectStd home flags item dest with
    | error e' =>
      rw [hp] at h
      cases h
      exact printObjectStd_error hp
    | ok dest' =>
      rw [hp] at h
      exact printItemsStd_error h

end

def OrInputError {α : Type} (P : α → Prop) : Except Failure α → Prop
  | .error e => IsInputError e
  | .ok a => P a

def Collects (ts : List Text) (std : Except Failure Text) (c : Collected) : Prop :=
  ∃ t, std = .ok t ∧ Collecting c (ts ++ [t])

variable {item : Object}

theorem printArgument_collects (hv : allValues isInt64 item = true) (h : Collecting c ts) :
    OrInputError (Collects ts (printObjectStd home flags item []))
      (printArgument home flags item c) := by
  have hprint : Follows c.current bufferSize c.buffer (printObjectStd home flags item [])
      (printObject home bufferSize flags item (c.current, c.buffer)) :=
    printObject_follows h.room hv (shown_start h.room) (fun _ => Nat.ne_of_lt h.room)
  rw [printArgument]
  cases hstd : printObjectStd home flags item [] with
  | error e =>
    rw [hstd] at hprint
    rw [show printObject home bufferSize flags item (c.current, c.buffer) = .error e from hprint]
    exact printObjectStd_error hstd
  | ok t =>
    rw [hstd] at hprint
    obtain ⟨⟨first, buffer⟩, hout, hprinted, hsame⟩ := hprint
    rw [hout]
    show OrInputError _ (if bufferSize ≤ first + 1 then _ else _)
    by_cases hfull : bufferSize ≤ first + 1
    · rw [if_pos hfull]
      exact ⟨_, rfl⟩
    · -- it was not cut, since it would end at the end of the buffer
      have hlt : c.current + t.length < bufferSize := by
        by_contra hge
        have hcut := (hprinted.shown.cut (by omega)).1
        dsimp only at hcut
        omega
      have hfirst : first = c.current + t.length := hprinted.shown.fits hlt
      have hended := hprinted.ended
      rw [List.take_of_length_le (by omega)] at hended
      rw [if_neg hfull]
      refine ⟨t, rfl, h.push (by omega) (by omega) ?_ ⟨hended, by omega⟩⟩
      exact fun i hi => hsame i (.inl hi)

theorem printObjectStd_plain {str : Text} (h : ¬ hasTilde flags str) :
    printObjectStd home flags (.string str) [] = .ok str := by
  rw [printObjectStd, if_neg (show ¬ expandsTilde flags str from h), List.nil_append]

theorem collectArgument_collects (hv : allValues isInt64 item = true) (h : Collecting c ts) :
    OrInputError (Collects ts (printObjectStd home flags item []))
      (collectArgument home flags item c) := by
  unfold collectArgument
  split
  · exact ⟨_, rfl⟩
  · cases item with
    | string str =>
      dsimp only
      by_cases htilde : hasTilde flags str
      · rw [if_neg (not_not.mpr htilde)]
        exact printArgument_collects hv h
      · rw [if_pos htilde]
        exact ⟨str, printObjectStd_plain htilde,
          h.push (Nat.le_refl _) h.room (fun _ _ => rfl) rfl⟩
    | _ => exact printArgument_collects hv h

theorem collectArguments_collecting {items : List Object} (hv : allItems isInt64 items = true)
    (h : Collecting c ts) :
    OrInputError (fun c' => ∃ ts', argumentTexts home flags items = .ok ts' ∧
      Collecting c' (ts ++ ts')) (collectArguments home flags items c) := by
  induction items generalizing c ts with
  | nil => exact ⟨[], rfl, by rwa [List.append_nil]⟩
  | cons item items ih =>
    obtain ⟨hitem, hitems⟩ := Bool.and_eq_true_iff.mp hv
    have hfirst : OrInputError (Collects ts (printObjectStd home flags item []))
        (collectArgument home flags item c) := collectArgument_collects hitem h
    rw [collectArguments]
    cases hc : collectArgument home flags item c with
    | error e =>
      rw [hc] at hfirst
      exact hfirst
    | ok c' =>
      rw [hc] at hfirst
      obtain ⟨t, hstd, hcollecting⟩ := hfirst
      have hrest := ih hitems hcollecting
      show OrInputError _ (collectArguments home flags items c')
      cases hcs : collectArguments home flags items c' with
      | error e =>
        rw [hcs] at hrest
        exact hrest
      | ok c'' =>
        rw [hcs] at hrest
        obtain ⟨ts', hts, hall⟩ := hrest
        refine ⟨t :: ts', ?_, ?_⟩
        · rw [argumentTexts, hstd, hts]
          rfl
        · rwa [List.append_assoc] at hall

theorem cString_eq_self_iff : cString t = t ↔ nul ∉ t := by
  constructor
  · intro h hm
    have hall := List.takeWhile_eq_self_iff.mp h nul hm
    simp [nul] at hall
  · exact cString_of_not_mem

theorem map_cString_eq_self_iff : ts.map cString = ts ↔ ∀ t ∈ ts, nul ∉ t := by
  calc ts.map cString = ts
      ↔ ts.map cString = ts.map id := by rw [List.map_id]
    _ ↔ ∀ t ∈ ts, nul ∉ t := by simp only [List.map_inj_left, id_eq, cString_eq_self_iff]

theorem printString_follows (home : Option Text) (flags : BitVec 32) (str : Text)
    (buffer : Memory) :
    Follows 0 bufferSize buffer (printObjectStd home flags (.string str) [])
      (printObject home bufferSize flags (.string str) (0, buffer)) :=
  printObject_follows (by decide) rfl (shown_start (by decide)) (fun _ => by decide)

theorem collectString_expanded {str : Text} (buffer : Memory) (htilde : hasTilde flags str)
    (hstd : printObjectStd home flags (.string str) [] = .ok t) :
    ∃ c, collectString home flags str ⟨[], 0, buffer⟩ = .ok c ∧
      c.argv = [cString (t.take (bufferSize - 1))] := by
  have hprint := printString_follows home flags str buffer
  rw [hstd] at hprint
  obtain ⟨⟨first, buffer'⟩, hout, hprinted, -⟩ := hprint
  have hread : stringAt nul (bufferSize + 1) buffer' 0 = cString (t.take (bufferSize - 1)) :=
    hprinted.ended.stringAt_eq (by
      rw [List.length_take]
      omega)
  refine ⟨⟨[.buffer 0], first + 1, buffer'⟩, ?_, ?_⟩
  · rw [collectString, if_pos htilde]
    dsimp only
    rw [hout]
    rfl
  · rw [← hread]
    rfl

theorem collectString_argv (str : Text) (buffer : Memory) :
    OrInputError (fun c => ∃ t, printObjectStd home flags (.string str) [] = .ok t ∧
      c.argv = [cString (if hasTilde flags str then t.take (bufferSize - 1) else t)])
      (collectString home flags str ⟨[], 0, buffer⟩) := by
  by_cases htilde : hasTilde flags str
  · cases hstd : printObjectStd home flags (.string str) [] with
    | error e =>
      have hprint := printString_follows home flags str buffer
      rw [hstd] at hprint
      rw [collectString, if_pos htilde]
      dsimp only
      rw [show printObject home bufferSize flags (.string str) (0, buffer) = .error e from hprint]
      exact printObjectStd_error hstd
    | ok t =>
      obtain ⟨c, hc, hargv⟩ := collectString_expanded buffer htilde hstd
      rw [hc]
      refine ⟨t, rfl, ?_⟩
      rw [if_pos htilde]
      exact hargv
  · rw [collectString, if_neg htilde]
    refine ⟨str, printObjectStd_plain htilde, ?_⟩
    rw [if_neg htilde]
    rfl

theorem cString_take_eq_self_iff {n : ℕ} : cString (t.take n) = t ↔ nul ∉ t ∧ t.length ≤ n := by
  constructor
  · intro h
    have hlen : t.length ≤ n := by
      have hle : (cString (t.take n)).length ≤ (t.take n).length :=
        (List.takeWhile_prefix _).length_le
      rw [h, List.length_take] at hle
      omega
    rw [List.take_of_length_le hlen] at h
    exact ⟨cString_eq_self_iff.mp h, hlen⟩
  · rintro ⟨hn, hlen⟩
    rw [List.take_of_length_le hlen]
    exact cString_eq_self_iff.mpr hn

theorem representable_iff {rawArgs : Object} (h : texts home flags rawArgs = .ok ts) :
    Representable home flags rawArgs ↔
      ∀ t ∈ ts, nul ∉ t ∧ (isExpanded flags rawArgs → t.length < bufferSize) := by
  constructor
  · intro hr
    exact hr ts h
  · intro hall ts' hts
    rw [h] at hts
    cases hts
    exact hall

theorem collect_list_argv {items : List Object}
    (hv : allValues isInt64 (.list (item :: items)) = true) :
    OrInputError (fun c => texts home flags (.list (item :: items)) = .ok c.argv ↔
      Representable home flags (.list (item :: items)))
      (collectArguments home flags (item :: items) ⟨[], 0, buffer⟩) := by
  have hstart : Collecting ⟨[], 0, buffer⟩ [] := ⟨show 0 < bufferSize by decide, .nil⟩
  have hall : OrInputError (fun c => ∃ ts, argumentTexts home flags (item :: items) = .ok ts ∧
      Collecting c ([] ++ ts)) (collectArguments home flags (item :: items) ⟨[], 0, buffer⟩) :=
    collectArguments_collecting hv hstart
  cases hc : collectArguments home flags (item :: items) ⟨[], 0, buffer⟩ with
  | error e =>
    rw [hc] at hall
    exact hall
  | ok c =>
    rw [hc] at hall
    obtain ⟨ts, hts, hcollecting⟩ := hall
    have hts : texts home flags (.list (item :: items)) = .ok ts := hts
    rw [List.nil_append] at hcollecting
    show texts home flags (.list (item :: items)) = _ ↔ _
    rw [representable_iff hts, hts, hcollecting.argv_eq, Except.ok.injEq, eq_comm,
      map_cString_eq_self_iff]
    simp [isExpanded]

theorem collect_string_argv (str : Text) (buffer : Memory) :
    OrInputError (fun c => texts home flags (.string str) = .ok c.argv ↔
      Representable home flags (.string str)) (collectString home flags str ⟨[], 0, buffer⟩) := by
  have hone : OrInputError (fun c => ∃ t, printObjectStd home flags (.string str) [] = .ok t ∧
      c.argv = [cString (if hasTilde flags str then t.take (bufferSize - 1) else t)])
      (collectString home flags str ⟨[], 0, buffer⟩) := collectString_argv str buffer
  cases hc : collectString home flags str ⟨[], 0, buffer⟩ with
  | error e =>
    rw [hc] at hone
    exact hone
  | ok c =>
    rw [hc] at hone
    obtain ⟨t, hstd, hargv⟩ := hone
    have hts : texts home flags (.string str) = .ok [t] := by
      show argumentTexts home flags [.string str] = .ok [t]
      rw [argumentTexts, hstd]
      rfl
    show texts home flags (.string str) = _ ↔ _
    rw [representable_iff hts, hts, hargv, Except.ok.injEq, List.singleton_inj, eq_comm]
    simp only [List.mem_singleton, forall_eq]
    by_cases htilde : hasTilde flags str
    · rw [if_pos htilde, cString_take_eq_self_iff,
        Nat.le_sub_one_iff_lt (show 0 < bufferSize by decide)]
      exact and_congr_right fun _ => ⟨fun hl _ => hl, fun hl => hl htilde⟩
    · rw [if_neg htilde, cString_eq_self_iff]
      exact ⟨fun hn => ⟨hn, fun hx => absurd hx htilde⟩, And.left⟩

theorem collect_argv {rawArgs : Object} (hv : allValues isInt64 rawArgs = true) :
    OrInputError (fun c => texts home flags rawArgs = .ok c.argv ↔
      Representable home flags rawArgs) (collect home flags buffer rawArgs) := by
  cases rawArgs with
  | list items =>
    cases items with
    | nil => exact ⟨_, rfl⟩
    | cons item items => exact collect_list_argv hv
  | string str => exact collect_string_argv str buffer
  | _ => exact ⟨_, rfl⟩

end

/-- A call that starts no program throws an `input_error`. One that does gives it the texts of the
arguments, in their order, exactly when these can be represented. -/
theorem executeObject_argv_iff (home : Option Text) (spawn : List Text → Except String Child)
    (capture : Text) (buffer : Memory) (rawArgs : Object) (flags : BitVec 32)
    (hv : allValues isInt64 rawArgs = true) :
    ((executeObject home spawn capture buffer rawArgs flags).started = none →
      ∃ e, (executeObject home spawn capture buffer rawArgs flags).result = .error e ∧
        IsInputError e) ∧
    ∀ argv, (executeObject home spawn capture buffer rawArgs flags).started = some argv →
      (texts home flags rawArgs = .ok argv ↔ Representable home flags rawArgs) := by
  have hall : OrInputError (fun c => texts home flags rawArgs = .ok c.argv ↔
      Representable home flags rawArgs) (collect home flags buffer rawArgs) := collect_argv hv
  rw [executeObject]
  cases hc : collect home flags buffer rawArgs with
  | error e =>
    rw [hc] at hall
    exact ⟨fun _ => ⟨e, rfl, hall⟩, fun _ h => by cases h⟩
  | ok c =>
    rw [hc] at hall
    dsimp only
    rw [execute]
    cases spawn c.argv with
    | error errno => exact ⟨fun _ => ⟨_, rfl, _, rfl⟩, fun _ h => by cases h⟩
    | ok child =>
      refine ⟨fun h => (by cases h), ?_⟩
      intro argv h
      cases h
      exact hall

def quietProgram (_ : List Text) : Except String Child := .ok ⟨0, []⟩

def plainArguments : Object :=
  .list [.string "sh".toList, .string "~/x".toList, .list [.string "a".toList, .value (-7)]]

theorem plainArguments_passed :
    (executeObject (some "/root".toList) quietProgram [] (fun _ => 'x') plainArguments 1).started =
        some ["sh".toList, "/root/x".toList, "a-7".toList] ∧
      texts (some "/root".toList) 1 plainArguments =
        .ok ["sh".toList, "/root/x".toList, "a-7".toList] := by
  have hargv : (executeObject (some "/root".toList) quietProgram [] (fun _ => 'x') plainArguments
      1).started = some ["sh".toList, "/root/x".toList, "a-7".toList] := by decide +kernel
  refine ⟨hargv, ?_⟩
  rw [(executeObject_argv_iff (some "/root".toList) quietProgram [] (fun _ => 'x') plainArguments 1
    (by decide)).2 _ hargv]
  have hts : texts (some "/root".toList) 1 plainArguments =
      .ok ["sh".toList, "/root/x".toList, "a-7".toList] := by decide +kernel
  rw [representable_iff hts]
  have hn : ∀ t ∈ ["sh".toList, "/root/x".toList, "a-7".toList], nul ∉ t := by decide
  exact fun t ht => ⟨hn t ht, fun hx => hx.elim⟩

def longPath : Text := '~' :: '/' :: List.replicate 4096 'a'

theorem longPath_cut :
    texts (some ['/']) 1 (.string longPath) = .ok ['/' :: '/' :: List.replicate 4096 'a'] ∧
      (executeObject (some ['/']) quietProgram [] (fun _ => 'x') (.string longPath) 1).started =
        some ['/' :: '/' :: List.replicate 4093 'a'] := by
  have hstd : printObjectStd (some ['/']) 1 (.string longPath) [] =
      .ok ('/' :: '/' :: List.replicate 4096 'a') := rfl
  obtain ⟨c, hc, hargv⟩ := collectString_expanded (fun _ => 'x') (by decide) hstd
  refine ⟨?_, ?_⟩
  · show argumentTexts (some ['/']) 1 [.string longPath] = _
    rw [argumentTexts, hstd]
    rfl
  · have hcut : ('/' :: '/' :: List.replicate 4096 'a').take (bufferSize - 1) =
        '/' :: '/' :: List.replicate 4093 'a' := by
      rw [show bufferSize - 1 = 4093 + 1 + 1 from rfl, List.take_succ_cons, List.take_succ_cons,
        List.take_replicate, Nat.min_eq_left (by omega)]
    have hnul : nul ∉ '/' :: '/' :: List.replicate 4093 'a' := by
      rw [List.mem_cons, List.mem_cons, List.mem_replicate]
      decide
    rw [hcut, cString_of_not_mem hnul] at hargv
    rw [executeObject, collect, hc]
    dsimp only
    rw [execute, hargv]
    rfl

end ExecArguments
