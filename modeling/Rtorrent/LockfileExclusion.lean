import Rtorrent.DecimalText
import Rtorrent.TransitionSystems

/-! # Mutual exclusion through a lock file

Processes of one host call `try_lock` and `unlock` on one path. Reading the file, testing the
recorded pid, unlinking, creating and writing are separate steps. Inode numbers tell a lock file
from the one that replaced it. -/
namespace LockfileExclusion

open DecimalText TransitionSystems

abbrev Bytes := List UInt8

/-- A process id as `getpid` returns it. -/
structure Pid where
  val : ℕ
  pos : 0 < val
  lt : val < 2 ^ 31
  deriving DecidableEq

/-- What `gethostname` can give, within `HOST_NAME_MAX`. -/
structure Hostname where
  bytes : Bytes
  length_le : bytes.length ≤ 64

def isGraph (c : UInt8) : Bool := 33 ≤ c && c ≤ 126
def isSpace (c : UInt8) : Bool := c = 32 || (9 ≤ c && c ≤ 13)

/-- The inverse of `lockfile_valid_hostname`: a character the host name may go on with. -/
def isHostname (c : UInt8) : Bool := isGraph c && c ≠ 58

/-- Base ten, saturated at the bounds of `long long`. -/
def strtoll (s : Bytes) : ℤ :=
  match s.dropWhile isSpace with
  | 45 :: r => max (-(value (r.takeWhile isDigit) : ℤ)) (-2 ^ 63)
  | 43 :: r => min (value (r.takeWhile isDigit)) (2 ^ 63 - 1)
  | r => min (value (r.takeWhile isDigit)) (2 ^ 63 - 1)

/-- The conversion of a `long long` to `pid_t`. -/
def toPidT (n : ℤ) : ℤ := Int.bmod n (2 ^ 32)

/-- The host and the pid that the file records, or an empty host and zero. -/
def lockedBy : Option Bytes → Bytes × ℤ
  | none => ([], 0)
  | some content =>
    let first := content.take 255
    match first.dropWhile isHostname with
    | 58 :: 43 :: c :: rest =>
      if strtoll (c :: rest) = 0 then ([], 0)
      else (first.takeWhile isHostname, toPidT (strtoll (c :: rest)))
    | _ => ([], 0)

/-- Whether `kill(pid, 0)` finds a process; `EPERM` also means that there is one. -/
def kill (alive : Pid → Bool) (pid : ℤ) : Bool :=
  if h : 0 < pid.toNat ∧ pid.toNat < 2 ^ 31 then alive ⟨pid.toNat, h.1, h.2⟩ else false

/-- The test of `is_stale` on what `locked_by` returned. -/
def isStale (gethostname : Option Hostname) (alive : Pid → Bool) (process : Bytes × ℤ) : Bool :=
  0 < process.2 && gethostname.any (·.bytes = process.1) && !kill alive process.2

/-- The line that `try_lock` writes, cut off by `snprintf` where the buffer ends. -/
def lockLine (gethostname : Option Hostname) (pid : Pid) : Bytes :=
  match gethostname with
  | none => []
  | some host =>
    host.bytes ++ ([58, 43] ++ decimal pid.val ++ [10]).take (254 - host.bytes.length)

structure File where
  inode : ℕ
  content : Bytes
  deriving DecidableEq, Repr

/-- Where a process stands in `try_lock`. `held` lasts from its return to `unlock`. -/
inductive Pc where
  | idle
  | test (seen : Option ℕ) (process : Bytes × ℤ)
  | unlink (seen : Option ℕ)
  | create
  | write (inode : ℕ)
  | held (inode : ℕ)
  deriving DecidableEq, Repr

structure State where
  alive : Pid → Bool
  file : Option File
  nextInode : ℕ
  pc : Pid → Pc

def initial (alive : Pid → Bool) (content : Option Bytes) : State :=
  { alive := alive, file := content.map (File.mk 0), nextInode := 1, pc := fun _ => .idle }

inductive Action where
  | read | test | unlink | create | write | unlock | exit | spawn
  deriving DecidableEq, Repr

structure Event where
  pid : Pid
  action : Action
  deriving DecidableEq

def Enabled (s : State) (e : Event) : Prop :=
  match e.action, s.pc e.pid with
  | .spawn, _ => s.alive e.pid = false
  | .exit, _ | .read, .idle | .test, .test _ _ | .unlink, .unlink _ | .create, .create
  | .write, .write _ | .unlock, .idle | .unlock, .held _ => s.alive e.pid = true
  | _, _ => False

instance (s : State) (e : Event) : Decidable (Enabled s e) := by
  rw [Enabled]
  split <;> infer_instance

def setPc (s : State) (p : Pid) (pc : Pc) : State := { s with pc := Function.update s.pc p pc }

def next (gethostname : Option Hostname) (s : State) (e : Event) : State :=
  match e.action, s.pc e.pid with
  | .read, .idle =>
    setPc s e.pid (.test (s.file.map (·.inode)) (lockedBy (s.file.map (·.content))))
  | .test, .test seen process =>
    setPc s e.pid (if isStale gethostname s.alive process then .unlink seen else .create)
  | .unlink, .unlink _ => setPc { s with file := none } e.pid .create
  | .create, .create =>
    match s.file with
    | some _ => setPc s e.pid .idle
    | none =>
      setPc { s with file := some ⟨s.nextInode, []⟩, nextInode := s.nextInode + 1 } e.pid
        (.write s.nextInode)
  | .write, .write inode =>
    setPc
      { s with
        file := s.file.map fun f =>
          if f.inode = inode then ⟨inode, lockLine gethostname e.pid⟩ else f }
      e.pid (.held inode)
  | .unlock, _ => setPc { s with file := none } e.pid .idle
  | .exit, _ => setPc { s with alive := Function.update s.alive e.pid false } e.pid .idle
  | .spawn, _ => setPc { s with alive := Function.update s.alive e.pid true } e.pid .idle
  | _, _ => s

def machine (gethostname : Option Hostname) : Machine State Event := ⟨Enabled, next gethostname⟩

instance (gethostname : Option Hostname) (s : State) (e : Event) :
    Decidable ((machine gethostname).Enabled s e) :=
  inferInstanceAs (Decidable (Enabled s e))

def Pc.isHeld : Pc → Bool
  | .held _ => true
  | _ => false

/-- The process is alive and between a successful `try_lock` and its `unlock`. -/
def Holds (s : State) (p : Pid) : Prop := s.alive p = true ∧ (s.pc p).isHeld = true

instance (s : State) (p : Pid) : Decidable (Holds s p) := inferInstanceAs (Decidable (_ ∧ _))

/-- A stale file is unlinked only if no other file has taken its place, and only a holder calls
`unlock`. -/
def Undisturbed (s : State) (e : Event) : Prop :=
  (e.action = .unlink → ∀ f ∈ s.file, s.pc e.pid = .unlink (some f.inode)) ∧
    (e.action = .unlock → (s.pc e.pid).isHeld = true)

instance (gethostname : Option Hostname) (s : State) (e : Event) :
    Decidable (((machine gethostname).guarded Undisturbed).Enabled s e) :=
  inferInstanceAs (Decidable ((_ ∧ _) ∧ Enabled s e))

variable {c : UInt8}

theorem isDigit_iff : isDigit c = true ↔ 48 ≤ c.toNat ∧ c.toNat ≤ 57 := by
  simp [isDigit, UInt8.le_iff_toNat_le]

theorem strtoll_digits {s : Bytes} (h : isDigit c = true) :
    strtoll (c :: s) = min (value ((c :: s).takeWhile isDigit) : ℤ) (2 ^ 63 - 1) := by
  rw [isDigit_iff] at h
  have hs : isSpace c = false := by
    simp [isSpace, UInt8.le_iff_toNat_le, ← UInt8.toNat_inj]
    omega
  have hd : (c :: s).dropWhile isSpace = c :: s := by simp [hs]
  rw [strtoll]
  rw [hd]
  split
  · rename_i he
    simp only [List.cons.injEq] at he
    simp [he.1] at h
  · rename_i he
    simp only [List.cons.injEq] at he
    simp [he.1] at h
  · rfl

theorem strtoll_decimal {n : ℕ} (hp : 0 < n) (hn : n < 2 ^ 31) :
    strtoll (decimal n ++ [10]) = n := by
  obtain ⟨c, rest, hc⟩ := List.exists_cons_of_ne_nil (decimal_ne_nil hp)
  have hd : ∀ c ∈ decimal n, isDigit c = true := fun c => isDigit_of_mem_decimal
  have ht : (decimal n ++ [10]).takeWhile isDigit = decimal n := by
    rw [List.takeWhile_append_of_pos hd]
    simp [isDigit]
  rw [hc, List.cons_append, strtoll_digits (hd c (by simp [hc])), ← List.cons_append, ← hc, ht,
    value_decimal]
  omega

theorem lockLine_eq (host : Hostname) (p : Pid) :
    lockLine (some host) p = host.bytes ++ 58 :: 43 :: (decimal p.val ++ [10]) ∧
      (lockLine (some host) p).length ≤ 255 := by
  have hd : (decimal p.val).length ≤ 10 := length_decimal_le (by have := p.lt; omega)
  have hh := host.length_le
  have ht : ([58, 43] ++ decimal p.val ++ [10] : Bytes).take (254 - host.bytes.length) =
      58 :: 43 :: (decimal p.val ++ [10]) := by
    rw [List.take_of_length_le]
    · rfl
    · simp
      omega
  have he : lockLine (some host) p = host.bytes ++ 58 :: 43 :: (decimal p.val ++ [10]) := by
    simp only [lockLine, ht]
  refine ⟨he, ?_⟩
  rw [he]
  simp
  omega

theorem kill_pid (alive : Pid → Bool) (p : Pid) : kill alive (toPidT p.val) = alive p := by
  have hb : toPidT p.val = p.val := by
    rw [toPidT, Int.bmod_eq_of_le] <;> have := p.lt <;> omega
  have hp : p.val < 2147483648 := p.lt
  simp [kill, hb, p.pos, hp]

theorem takeWhile_ne {host : Bytes} (h : ¬ ∀ c ∈ host, isHostname c = true) (tail : Bytes) :
    (host ++ tail).takeWhile isHostname ≠ host := by
  induction host with
  | nil => simp at h
  | cons c host ih =>
    by_cases hc : isHostname c = true
    · have hn : ¬ ∀ c ∈ host, isHostname c = true := fun hall => h (by simpa [hc] using hall)
      simpa [hc] using ih hn
    · simp [hc]

theorem lockedBy_lockLine {host : Hostname} (h : ∀ c ∈ host.bytes, isHostname c = true)
    (p : Pid) : lockedBy (some (lockLine (some host) p)) = (host.bytes, toPidT p.val) := by
  obtain ⟨hl, hlen⟩ := lockLine_eq host p
  obtain ⟨c, rest, hc⟩ := List.exists_cons_of_ne_nil (decimal_ne_nil p.pos)
  have hs := strtoll_decimal p.pos p.lt
  have hp := p.pos
  have hdrop : (host.bytes ++ 58 :: 43 :: (decimal p.val ++ [10])).dropWhile isHostname =
      58 :: 43 :: (decimal p.val ++ [10]) := by
    rw [List.dropWhile_append_of_pos h]
    simp [isHostname]
  have htake : (host.bytes ++ 58 :: 43 :: (decimal p.val ++ [10])).takeWhile isHostname =
      host.bytes := by
    rw [List.takeWhile_append_of_pos h]
    simp [isHostname]
  rw [hc, List.cons_append] at hs hdrop htake hl
  simp only [lockedBy, List.take_of_length_le hlen]
  rw [hl, hdrop, htake]
  simp [hs]
  omega

variable {p : Pid} {alive : Pid → Bool}

theorem isStale_lockLine (gethostname : Option Hostname) (h : alive p = true) :
    isStale gethostname alive (lockedBy (some (lockLine gethostname p))) = false := by
  cases gethostname with
  | none => simp [isStale]
  | some host =>
    by_cases hall : ∀ c ∈ host.bytes, isHostname c = true
    · rw [lockedBy_lockLine hall]
      simp [isStale, kill_pid, h]
    · obtain ⟨hl, hlen⟩ := lockLine_eq host p
      have hne := takeWhile_ne hall (58 :: 43 :: (decimal p.val ++ [10]))
      simp only [lockedBy, List.take_of_length_le hlen]
      rw [hl]
      split
      · split
        · simp [isStale]
        · simp [isStale, hne.symm]
      · simp [isStale]

/-- The inode of the lock file that the process has created and not given up. -/
def owns : Pc → Option ℕ
  | .write i | .held i => some i
  | _ => none

/-- What a process goes by that has read the lock file. -/
def Knows (gethostname : Option Hostname) (s : State) : Pc → Prop
  | .test (some i) process => i < s.nextInode ∧ ∀ p, owns (s.pc p) = some i →
      process = lockedBy (some []) ∨ process = lockedBy (some (lockLine gethostname p))
  | .unlink (some i) => i < s.nextInode ∧ ∀ p, owns (s.pc p) ≠ some i
  | _ => True

structure Invariant (gethostname : Option Hostname) (s : State) : Prop where
  owned : ∀ p i, owns (s.pc p) = some i → s.alive p = true ∧ ∃ c, s.file = some ⟨i, c⟩ ∧
    (c = [] ∨ c = lockLine gethostname p)
  unique : ∀ p q i, owns (s.pc p) = some i → owns (s.pc q) = some i → p = q
  knows : ∀ q, Knows gethostname s (s.pc q)
  fresh : ∀ f ∈ s.file, f.inode < s.nextInode

theorem initial_invariant (gethostname : Option Hostname) (alive : Pid → Bool)
    (content : Option Bytes) : Invariant gethostname (initial alive content) := by
  constructor <;> simp [initial, owns, Knows]

variable {s t : State} {x : Pc} {q : Pid}

theorem setPc_cases {P : Pc → Prop}
    (h : P ((setPc s p x).pc q)) : q = p ∧ P x ∨ q ≠ p ∧ P (s.pc q) := by
  by_cases hq : q = p
  · subst hq
    exact .inl ⟨rfl, by simpa [setPc] using h⟩
  · exact .inr ⟨hq, by simpa [setPc, hq] using h⟩

variable {gethostname : Option Hostname}

/-- Only files that are new may have got an owner. -/
theorem Knows.mono (h : Knows gethostname s x) (hn : s.nextInode ≤ t.nextInode)
    (ho : ∀ q, ∀ i < s.nextInode, owns (t.pc q) = some i → owns (s.pc q) = some i) :
    Knows gethostname t x := by
  cases x with
  | test seen process | unlink seen =>
    cases seen with
    | none => trivial
    | some i => exact ⟨h.1.trans_le hn, fun q hq => h.2 q (ho q i h.1 hq)⟩
  | _ => trivial

theorem Invariant.knows_setPc (h : Invariant gethostname s) (hx : Knows gethostname s x)
    (hp : t.pc = Function.update s.pc p x) (hn : s.nextInode ≤ t.nextInode)
    (ho : ∀ q, ∀ i < s.nextInode, owns (t.pc q) = some i → owns (s.pc q) = some i) (q : Pid) :
    Knows gethostname t (t.pc q) := by
  by_cases hq : q = p
  · simpa [hp, hq] using hx.mono hn ho
  · simpa [hp, hq] using (h.knows q).mono hn ho

theorem Invariant.move (h : Invariant gethostname s) (hx : owns x = none)
    (hk : Knows gethostname s x) : Invariant gethostname (setPc s p x) := by
  have hown : ∀ q i, owns ((setPc s p x).pc q) = some i → owns (s.pc q) = some i := by
    intro q i hq
    rcases setPc_cases (P := fun pc => owns pc = some i) hq with ⟨-, he⟩ | ⟨-, he⟩
    · simp [hx] at he
    · exact he
  exact ⟨fun q i hq => h.owned q i (hown q i hq),
    fun q r i hq hr => h.unique q r i (hown q i hq) (hown r i hr),
    h.knows_setPc hk rfl (Nat.le_refl _) fun q i _ => hown q i, h.fresh⟩

theorem Invariant.remove (h : Invariant gethostname s) (hn : ∀ q, owns (s.pc q) = none) :
    Invariant gethostname { s with file := none } :=
  ⟨by simp [hn], h.unique, h.knows, by simp⟩

theorem read_invariant (p : Pid) (h : Invariant gethostname s) :
    Invariant gethostname
      (setPc s p (.test (s.file.map (·.inode)) (lockedBy (s.file.map (·.content))))) := by
  apply h.move rfl
  cases hf : s.file with
  | none => trivial
  | some f =>
    refine ⟨h.fresh f (by simp [hf]), fun q hq => ?_⟩
    obtain ⟨-, c, hc, hcontent⟩ := h.owned q _ hq
    have he : f.content = c := congrArg File.content (Option.some.inj (hf ▸ hc))
    rw [Option.map_some, he]
    exact hcontent.imp (congrArg (lockedBy ∘ some)) (congrArg (lockedBy ∘ some))

theorem isStale_empty (gethostname : Option Hostname) (alive : Pid → Bool) :
    isStale gethostname alive (lockedBy (some [])) = false := by
  simp [isStale, lockedBy]

variable {seen : Option ℕ} {process : Bytes × ℤ}

theorem test_invariant (h : Invariant gethostname s) (hp : s.pc p = .test seen process) :
    Invariant gethostname
      (setPc s p (if isStale gethostname s.alive process then .unlink seen else .create)) := by
  cases hs : isStale gethostname s.alive process with
  | false => exact h.move rfl trivial
  | true =>
    apply h.move rfl
    have hk := h.knows p
    rw [hp] at hk
    cases seen with
    | none => trivial
    | some i =>
      refine ⟨hk.1, fun q hq => ?_⟩
      obtain ⟨ha, -⟩ := h.owned q i hq
      rcases hk.2 q hq with rfl | rfl
      · simp [isStale_empty] at hs
      · simp [isStale_lockLine gethostname ha] at hs

theorem unlink_invariant (h : Invariant gethostname s)
    (hf : ∀ f ∈ s.file, s.pc p = .unlink (some f.inode)) :
    Invariant gethostname (setPc { s with file := none } p .create) := by
  have hn : ∀ q, owns (s.pc q) = none := by
    intro q
    by_contra hq
    obtain ⟨i, hi⟩ := Option.ne_none_iff_exists'.mp hq
    obtain ⟨-, c, hc, -⟩ := h.owned q i hi
    have hk := h.knows p
    rw [hf ⟨i, c⟩ (by simp [hc])] at hk
    exact hk.2 q hi
  exact (h.remove hn).move rfl trivial

theorem create_invariant (h : Invariant gethostname s) (hp : s.alive p = true)
    (hf : s.file = none) :
    Invariant gethostname
      (setPc { s with file := some ⟨s.nextInode, []⟩, nextInode := s.nextInode + 1 } p
        (.write s.nextInode)) := by
  have hown : ∀ q i, owns ((setPc s p (.write s.nextInode)).pc q) = some i →
      q = p ∧ i = s.nextInode := by
    intro q i hq
    rcases setPc_cases (P := fun pc => owns pc = some i) hq with ⟨rfl, he⟩ | ⟨-, he⟩
    · exact ⟨rfl, (Option.some.inj he).symm⟩
    · obtain ⟨-, c, hc, -⟩ := h.owned q i he
      simp [hf] at hc
  refine ⟨?_, ?_, h.knows_setPc (x := .write _) trivial rfl (Nat.le_succ _) ?_, by simp [setPc]⟩
  · intro q i hq
    obtain ⟨rfl, rfl⟩ := hown q i hq
    exact ⟨hp, [], rfl, .inl rfl⟩
  · intro q r i hq hr
    rw [(hown q i hq).1, (hown r i hr).1]
  · intro q i hi hq
    exact absurd (hown q i hq).2 (Nat.ne_of_lt hi)

variable {i : ℕ}

theorem write_invariant (h : Invariant gethostname s) (hp : s.pc p = .write i) :
    Invariant gethostname
      (setPc
        { s with
          file := s.file.map fun f => if f.inode = i then ⟨i, lockLine gethostname p⟩ else f }
        p (.held i)) := by
  have hpo : owns (s.pc p) = some i := by rw [hp]; rfl
  obtain ⟨ha, c, hc, -⟩ := h.owned p i hpo
  have hown : ∀ q j, owns ((setPc s p (.held i)).pc q) = some j → owns (s.pc q) = some j := by
    intro q j hq
    rcases setPc_cases (P := fun pc => owns pc = some j) hq with ⟨rfl, he⟩ | ⟨-, he⟩
    · exact hpo.trans he
    · exact he
  constructor
  · intro q j hq
    have ho := hown q j hq
    obtain ⟨-, c', hc', -⟩ := h.owned q j ho
    obtain ⟨rfl, -⟩ : j = i ∧ c' = c := by simpa [hc, eq_comm] using hc'
    obtain rfl := h.unique p q j hpo ho
    exact ⟨ha, lockLine gethostname p, by simp [setPc, hc], .inr rfl⟩
  · intro q r j hq hr
    exact h.unique q r j (hown q j hq) (hown r j hr)
  · exact h.knows_setPc (x := .held i) trivial rfl (Nat.le_refl _) fun q j _ => hown q j
  · simpa [setPc, hc] using h.fresh ⟨i, c⟩ (by simp [hc])

theorem unlock_invariant (h : Invariant gethostname s) (hp : s.pc p = .held i) :
    Invariant gethostname (setPc { s with file := none } p .idle) := by
  have hpo : owns (s.pc p) = some i := by rw [hp]; rfl
  obtain ⟨-, c, hc, -⟩ := h.owned p i hpo
  have hn : ∀ q, owns ((setPc s p .idle).pc q) = none := by
    intro q
    by_contra hq
    obtain ⟨j, hj⟩ := Option.ne_none_iff_exists'.mp hq
    rcases setPc_cases (P := fun pc => owns pc = some j) hj with ⟨-, he⟩ | ⟨hne, he⟩
    · cases he
    · obtain ⟨-, c', hc', -⟩ := h.owned q j he
      obtain ⟨rfl, -⟩ : j = i ∧ c' = c := by simpa [hc, eq_comm] using hc'
      exact hne (h.unique q p j he hpo)
  exact (h.move (p := p) (x := .idle) rfl trivial).remove hn

theorem Invariant.setAlive (p : Pid) (b : Bool) (h : Invariant gethostname s) :
    Invariant gethostname
      (setPc { s with alive := Function.update s.alive p b } p .idle) := by
  obtain ⟨ho, hu, hk, hf⟩ := h.move (p := p) (x := .idle) rfl trivial
  refine ⟨?_, hu, hk, hf⟩
  intro q i hq
  obtain ⟨ha, hc⟩ := ho q i hq
  rcases setPc_cases (P := fun pc => owns pc = some i) hq with ⟨-, he⟩ | ⟨hne, -⟩
  · cases he
  · exact ⟨by simpa [setPc, hne] using ha, hc⟩

theorem step_preserves_invariant {t : State} {e : Event}
    (h : Invariant gethostname s) (hg : Undisturbed s e)
    (hs : (machine gethostname).system.Step s e t) : Invariant gethostname t := by
  rcases hs with ⟨he, rfl⟩
  rcases e with ⟨p, action⟩
  have he : Enabled s ⟨p, action⟩ := he
  change Invariant gethostname (next gethostname s ⟨p, action⟩)
  cases action with
  | spawn => exact h.setAlive p true
  | exit => exact h.setAlive p false
  | read =>
    cases hp : s.pc p <;> simp only [Enabled, hp] at he
    simpa only [next, hp] using read_invariant p h
  | test =>
    cases hp : s.pc p <;> simp only [Enabled, hp] at he
    simpa only [next, hp] using test_invariant h hp
  | unlink =>
    cases hp : s.pc p <;> simp only [Enabled, hp] at he
    simpa only [next, hp] using unlink_invariant h (hg.1 rfl)
  | create =>
    cases hp : s.pc p <;> simp only [Enabled, hp] at he
    cases hf : s.file with
    | none => simpa only [next, hp, hf] using create_invariant h he hf
    | some f => simpa only [next, hp, hf] using h.move (x := .idle) rfl trivial
  | write =>
    cases hp : s.pc p <;> simp only [Enabled, hp] at he
    simpa only [next, hp] using write_invariant h hp
  | unlock =>
    have hh := hg.2 rfl
    cases hp : s.pc p <;> simp only [hp, Pc.isHeld, Bool.false_eq_true] at hh
    simpa only [next, hp] using unlock_invariant h hp

theorem reachable_invariant {content : Option Bytes}
    (h : Reachable ((machine gethostname).guarded Undisturbed).system (initial alive content) s) :
    Invariant gethostname s :=
  h.invariant (initial_invariant gethostname alive content) fun _ _ _ hi hs =>
    step_preserves_invariant hi hs.1.1 ⟨hs.1.2, hs.2⟩

/-- At most one live process holds the lock. -/
theorem holder_unique {gethostname : Option Hostname} {alive : Pid → Bool}
    {content : Option Bytes} {s : State}
    (h : Reachable ((machine gethostname).guarded Undisturbed).system (initial alive content) s)
    {p q : Pid} (hp : Holds s p) (hq : Holds s q) : p = q := by
  have hi := reachable_invariant h
  have held : ∀ r, Holds s r → ∃ i, owns (s.pc r) = some i := by
    intro r hr
    cases hc : s.pc r with
    | held i => exact ⟨i, rfl⟩
    | _ => simp [Holds, hc, Pc.isHeld] at hr
  obtain ⟨i, hpi⟩ := held p hp
  obtain ⟨j, hqj⟩ := held q hq
  obtain ⟨-, c, hc, -⟩ := hi.owned p i hpi
  obtain ⟨-, c', hc', -⟩ := hi.owned q j hqj
  obtain ⟨rfl, -⟩ : j = i ∧ c' = c := by simpa [hc, eq_comm] using hc'
  exact hi.unique p q j hpi hqj

def localhost : Hostname := ⟨[104], by decide⟩
def first : Pid := ⟨1, by decide, by decide⟩
def second : Pid := ⟨2, by decide, by decide⟩

def staleLine : Bytes := [104, 58, 43, 57, 10]

def stale : State := initial (fun p => p.val ≤ 2) (some staleLine)

def acts (p : Pid) (actions : List Action) : List Event := actions.map (Event.mk p)

/-- The first process takes the stale lock over and the second one fails. -/
def takeoverRun : List Event :=
  acts first [.read, .test, .unlink, .create, .write] ++ acts second [.read, .test, .create]

theorem takeoverRun_holder :
    Holds ((machine (some localhost)).replay stale takeoverRun) first ∧
      ∀ p, Holds ((machine (some localhost)).replay stale takeoverRun) p → p = first := by
  have ha : ((machine (some localhost)).guarded Undisturbed).Accepts stale takeoverRun := by
    decide +kernel
  have hf : Holds ((machine (some localhost)).replay stale takeoverRun) first := by
    decide +kernel
  exact ⟨hf, fun p hp => holder_unique ⟨_, ha.execution⟩ hp hf⟩

/-- Nobody removes or replaces the lock file of a holder, or is about to. -/
theorem held_file_kept {gethostname : Option Hostname} {alive : Pid → Bool}
    {content : Option Bytes} {s : State}
    (h : Reachable ((machine gethostname).guarded Undisturbed).system (initial alive content) s)
    {p : Pid} {i : ℕ} (hp : s.pc p = .held i) :
    (∃ c, s.file = some ⟨i, c⟩ ∧ (c = [] ∨ c = lockLine gethostname p)) ∧
      ∀ q, s.pc q ≠ .unlink (some i) := by
  have hi := reachable_invariant h
  have ho : owns (s.pc p) = some i := by rw [hp]; rfl
  refine ⟨(hi.owned p i ho).2, fun q hq => ?_⟩
  have hk := hi.knows q
  rw [hq] at hk
  exact hk.2 p ho

theorem takeoverRun_file : ∃ c,
    ((machine (some localhost)).replay stale takeoverRun).file = some ⟨1, c⟩ ∧
      (c = [] ∨ c = lockLine (some localhost) first) := by
  have ha : ((machine (some localhost)).guarded Undisturbed).Accepts stale takeoverRun := by
    decide +kernel
  exact (held_file_kept ⟨_, ha.execution⟩ (by decide +kernel)).1

/-- Both processes find the file stale and the second one unlinks the first one's lock. -/
def staleRaceRun : List Event :=
  acts first [.read, .test] ++ acts second [.read, .test] ++
  acts first [.unlink, .create, .write] ++ acts second [.unlink, .create, .write]

/-- The second process calls `unlock` on a lock that it does not hold. -/
def strangerUnlockRun : List Event :=
  acts first [.read, .test, .unlink, .create, .write] ++
  acts second [.unlock, .read, .test, .create, .write]

theorem two_holders : first ≠ second ∧ ∀ run ∈ [staleRaceRun, strangerUnlockRun],
    (machine (some localhost)).Accepts stale run ∧
      Holds ((machine (some localhost)).replay stale run) first ∧
      Holds ((machine (some localhost)).replay stale run) second := by
  decide +kernel

end LockfileExclusion
