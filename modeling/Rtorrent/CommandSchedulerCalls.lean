import Rtorrent.CommandScheduler

/-! # The item of a command that changes the scheduler

The command of an item can remove the item or put another one in its place. After such a command
`call_item` still uses its pointer. -/
namespace CommandSchedulerCalls

open FallibleRuns RpcTextParser CommandScheduler

def owners (s : Scheduler) : List (ItemId × Text) := s.items.map fun p => (p.1, p.2.key)

variable {s : Scheduler} {id : ItemId}

theorem contains_iff : s.contains id ↔ ∃ key, (id, key) ∈ owners s := by
  constructor
  · intro h
    obtain ⟨p, hp, rfl⟩ := List.mem_map.mp h
    exact ⟨p.2.key, List.mem_map.mpr ⟨p, hp, rfl⟩⟩
  · rintro ⟨key, h⟩
    obtain ⟨p, hp, he⟩ := List.mem_map.mp h
    exact List.mem_map.mpr ⟨p, hp, congrArg Prod.fst he⟩

variable {it : Item}

theorem owners_of_item (h : s.item id = some it) :
    (id, it.key) ∈ owners s := List.mem_map.mpr ⟨_, s.item_mem h, rfl⟩

variable {key : Text}

theorem owners_fresh (h : (id, key) ∈ owners s) : id < s.nextId := by
  obtain ⟨p, hp, he⟩ := List.mem_map.mp h
  cases he
  exact s.fresh p hp

theorem owners_named (h : (id, key) ∈ owners s) : key ≠ [] := by
  obtain ⟨p, hp, he⟩ := List.mem_map.mp h
  cases he
  exact s.named p hp

theorem find_ne_none (h : (id, key) ∈ owners s) : s.find key ≠ none := by
  obtain ⟨p, hp, he⟩ := List.mem_map.mp h
  intro hn
  exact List.find?_eq_none.mp hn p hp (by simpa using congrArg Prod.snd he)

theorem owners_change (s : Scheduler) (id : ItemId) (c : Change) :
    owners (s.change id c) = owners s := by
  simp [owners, Scheduler.change, changed_id, changed_key]

variable {k : Text}

theorem mem_owners_eraseStr : (id, k) ∈ owners (s.eraseStr key) ↔ (id, k) ∈ owners s ∧ k ≠ key := by
  simp only [owners, Scheduler.eraseStr, List.mem_map, List.mem_filter, decide_eq_true_eq]
  constructor
  · rintro ⟨p, ⟨hp, hk⟩, he⟩
    cases he
    exact ⟨⟨p, hp, rfl⟩, hk⟩
  · rintro ⟨⟨p, hp, he⟩, hk⟩
    cases he
    exact ⟨p, ⟨hp, hk⟩, rfl⟩

theorem insert_mem (hn : key ≠ []) (s : Scheduler) :
    ∃ t, Scheduler.insert key s = (.ok s.nextId, t) ∧ t.nextId = s.nextId + 1 ∧
      ∀ p, p ∈ t.items ↔ p = (s.nextId, .new key) ∨ (p ∈ s.items ∧ p.2.key ≠ key) := by
  by_cases hk : s.find key = none
  · refine ⟨s.append key hk hn, by simp [Scheduler.insert, hn, hk], rfl, fun p => ?_⟩
    have hne : ∀ p ∈ s.items, p.2.key ≠ key := by simpa [Scheduler.find] using hk
    rw [Scheduler.append, List.mem_append, List.mem_singleton, or_comm]
    exact or_congr_right ⟨fun h => ⟨h, hne p h⟩, And.left⟩
  · refine ⟨s.replace key, by simp [Scheduler.insert, hn, hk], rfl, fun p => ?_⟩
    rw [Scheduler.replace, List.mem_map]
    constructor
    · rintro ⟨q, hq, rfl⟩
      rw [replaced]
      split
      · exact .inl rfl
      · rename_i hne
        exact .inr ⟨hq, hne⟩
    · rintro (rfl | ⟨hp, hne⟩)
      · obtain ⟨q, hq⟩ := Option.ne_none_iff_exists'.mp hk
        have hqk : q.2.key = key := by simpa using List.find?_some hq
        exact ⟨q, List.mem_of_find?_eq_some hq, if_pos hqk⟩
      · exact ⟨p, hp, if_neg hne⟩

theorem insert_owners (hn : key ≠ []) (s : Scheduler) :
    ∃ t, Scheduler.insert key s = (.ok s.nextId, t) ∧ t.nextId = s.nextId + 1 ∧
      ∀ id k, (id, k) ∈ owners t ↔
        (id = s.nextId ∧ k = key) ∨ ((id, k) ∈ owners s ∧ k ≠ key) := by
  obtain ⟨t, ht, hd, hm⟩ := insert_mem hn s
  refine ⟨t, ht, hd, fun id k => ?_⟩
  simp only [owners, List.mem_map, hm]
  constructor
  · rintro ⟨p, rfl | ⟨hp, hne⟩, he⟩
    · cases he
      exact .inl ⟨rfl, rfl⟩
    · cases he
      exact .inr ⟨⟨p, hp, rfl⟩, hne⟩
  · rintro (⟨rfl, rfl⟩ | ⟨⟨p, hp, he⟩, hne⟩)
    · exact ⟨_, .inl rfl, rfl⟩
    · cases he
      exact ⟨p, .inr ⟨hp, hne⟩, rfl⟩

/-- The text arguments and the command pass every check of `parse` before `insert`. -/
def Parses (clock : Clock) (bufAbsolute bufInterval : Text) (command : Object) : Prop :=
  isCommand command = true ∧ (parseAbsolute clock bufAbsolute).isOk = true ∧
    (parseInterval bufInterval).isOk = true

instance (clock : Clock) (bufAbsolute bufInterval : Text) (command : Object) :
    Decidable (Parses clock bufAbsolute bufInterval command) :=
  inferInstanceAs (Decidable (_ ∧ _ ∧ _))

theorem enable_ok {t : ℕ} (ht : 0 < t) (hi : s.item id = some it) :
    enable id t s = (.ok (),
      s.change id ⟨fun it => { it with timeScheduled := t, isQueued := true }, fun _ => rfl⟩) := by
  have hd : deref .enable id s = (.ok it, s) := by rw [deref, hi]
  rw [enable, if_neg (Nat.ne_of_gt ht)]
  beta_reduce
  rw [Run.bind_of_ok hd]
  rfl

theorem enable_state (id : ItemId) (t : ℕ) (s : Scheduler) :
    (enable id t s).2 = s ∨ ∃ c, (enable id t s).2 = s.change id c := by
  by_cases ht : t = 0
  · simp [enable, ht, throwing, Run.fail, Run.bind_apply]
  cases hi : s.item id with
  | none => simp [enable, ht, deref, hi, Run.bind_apply]
  | some it =>
    rw [enable_ok (Nat.pos_of_ne_zero ht) hi]
    exact .inr ⟨_, rfl⟩

theorem enable_owners (id : ItemId) (t : ℕ) (s : Scheduler) :
    owners (enable id t s).2 = owners s ∧ (enable id t s).2.nextId = s.nextId := by
  rcases enable_state id t s with he | ⟨c, he⟩
  · rw [he]
    exact ⟨rfl, rfl⟩
  · rw [he]
    exact ⟨owners_change s id c, rfl⟩

theorem isOk_iff {ε α : Type} {r : Except ε α} : r.isOk = true ↔ ∃ a, r = .ok a := by
  cases r with
  | error e => simp [Except.isOk, Except.toBool]
  | ok a => simp [Except.isOk, Except.toBool]

variable {clock : Clock} {bufAbsolute bufInterval : Text} {command : Object}

theorem Parses.times (h : Parses clock bufAbsolute bufInterval command) :
    ∃ absolute interval, parseAbsolute clock bufAbsolute = .ok absolute ∧
      parseInterval bufInterval = .ok interval := by
  obtain ⟨absolute, ha⟩ := isOk_iff.mp h.2.1
  obtain ⟨interval, hi⟩ := isOk_iff.mp h.2.2
  exact ⟨absolute, interval, ha, hi⟩

theorem parse_ok {absolute interval : ℕ} (key : Text) (hc : isCommand command = true)
    (ha : parseAbsolute clock bufAbsolute = .ok absolute)
    (hi : parseInterval bufInterval = .ok interval) :
    parse clock key bufAbsolute bufInterval command = (do
      let id ← Scheduler.insert key
      change id ⟨fun it => { it with command := command, interval := interval }, fun _ => rfl⟩
      enable id (ceilSeconds (clock.cachedTime + absolute * second))) := by
  rw [parse, if_neg (by simp [hc]), ha, hi]
  beta_reduce
  rw [ofParser_ok_bind, ofParser_ok_bind]

theorem parse_refused
    (h : ¬(Parses clock bufAbsolute bufInterval command ∧ key ≠ [])) (s : Scheduler) :
    ∃ e, parse clock key bufAbsolute bufInterval command s = (.error (.thrown e), s) := by
  cases hc : isCommand command with
  | false =>
    exact ⟨.error .inputError "Invalid type passed to command scheduler.", by
      simp [parse, hc, throwing, Run.fail, Run.bind_apply]⟩
  | true =>
    cases ha : parseAbsolute clock bufAbsolute with
    | error e =>
      exact ⟨e, by
        simp [parse, hc, ha, ofParser, Except.mapError, Run.ofExcept, Run.fail, Run.bind_apply]⟩
    | ok absolute =>
      cases hi : parseInterval bufInterval with
      | error e =>
        exact ⟨e, by
          simp [parse, hc, ha, hi, ofParser, Except.mapError, Run.ofExcept, Run.fail,
            Run.bind_apply, Run.pure_apply]⟩
      | ok interval =>
        have hn : key = [] := by
          by_contra hn
          exact h ⟨⟨hc, by rw [ha]; rfl, by rw [hi]; rfl⟩, hn⟩
        rw [parse_ok key hc ha hi]
        exact ⟨.error .inputError "Scheduler received an empty key.", by
          simp [hn, Scheduler.insert, throwing, Run.fail, Run.bind_apply]⟩

theorem parse_accepted
    (h : Parses clock bufAbsolute bufInterval command) (hn : key ≠ []) (s : Scheduler) :
    (parse clock key bufAbsolute bufInterval command s).2.nextId = s.nextId + 1 ∧
      ∀ id k, (id, k) ∈ owners (parse clock key bufAbsolute bufInterval command s).2 ↔
        (id = s.nextId ∧ k = key) ∨ ((id, k) ∈ owners s ∧ k ≠ key) := by
  obtain ⟨absolute, interval, ha, hi⟩ := h.times
  obtain ⟨t, ht, hd, ho⟩ := insert_owners hn s
  have he := enable_owners s.nextId (ceilSeconds (clock.cachedTime + absolute * second))
    (t.change s.nextId ⟨fun it => { it with command := command, interval := interval },
      fun _ => rfl⟩)
  rw [parse_ok key h.1 ha hi, Run.bind_of_ok ht, change_bind, he.1, he.2, owners_change]
  exact ⟨hd, ho⟩

def Evicts (clock : Clock) (key : Text) : Command → Prop
  | .scheduleRemove k => k = key
  | .schedule ifAbsent [.string k, .string bufAbsolute, .string bufInterval, command] =>
    ifAbsent = false ∧ k = key ∧ Parses clock bufAbsolute bufInterval command
  | _ => False

/-- The owner of a key stays unless the call deletes it, and an item that was not there before has
a new number. -/
structure Moves (clock : Clock) (c : Command) (s t : Scheduler) : Prop where
  kept : ∀ id key, (id, key) ∈ owners s → ((id, key) ∈ owners t ↔ ¬Evicts clock key c)
  new : ∀ id key, (id, key) ∈ owners t → (id, key) ∈ owners s ∨ s.nextId ≤ id
  nextId : s.nextId ≤ t.nextId

theorem moves_refl {c : Command}
    (h : ∀ id key, (id, key) ∈ owners s → ¬Evicts clock key c) : Moves clock c s s :=
  ⟨fun id key hk => ⟨fun _ => h id key hk, fun _ => hk⟩, fun _ _ hk => .inl hk, Nat.le_refl _⟩

theorem scheduleRemove_moves (clock : Clock) (key : Text) (s : Scheduler) :
    Moves clock (.scheduleRemove key) s (s.eraseStr key) := by
  constructor
  · intro id k hk
    rw [mem_owners_eraseStr]
    exact ⟨fun h he => h.2 he.symm, fun h => ⟨hk, fun he => h he.symm⟩⟩
  · intro id k hk
    exact .inl (mem_owners_eraseStr.mp hk).1
  · exact Nat.le_refl _

theorem parse_moves (clock : Clock) (key bufAbsolute bufInterval : Text) (command : Object)
    (s : Scheduler) :
    Moves clock (.schedule false [.string key, .string bufAbsolute, .string bufInterval, command])
      s (parse clock key bufAbsolute bufInterval command s).2 := by
  by_cases h : Parses clock bufAbsolute bufInterval command ∧ key ≠ []
  · obtain ⟨hn, ho⟩ := parse_accepted h.1 h.2 s
    constructor
    · intro id k hk
      have hid : id ≠ s.nextId := Nat.ne_of_lt (owners_fresh hk)
      rw [ho]
      constructor
      · rintro (⟨he, -⟩ | ⟨-, hne⟩) hev
        · exact hid he
        · exact hne hev.2.1.symm
      · intro hev
        exact .inr ⟨hk, fun he => hev ⟨rfl, he.symm, h.1⟩⟩
    · intro id k hk
      rcases (ho id k).mp hk with ⟨rfl, -⟩ | ⟨hk, -⟩
      · exact .inr (Nat.le_refl _)
      · exact .inl hk
    · rw [hn]
      exact Nat.le_succ _
  · obtain ⟨e, he⟩ := parse_refused h s
    rw [he]
    refine moves_refl ?_
    rintro id k hk ⟨-, rfl, hp⟩
    exact h ⟨hp, owners_named hk⟩

theorem applySchedule_refused {args : List Object}
    (h : ¬∃ k a i c, args = [.string k, .string a, .string i, c]) (clock : Clock)
    (ifAbsent : Bool) (s : Scheduler) :
    ∃ e, applySchedule clock ifAbsent args s = (.error (.thrown e), s) := by
  rcases args with _ | ⟨arg1, _ | ⟨arg2, _ | ⟨arg3, _ | ⟨command, _ | _⟩⟩⟩⟩
  case cons.cons.cons.cons.nil =>
    cases h1 : asString arg1 with
    | error e => exact ⟨e, by rw [applySchedule, h1, Run.bind_of_error (ofParser_error e s)]⟩
    | ok key =>
      rw [applySchedule, h1, ofParser_ok_bind]
      cases h2 : asString arg2 with
      | error e => exact ⟨e, by rw [Run.bind_of_error (ofParser_error e s)]⟩
      | ok bufAbsolute =>
        rw [ofParser_ok_bind]
        cases h3 : asString arg3 with
        | error e => exact ⟨e, by rw [Run.bind_of_error (ofParser_error e s)]⟩
        | ok bufInterval =>
          rw [asString_ok h1, asString_ok h2, asString_ok h3] at h
          exact absurd ⟨_, _, _, _, rfl⟩ h
  all_goals exact ⟨_, rfl⟩

theorem applySchedule_strings (clock : Clock) (ifAbsent : Bool)
    (key bufAbsolute bufInterval : Text) (command : Object) (s : Scheduler) :
    applySchedule clock ifAbsent [.string key, .string bufAbsolute, .string bufInterval, command]
      s = if ifAbsent = true ∧ s.find key ≠ none then (.ok (), s)
        else parse clock key bufAbsolute bufInterval command s := by
  rw [applySchedule, asString, asString, asString, ofParser_ok_bind, ofParser_ok_bind,
    ofParser_ok_bind, Run.get_bind]
  split <;> rfl

theorem schedule_moves (clock : Clock) (ifAbsent : Bool) (args : List Object) (s : Scheduler) :
    Moves clock (.schedule ifAbsent args) s (applySchedule clock ifAbsent args s).2 := by
  by_cases h : ∃ k a i c, args = [.string k, .string a, .string i, c]
  · obtain ⟨key, bufAbsolute, bufInterval, command, rfl⟩ := h
    rw [applySchedule_strings]
    have hp := parse_moves clock key bufAbsolute bufInterval command s
    cases ifAbsent with
    | false => simpa using hp
    | true =>
      by_cases hk : s.find key = none
      · simp only [hk, ne_eq, not_true_eq_false, and_false, ↓reduceIte]
        refine ⟨?_, hp.new, hp.nextId⟩
        intro id k ho
        have hne : k ≠ key := by
          rintro rfl
          exact find_ne_none ho hk
        rw [hp.kept id k ho]
        exact iff_of_true (fun he => hne he.2.1.symm) fun he => nomatch he.1
      · simp only [hk, ne_eq, not_false_eq_true, and_self, ↓reduceIte]
        exact moves_refl fun _ _ _ he => nomatch he.1
  · obtain ⟨e, hr⟩ := applySchedule_refused h clock ifAbsent s
    rw [hr]
    refine moves_refl fun id key _ he => ?_
    rw [Evicts.eq_def] at he
    split at he
    · rename_i heq
      cases heq
    · rename_i heq
      cases heq
      exact h ⟨_, _, _, _, rfl⟩
    · exact he

theorem perform_moves (clock : Clock) (c : Command) (s : Scheduler) :
    Moves clock c s (perform clock s c) := by
  cases c with
  | schedule ifAbsent args => exact schedule_moves clock ifAbsent args s
  | scheduleRemove key => exact scheduleRemove_moves clock key s

theorem fold_not_contains {calls : List Command} (h : ¬s.contains id) (hid : id < s.nextId) :
    ¬(calls.foldl (perform clock) s).contains id := by
  induction calls generalizing s with
  | nil => exact h
  | cons c cs ih =>
    have hm := perform_moves clock c s
    refine ih ?_ (Nat.lt_of_lt_of_le hid hm.nextId)
    intro hc
    obtain ⟨key, hk⟩ := contains_iff.mp hc
    rcases hm.new id key hk with hk | hle
    · exact h (contains_iff.mpr ⟨key, hk⟩)
    · exact absurd hid (Nat.not_lt.mpr hle)

theorem owners_key_unique {l : Text} (hk : (id, k) ∈ owners s)
    (hl : (id, l) ∈ owners s) : k = l := by
  obtain ⟨p, hp, he⟩ := List.mem_map.mp hk
  obtain ⟨q, hq, hf⟩ := List.mem_map.mp hl
  cases he
  have hi : q.1 = p.1 := (Prod.mk.inj hf).1
  rw [s.eq_of_id hp hq hi.symm]
  exact congrArg Prod.snd hf

theorem fold_contains {calls : List Command} (h : (id, key) ∈ owners s) :
    (calls.foldl (perform clock) s).contains id ↔ ∀ c ∈ calls, ¬Evicts clock key c := by
  induction calls generalizing s with
  | nil => simpa using contains_iff.mpr ⟨key, h⟩
  | cons c cs ih =>
    have hm := perform_moves clock c s
    rw [List.foldl_cons, List.forall_mem_cons]
    by_cases he : Evicts clock key c
    · have hn : ¬(perform clock s c).contains id := by
        intro hc
        obtain ⟨k, hk⟩ := contains_iff.mp hc
        rcases hm.new id k hk with hs | hle
        · rw [owners_key_unique hs h] at hk
          exact (hm.kept id key h).mp hk he
        · exact absurd (owners_fresh h) (Nat.not_lt.mpr hle)
      have hid : id < (perform clock s c).nextId := Nat.lt_of_lt_of_le (owners_fresh h) hm.nextId
      exact iff_of_false (fold_not_contains hn hid) fun hk => hk.1 he
    · rw [ih ((hm.kept id key h).mpr he)]
      exact ⟨fun hc => ⟨he, hc⟩, And.right⟩

theorem callItem_eq (hi : s.item id = some it)
    (hq : it.isQueued = false) (clock : Clock) (report : Bool) (b : Behaviour) :
    callItem clock report id b s =
      (Run.handle (b.run clock) (onError report id) >>= fun _ => reschedule clock id) s := by
  have hd : deref .isQueued id s = (.ok it, s) := by rw [deref, hi]
  have hc : s.contains id := contains_iff.mpr ⟨_, owners_of_item hi⟩
  rw [callItem, Run.bind_of_ok hd, if_neg (by simp [hq])]
  beta_reduce
  rw [Run.get_bind, if_neg (not_not.mpr hc)]

theorem deref_gone (h : ¬s.contains id) (access : Access) :
    deref access id s = (.error (.dangling access), s) := by
  rw [deref, Scheduler.item_eq_none.mpr h]

theorem reschedule_gone (h : ¬s.contains id) (clock : Clock) :
    reschedule clock id s = (.error (.dangling .nextTimeScheduled), s) := by
  have hn : nextTimeScheduled clock id s = (.error (.dangling .nextTimeScheduled), s) := by
    rw [nextTimeScheduled, Run.bind_of_error (deref_gone h _)]
  rw [reschedule, Run.bind_of_error hn]

def Uncaught (b : Behaviour) : Prop :=
  ∃ kind what, b.ending = some (kind, what) ∧ isInputError kind = false

/-- If the item is gone after its command, `call_item` neither uses it nor changes the scheduler.
-/
def Untouched (clock : Clock) (report : Bool) (s : Scheduler) (id : ItemId) (b : Behaviour) :
    Prop :=
  ¬(b.state clock s).contains id →
    (∀ access, (callItem clock report id b s).1 ≠ .error (.dangling access)) ∧
      (callItem clock report id b s).2 = b.state clock s

theorem callItem_uncaught {b : Behaviour}
    (hi : s.item id = some it) (hq : it.isQueued = false) (hu : Uncaught b) (clock : Clock)
    (report : Bool) : ∃ f, callItem clock report id b s =
      (.error (.thrown f), b.state clock s) := by
  obtain ⟨kind, what, he, hk⟩ := hu
  refine ⟨.error kind what, ?_⟩
  rw [callItem_eq hi hq]
  refine Run.bind_of_error ?_ _
  simp [Run.handle, Behaviour.run, Behaviour.result, he, onError, hk, throwing, Run.fail]

theorem callItem_gone {b : Behaviour}
    (hi : s.item id = some it) (hq : it.isQueued = false) (hu : ¬Uncaught b)
    (hg : ¬(b.state clock s).contains id) (report : Bool) :
    ∃ access, (callItem clock report id b s).1 = .error (.dangling access) := by
  rw [callItem_eq hi hq]
  cases he : b.ending with
  | none =>
    have hh : Run.handle (b.run clock) (onError report id) s = (.ok (), b.state clock s) := by
      simp [Run.handle, Behaviour.run, Behaviour.result, he]
    rw [Run.bind_of_ok hh, reschedule_gone hg]
    exact ⟨_, rfl⟩
  | some e =>
    rcases e with ⟨kind, what⟩
    have hk : isInputError kind = true := by
      by_contra hk
      exact hu ⟨kind, what, he, by simpa using hk⟩
    cases report with
    | true =>
      have hh : Run.handle (b.run clock) (onError true id) s =
          (.error (.dangling .key), b.state clock s) := by
        simp [Run.handle, Behaviour.run, Behaviour.result, he, onError, hk,
          Run.bind_of_error (deref_gone hg _)]
      rw [Run.bind_of_error hh]
      exact ⟨_, rfl⟩
    | false =>
      have hh : Run.handle (b.run clock) (onError false id) s = (.ok (), b.state clock s) := by
        simp [Run.handle, Behaviour.run, Behaviour.result, he, onError, hk, Run.pure_apply]
      rw [Run.bind_of_ok hh, reschedule_gone hg]
      exact ⟨_, rfl⟩

/-- `call_item` keeps away from an item that its command removed or replaced exactly when the
command does not do so, or ends with an exception that is passed on. -/
theorem callItem_untouched_iff {s : Scheduler} {id : ItemId} {it : Item}
    (hi : s.item id = some it) (hq : it.isQueued = false) (clock : Clock) (report : Bool)
    (b : Behaviour) : Untouched clock report s id b ↔
      (∀ c ∈ b.calls, ¬Evicts clock it.key c) ∨ Uncaught b := by
  rw [← fold_contains (owners_of_item hi)]
  constructor
  · intro h
    by_contra hn
    rw [not_or] at hn
    obtain ⟨access, ha⟩ := callItem_gone hi hq hn.2 hn.1 report
    exact (h hn.1).1 access ha
  · rintro (hc | hu) hg
    · exact absurd hc hg
    · obtain ⟨f, hf⟩ := callItem_uncaught hi hq hu clock report
      rw [hf]
      exact ⟨fun _ => nofun, rfl⟩

def dueClock : Clock := ⟨5000000, none⟩

def dueItem : Scheduler :=
  Scheduler.fire (parse dueClock ['a'] ['0'] ['6', '0'] (.string ['b']) .empty).2 0

/-- The command removes its own item and then throws what `call_item` passes on. -/
def removesAndThrows : Behaviour := ⟨[.scheduleRemove ['a']], some (.localError, "closed")⟩

theorem callItem_untouched_uncaught :
    ¬(removesAndThrows.state dueClock dueItem).contains 0 ∧
      Untouched dueClock true dueItem 0 removesAndThrows := by
  refine ⟨by decide +kernel, ?_⟩
  exact (@callItem_untouched_iff dueItem 0 _ rfl rfl dueClock true _).mpr
    (.inr ⟨.localError, "closed", rfl, rfl⟩)

/-- The command removes its own item, or schedules another command under its own key. -/
theorem own_item_used :
    ¬Untouched dueClock true dueItem 0 ⟨[.scheduleRemove ['a']], none⟩ ∧
    ¬Untouched dueClock true dueItem 0
      ⟨[.schedule false [.string ['a'], .string ['9'], .string ['0'], .string ['d']]], none⟩ := by
  constructor
  · intro h
    exact (h (by decide +kernel)).1 .nextTimeScheduled rfl
  · intro h
    exact (h (by decide +kernel)).1 .nextTimeScheduled rfl

end CommandSchedulerCalls
