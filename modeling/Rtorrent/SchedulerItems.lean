import Rtorrent.CommandSchedulerCalls

/-! # What the calls leave in the scheduler

`parse` reads its arguments before it replaces an item, so a call that throws finds every
item as it was. -/
namespace SchedulerItems

open FallibleRuns RpcTextParser CommandScheduler CommandSchedulerCalls

def itemsOf (s : Scheduler) (key : Text) : List (ItemId × Item) :=
  s.items.filter (·.2.key = key)

variable {s : Scheduler} {key : Text}

theorem mem_itemsOf {p : ItemId × Item} : p ∈ itemsOf s key ↔ p ∈ s.items ∧ p.2.key = key := by
  simp [itemsOf]

theorem itemsOf_change (s : Scheduler) (id : ItemId) (c : Change) (key : Text) :
    itemsOf (s.change id c) key = (itemsOf s key).map (changed id c) := by
  rw [itemsOf, Scheduler.change, List.filter_map, itemsOf]
  congr 1
  apply List.filter_congr
  intro p _
  rw [Function.comp_apply, changed_key]

theorem itemsOf_change_other {id : ItemId} (h : ∀ p ∈ itemsOf s key, p.1 ≠ id) (c : Change) :
    itemsOf (s.change id c) key = itemsOf s key := by
  rw [itemsOf_change]
  conv_rhs => rw [← List.map_id (itemsOf s key)]
  apply List.map_congr_left
  intro p hp
  rw [changed, if_neg (h p hp), id_eq]

theorem itemsOf_eraseStr_same (s : Scheduler) (key : Text) : itemsOf (s.eraseStr key) key = [] := by
  rw [itemsOf, Scheduler.eraseStr, List.filter_filter, List.filter_eq_nil_iff]
  simp

theorem filter_eq_singleton {α β : Type} [DecidableEq β] {f : α → β} {l : List α}
    (hn : (l.map f).Nodup) {p : α} (hp : p ∈ l) : l.filter (f · = f p) = [p] := by
  induction l with
  | nil => cases hp
  | cons q l ih =>
    rw [List.map_cons, List.nodup_cons] at hn
    rcases List.mem_cons.mp hp with rfl | hp
    · rw [List.filter_cons_of_pos (by simp), List.filter_eq_nil_iff.mpr]
      intro r hr he
      exact hn.1 (List.mem_map.mpr ⟨r, hr, by simpa using he⟩)
    · rw [List.filter_cons_of_neg, ih hn.2 hp]
      intro he
      exact hn.1 (List.mem_map.mpr ⟨p, hp, by simpa using Eq.symm (of_decide_eq_true he)⟩)

theorem itemsOf_eq_singleton {p : ItemId × Item} (hp : p ∈ s.items) : itemsOf s p.2.key = [p] :=
  filter_eq_singleton s.keys_nodup hp

theorem itemsOf_congr {t : Scheduler} (h : ∀ p, p.2.key = key → (p ∈ t.items ↔ p ∈ s.items)) :
    itemsOf t key = itemsOf s key := by
  cases hs : itemsOf s key with
  | nil =>
    rw [itemsOf, List.filter_eq_nil_iff] at hs ⊢
    intro p hp hk
    exact hs p ((h p (of_decide_eq_true hk)).mp hp) hk
  | cons p l =>
    obtain ⟨hp, rfl⟩ := mem_itemsOf.mp (hs ▸ List.mem_cons_self)
    rw [← hs, itemsOf_eq_singleton hp, itemsOf_eq_singleton ((h p rfl).mpr hp)]

theorem itemsOf_eraseStr_other (s : Scheduler) {k : Text} (h : k ≠ key) :
    itemsOf (s.eraseStr key) k = itemsOf s k := by
  apply itemsOf_congr
  rintro p rfl
  rw [Scheduler.eraseStr, List.mem_filter, decide_eq_true_eq]
  exact and_iff_left h

theorem insert_items (hn : key ≠ []) (s : Scheduler) :
    ∃ t, Scheduler.insert key s = (.ok s.nextId, t) ∧
      itemsOf t key = [(s.nextId, .new key)] ∧ ∀ k ≠ key, itemsOf t k = itemsOf s k := by
  obtain ⟨t, ht, -, hm⟩ := insert_mem hn s
  refine ⟨t, ht, itemsOf_eq_singleton ((hm _).mpr (.inl rfl)), fun k hne => itemsOf_congr ?_⟩
  rintro p rfl
  rw [hm]
  refine ⟨?_, fun hp => .inr ⟨hp, hne⟩⟩
  rintro (rfl | ⟨hp, -⟩)
  · exact absurd rfl hne
  · exact hp

theorem ceilSeconds_pos {t : ℕ} (h : 0 < t) : 0 < ceilSeconds t := by
  rw [ceilSeconds, second]
  omega

theorem item_of_mem {id : ItemId} {it : Item} (h : (id, it) ∈ s.items) : s.item id = some it := by
  cases hs : s.item id with
  | none =>
    rw [Scheduler.item_eq_none] at hs
    exact absurd (List.mem_map.mpr ⟨_, h, rfl⟩) hs
  | some it' =>
    have he := s.eq_of_id (s.item_mem hs) h rfl
    rw [(Prod.mk.inj he).2]

variable {clock : Clock}

theorem parse_items {bufAbsolute bufInterval : Text} {command : Object}
    {absolute interval : ℕ} (hc : isCommand command = true)
    (ha : parseAbsolute clock bufAbsolute = .ok absolute)
    (hi : parseInterval bufInterval = .ok interval) (hn : key ≠ []) (ht : 0 < clock.cachedTime)
    (s : Scheduler) :
    ∃ t, parse clock key bufAbsolute bufInterval command s = (.ok (), t) ∧
      itemsOf t key = [(s.nextId, ⟨key, command, interval,
        ceilSeconds (clock.cachedTime + absolute * second), true⟩)] := by
  obtain ⟨u, hu, hk, -⟩ := insert_items hn s
  have hpos := ceilSeconds_pos (t := clock.cachedTime + absolute * second) (by omega)
  rw [parse_ok key hc ha hi, Run.bind_of_ok hu, change_bind]
  generalize hd : u.change s.nextId ⟨fun it => { it with command := command, interval := interval },
    fun _ => rfl⟩ = v
  have hv : itemsOf v key =
      [(s.nextId, { Item.new key with command := command, interval := interval })] := by
    rw [← hd, itemsOf_change, hk]
    simp [changed]
  have hm : (s.nextId, { Item.new key with command := command, interval := interval }) ∈ v.items :=
    (mem_itemsOf.mp (hv ▸ List.mem_singleton_self _)).1
  refine ⟨_, enable_ok hpos (item_of_mem hm), ?_⟩
  rw [itemsOf_change, hv]
  simp [changed, Item.new]

theorem parse_others (clock : Clock) {k : Text} (bufAbsolute bufInterval : Text)
    (command : Object) (hne : k ≠ key) (s : Scheduler) :
    itemsOf (parse clock key bufAbsolute bufInterval command s).2 k = itemsOf s k := by
  by_cases h : Parses clock bufAbsolute bufInterval command ∧ key ≠ []
  · obtain ⟨hp, hn⟩ := h
    obtain ⟨absolute, interval, ha, hi⟩ := hp.times
    obtain ⟨u, hu, -, ho⟩ := insert_items hn s
    have hnew : ∀ p ∈ itemsOf s k, p.1 ≠ s.nextId :=
      fun p hp => Nat.ne_of_lt (s.fresh p (mem_itemsOf.mp hp).1)
    rw [parse_ok key hp.1 ha hi, Run.bind_of_ok hu, change_bind]
    generalize hd : u.change s.nextId ⟨fun it =>
      { it with command := command, interval := interval }, fun _ => rfl⟩ = v
    have hv : itemsOf v k = itemsOf s k := by
      rw [← hd, itemsOf_change_other, ho k hne]
      rwa [ho k hne]
    rcases enable_state s.nextId (ceilSeconds (clock.cachedTime + absolute * second)) v with
      he | ⟨c, he⟩
    · rw [he, hv]
    · rw [he, itemsOf_change_other, hv]
      rwa [hv]
  · obtain ⟨e, he⟩ := parse_refused h s
    rw [he]

def namedKey : Command → Option Text
  | .schedule _ (.string key :: _) => some key
  | .scheduleRemove key => some key
  | _ => none

/-- `t` has one item with the key, with what the arguments of `schedule` say. -/
def Scheduled (clock : Clock) (key bufAbsolute bufInterval : Text) (command : Object)
    (t : Scheduler) : Prop :=
  ∃ id absolute interval, parseAbsolute clock bufAbsolute = .ok absolute ∧
    parseInterval bufInterval = .ok interval ∧
    itemsOf t key = [(id, ⟨key, command, interval,
      ceilSeconds (clock.cachedTime + absolute * second), true⟩)]

/-- What a call that ends with `r` makes of the items. `schedule.if_absent` leaves an item
that is there. -/
structure CallSpec (clock : Clock) (c : Command) (s t : Scheduler) (r : Except Fault Unit) :
    Prop where
  thrown : ∀ e, r = .error e → t = s
  scheduled : ∀ ifAbsent args, c = .schedule ifAbsent args → r = .ok () →
    ∃ key bufAbsolute bufInterval command,
      args = [.string key, .string bufAbsolute, .string bufInterval, command] ∧
      (ifAbsent = true ∧ s.find key ≠ none ∧ t = s ∨
        Scheduled clock key bufAbsolute bufInterval command t)
  removed : ∀ key, c = .scheduleRemove key → itemsOf t key = []
  others : ∀ k, namedKey c ≠ some k → itemsOf t k = itemsOf s k

theorem perform_others (clock : Clock) {c : Command} {k : Text} (h : namedKey c ≠ some k)
    (s : Scheduler) : itemsOf (perform clock s c) k = itemsOf s k := by
  cases c with
  | scheduleRemove key =>
    apply itemsOf_eraseStr_other
    rintro rfl
    exact h rfl
  | schedule ifAbsent args =>
    change itemsOf (applySchedule clock ifAbsent args s).2 k = itemsOf s k
    by_cases ha : ∃ k a i c, args = [.string k, .string a, .string i, c]
    · obtain ⟨key, bufAbsolute, bufInterval, command, rfl⟩ := ha
      rw [applySchedule_strings]
      split
      · rfl
      · apply parse_others
        rintro rfl
        exact h rfl
    · obtain ⟨e, he⟩ := applySchedule_refused ha clock ifAbsent s
      rw [he]

theorem callSpec_thrown {ifAbsent : Bool} {args : List Object}
    (e : Fault) : CallSpec clock (.schedule ifAbsent args) s s (.error e) where
  thrown _ _ := rfl
  scheduled _ _ _ hr := by cases hr
  removed _ hc := by cases hc
  others _ _ := rfl

theorem scheduleRemove_spec (clock : Clock) (key : Text) (s : Scheduler) :
    CallSpec clock (.scheduleRemove key) s (s.eraseStr key) (.ok ()) where
  thrown _ hr := by cases hr
  scheduled _ _ hc := by cases hc
  removed k hc := by
    cases hc
    exact itemsOf_eraseStr_same s key
  others _ hk := perform_others clock hk s

theorem parse_spec (ht : 0 < clock.cachedTime) (ifAbsent : Bool)
    (key bufAbsolute bufInterval : Text) (command : Object) (s : Scheduler) :
    CallSpec clock
      (.schedule ifAbsent [.string key, .string bufAbsolute, .string bufInterval, command]) s
      (parse clock key bufAbsolute bufInterval command s).2
      (parse clock key bufAbsolute bufInterval command s).1 := by
  have ho : ∀ k, namedKey
      (.schedule ifAbsent [.string key, .string bufAbsolute, .string bufInterval, command]) ≠ some
        k →
      itemsOf (parse clock key bufAbsolute bufInterval command s).2 k = itemsOf s k := by
    intro k hne
    apply parse_others
    rintro rfl
    exact hne rfl
  by_cases h : Parses clock bufAbsolute bufInterval command ∧ key ≠ []
  · obtain ⟨hp, hn⟩ := h
    obtain ⟨absolute, interval, ha, hi⟩ := hp.times
    obtain ⟨t, hr, hk⟩ := parse_items hp.1 ha hi hn ht s
    rw [hr] at ho ⊢
    constructor
    · intro e he
      cases he
    · intro _ args hargs _
      cases hargs
      exact ⟨_, _, _, _, rfl, .inr ⟨_, absolute, interval, ha, hi, hk⟩⟩
    · intro _ hc
      cases hc
    · exact ho
  · obtain ⟨e, he⟩ := parse_refused h s
    rw [he]
    exact callSpec_thrown _

theorem schedule_spec (ht : 0 < clock.cachedTime) (ifAbsent : Bool)
    (args : List Object) (s : Scheduler) :
    CallSpec clock (.schedule ifAbsent args) s (applySchedule clock ifAbsent args s).2
      (applySchedule clock ifAbsent args s).1 := by
  by_cases h : ∃ k a i c, args = [.string k, .string a, .string i, c]
  · obtain ⟨key, bufAbsolute, bufInterval, command, rfl⟩ := h
    rw [applySchedule_strings]
    split
    · rename_i hf
      constructor
      · intro e he
        cases he
      · intro _ args hargs _
        cases hargs
        exact ⟨_, _, _, _, rfl, .inl ⟨hf.1, hf.2, rfl⟩⟩
      · intro _ hc
        cases hc
      · intro _ _
        rfl
    · exact parse_spec ht ifAbsent key bufAbsolute bufInterval command s
  · obtain ⟨e, he⟩ := applySchedule_refused h clock ifAbsent s
    rw [he]
    exact callSpec_thrown _

theorem call_spec (ht : 0 < clock.cachedTime) (c : Command) (s : Scheduler) :
    CallSpec clock c s (perform clock s c) (c.run clock s).1 := by
  cases c with
  | schedule ifAbsent args => exact schedule_spec ht ifAbsent args s
  | scheduleRemove key => exact scheduleRemove_spec clock key s

def callAll (s : Scheduler) (calls : List (Clock × Command)) : Scheduler :=
  calls.foldl (fun s call => perform call.1 s call.2) s

/-- In every run the keys stay apart, and each call does to the items what it says or throws and
does nothing. -/
theorem callAll_spec (s : Scheduler) (calls : List (Clock × Command))
    (ht : ∀ call ∈ calls, 0 < call.1.cachedTime) :
    ((callAll s calls).items.map (·.2.key)).Nodup ∧
    (∀ p ∈ (callAll s calls).items, p.2.key ≠ []) ∧
    ∀ earlier clock c later, calls = earlier ++ (clock, c) :: later →
      CallSpec clock c (callAll s earlier) (callAll s (earlier ++ [(clock, c)]))
        (c.run clock (callAll s earlier)).1 := by
  refine ⟨(callAll s calls).keys_nodup, (callAll s calls).named, ?_⟩
  rintro earlier clock c later rfl
  have hc : 0 < clock.cachedTime := ht (clock, c) (by simp)
  have hs : callAll s (earlier ++ [(clock, c)]) = perform clock (callAll s earlier) c := by
    rw [callAll, List.foldl_append]
    rfl
  rw [hs]
  exact call_spec hc c (callAll s earlier)

def minutely : Clock × Command :=
  (dueClock, .schedule false [.string ['a'], .string ['0'], .string ['6', '0'], .string ['b']])

def unreadable : Clock × Command :=
  (dueClock, .schedule false [.string ['a'], .string ['0'], .string ['x'], .string ['c']])

theorem callAll_spec_unreadable :
    callAll .empty [minutely, unreadable] = callAll .empty [minutely] := by
  have ht : ∀ call ∈ [minutely, unreadable], 0 < call.1.cachedTime := by
    simp [minutely, unreadable, dueClock]
  have h := (callAll_spec .empty [minutely, unreadable] ht).2.2 [minutely] _ _ [] rfl
  exact h.thrown (.thrown (.error .inputError "Could not parse interval.")) (by decide +kernel)

end SchedulerItems
