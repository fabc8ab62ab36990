import Mathlib.Data.List.Induction
import Mathlib.Data.List.TakeWhile
import Mathlib.Order.Lattice

/-! # Maps from ranges of keys

`RangeMap` stores each range under its end in a `std::map`, which is the list of its entries in
order. An iterator is given by the entries before it and those from it on. -/
namespace RangeMap

variable {K T : Type*}

/-- The range from `start` on and before `stop`; as an entry of the map, `stop` is its key. -/
structure Range (K T : Type*) where
  stop : K
  start : K
  value : T
  deriving DecidableEq, Repr

variable [LinearOrder K]

/-- `std::map::insert`, which does nothing when there is an entry with the key. -/
def insertEntry (x : Range K T) : List (Range K T) → List (Range K T)
  | [] => [x]
  | y :: entries =>
    if x.stop < y.stop then x :: y :: entries
    else if y.stop < x.stop then y :: insertEntry x entries
    else y :: entries

/-- The entries before `upper_bound(key)`. -/
def lower (key : K) (entries : List (Range K T)) : List (Range K T) :=
  entries.takeWhile fun x => decide (x.stop ≤ key)

/-- The entries from `upper_bound(key)` on. -/
def upperBound (key : K) (entries : List (Range K T)) : List (Range K T) :=
  entries.dropWhile fun x => decide (x.stop ≤ key)

/-- The part of a range before the new one gets an entry of its own, before the iterator. -/
def keepLeft (start : K) (x : Range K T) (done : List (Range K T)) : List (Range K T) :=
  if x.start < start then insertEntry { x with stop := start } done else done

/-- The loop of `crop_overlap`. -/
def cropLoop (start stop : K) :
    List (Range K T) → List (Range K T) → List (Range K T) × List (Range K T)
  | done, [] => (done, [])
  | done, x :: rest =>
    if x.start < stop then
      if ¬stop < x.stop then cropLoop start stop (keepLeft start x done) rest
      else cropLoop start stop (keepLeft start x done ++ [{ x with start := stop }]) rest
    else (done, x :: rest)

def cropOverlap (start stop : K) (entries : List (Range K T)) :
    List (Range K T) × List (Range K T) :=
  cropLoop start stop (lower start entries) (upperBound start entries)

def Sorted (entries : List (Range K T)) : Prop := entries.Pairwise fun x y => x.stop < y.stop

variable {x y : Range K T} {entries : List (Range K T)}

theorem mem_insertEntry (h : y ∈ insertEntry x entries) : y = x ∨ y ∈ entries := by
  induction entries with
  | nil => exact .inl (List.mem_singleton.mp h)
  | cons z entries ih =>
    rw [insertEntry] at h
    split at h
    · exact List.mem_cons.mp h
    split at h
    · rcases List.mem_cons.mp h with rfl | h
      · exact .inr List.mem_cons_self
      · exact (ih h).imp_right (List.mem_cons_of_mem _)
    · exact .inr h

theorem sorted_insertEntry (x : Range K T) (h : Sorted entries) :
    Sorted (insertEntry x entries) := by
  induction entries with
  | nil => exact List.pairwise_singleton _ _
  | cons y entries ih =>
    obtain ⟨hy, hrest⟩ := List.pairwise_cons.mp h
    rw [insertEntry]
    split
    · next hlt =>
      refine List.pairwise_cons.mpr ⟨fun z hz => ?_, h⟩
      rcases List.mem_cons.mp hz with rfl | hz
      · exact hlt
      · exact hlt.trans (hy z hz)
    split
    · next hgt =>
      refine List.pairwise_cons.mpr ⟨fun z hz => ?_, ih hrest⟩
      rcases mem_insertEntry hz with rfl | hz
      · exact hgt
      · exact hy z hz
    · exact h

variable {start : K} {done rest : List (Range K T)}

theorem sorted_keepLeft (h : Sorted (done ++ rest)) (hrest : ∀ y ∈ rest, start < y.stop) :
    Sorted (keepLeft start x done ++ rest) := by
  rw [keepLeft]
  split
  · obtain ⟨hdone, htail, hacross⟩ := List.pairwise_append.mp h
    refine List.pairwise_append.mpr ⟨sorted_insertEntry _ hdone, htail, fun y hy z hz => ?_⟩
    rcases mem_insertEntry hy with rfl | hy
    · exact hrest z hz
    · exact hacross y hy z hz
  · exact h

variable {stop : K}

theorem sorted_cropLoop (h : Sorted (done ++ rest)) (hrest : ∀ x ∈ rest, start < x.stop) :
    Sorted ((cropLoop start stop done rest).1 ++ (cropLoop start stop done rest).2) := by
  induction rest generalizing done with
  | nil => exact h
  | cons x rest ih =>
    have hlater := fun y hy => hrest y (List.mem_cons_of_mem x hy)
    have hkept := sorted_keepLeft (x := x) h hrest
    rw [cropLoop]
    split
    · split
      · apply ih _ hlater
        exact hkept.sublist (List.Sublist.append_left (List.sublist_cons_self x rest) _)
      · apply ih _ hlater
        -- the trimmed entry has the key it had
        rw [List.append_assoc]
        obtain ⟨hdone, htail, hacross⟩ := List.pairwise_append.mp hkept
        refine List.pairwise_append.mpr ⟨hdone, ?_, fun y hy z hz => ?_⟩
        · exact List.pairwise_cons.mpr (List.pairwise_cons.mp htail)
        · rcases List.mem_cons.mp hz with rfl | hz
          · exact hacross y hy x List.mem_cons_self
          · exact hacross y hy z (List.mem_cons_of_mem _ hz)
    · exact h

theorem lower_append (key : K) (entries : List (Range K T)) :
    lower key entries ++ upperBound key entries = entries := List.takeWhile_append_dropWhile

variable {key : K}

theorem stop_le_of_mem_lower (h : x ∈ lower key entries) : x.stop ≤ key := by
  have hx := List.mem_takeWhile_imp h
  exact of_decide_eq_true hx

theorem lt_stop_of_mem_upperBound (hs : Sorted entries)
    (h : x ∈ upperBound key entries) : key < x.stop := by
  induction entries with
  | nil => cases h
  | cons y entries ih =>
    obtain ⟨hy, hrest⟩ := List.pairwise_cons.mp hs
    simp only [upperBound, List.dropWhile_cons, decide_eq_true_eq] at h
    split at h
    · exact ih hrest h
    · next hle =>
      rcases List.mem_cons.mp h with rfl | h
      · exact not_le.mp hle
      · exact (not_le.mp hle).trans (hy x h)

theorem sorted_cropOverlap (start stop : K) (h : Sorted entries) :
    Sorted ((cropOverlap start stop entries).1 ++ (cropOverlap start stop entries).2) :=
  sorted_cropLoop (by rwa [lower_append]) fun _ hx => lt_stop_of_mem_upperBound h hx

/-- The map, whose entries are in the order of their keys. -/
structure Map (K T : Type*) [LinearOrder K] where
  entries : List (Range K T)
  sorted : Sorted entries

def Map.empty : Map K T := ⟨[], List.Pairwise.nil⟩

def Map.setRange (m : Map K T) (start stop : K) (value : T) : Map K T :=
  if start < stop then
    ⟨insertEntry ⟨stop, start, value⟩
      ((cropOverlap start stop m.entries).1 ++ (cropOverlap start stop m.entries).2),
      sorted_insertEntry _ (sorted_cropOverlap start stop m.sorted)⟩
  else m

def Map.find (m : Map K T) (key : K) : Option (Range K T) :=
  (upperBound key m.entries).head?.filter fun x => !decide (key < x.start)

inductive Error where
  | outOfRange (what : String)
  deriving DecidableEq, Repr

def Map.get (m : Map K T) (key : K) : Except Error T :=
  match m.find key with
  | none => .error (.outOfRange "RangeMap::get")
  | some x => .ok x.value

def Map.getOr (m : Map K T) (key : K) (default : T) : T :=
  match m.find key with
  | none => default
  | some x => x.value

def Range.Contains (x : Range K T) (key : K) : Prop := x.start ≤ key ∧ key < x.stop

instance Range.decidableContains (x : Range K T) (key : K) : Decidable (x.Contains key) :=
  inferInstanceAs (Decidable (_ ∧ _))

/-- No range is empty, and each ends where the next begins or before. -/
structure Separate (entries : List (Range K T)) : Prop where
  apart : entries.Pairwise fun x y => x.stop ≤ y.start
  nonempty : ∀ x ∈ entries, x.start < x.stop

def Covers (entries : List (Range K T)) (key : K) (value : T) : Prop :=
  ∃ x ∈ entries, x.Contains key ∧ x.value = value

theorem separate_nil : Separate ([] : List (Range K T)) :=
  ⟨List.Pairwise.nil, fun _ hx => absurd hx List.not_mem_nil⟩

theorem Separate.sublist {kept : List (Range K T)} (h : Separate entries)
    (hsub : kept.Sublist entries) : Separate kept :=
  ⟨h.apart.sublist hsub, fun x hx => h.nonempty x (hsub.subset hx)⟩

variable {l r : List (Range K T)}

theorem separate_append :
    Separate (l ++ r) ↔ Separate l ∧ Separate r ∧ ∀ x ∈ l, ∀ y ∈ r, x.stop ≤ y.start := by
  constructor
  · intro h
    exact ⟨h.sublist (List.sublist_append_left l r), h.sublist (List.sublist_append_right l r),
      (List.pairwise_append.mp h.apart).2.2⟩
  · rintro ⟨hl, hr, hacross⟩
    refine ⟨List.pairwise_append.mpr ⟨hl.apart, hr.apart, hacross⟩, fun x hx => ?_⟩
    exact (List.mem_append.mp hx).elim (hl.nonempty x) (hr.nonempty x)

theorem separate_cons :
    Separate (x :: entries) ↔
      x.start < x.stop ∧ (∀ y ∈ entries, x.stop ≤ y.start) ∧ Separate entries := by
  constructor
  · intro h
    exact ⟨h.nonempty x List.mem_cons_self, (List.pairwise_cons.mp h.apart).1,
      h.sublist (List.sublist_cons_self x entries)⟩
  · rintro ⟨hx, hlater, hrest⟩
    refine ⟨List.pairwise_cons.mpr ⟨hlater, hrest.apart⟩, fun y hy => ?_⟩
    rcases List.mem_cons.mp hy with rfl | hy
    · exact hx
    · exact hrest.nonempty y hy

variable {value : T}

theorem Covers.append : Covers (l ++ r) key value ↔ Covers l key value ∨ Covers r key value := by
  simp only [Covers, List.mem_append, or_and_right, exists_or]

variable {m : Map K T}

theorem find_eq_some (h : Separate m.entries) :
    m.find key = some x ↔ x ∈ m.entries ∧ x.Contains key := by
  rw [Map.find, Option.filter_eq_some_iff]
  have hmem : ∀ y ∈ upperBound key m.entries, key < y.stop := fun y hy =>
    lt_stop_of_mem_upperBound m.sorted hy
  constructor
  · rintro ⟨hhead, hstart⟩
    have hx := List.mem_of_head? hhead
    refine ⟨(List.dropWhile_sublist _).subset hx, ?_, hmem x hx⟩
    exact not_lt.mp (by simpa using hstart)
  · rintro ⟨hx, hstart, hstop⟩
    refine ⟨?_, by simpa using hstart⟩
    have hmid : x ∈ upperBound key m.entries := by
      rw [← lower_append key m.entries, List.mem_append] at hx
      exact hx.resolve_left fun hlow => absurd (stop_le_of_mem_lower hlow) (not_le.mpr hstop)
    have hsep : Separate (upperBound key m.entries) := h.sublist (List.dropWhile_sublist _)
    cases hup : upperBound key m.entries with
    | nil => rw [hup] at hmid; cases hmid
    | cons y rest =>
      rw [hup] at hmid hsep hmem
      rcases List.mem_cons.mp hmid with rfl | hrest
      · rfl
      · -- the first range ends behind the key, so no later one can begin at the key or before
        have hbefore := (separate_cons.mp hsep).2.1 x hrest
        exact absurd (hmem y List.mem_cons_self) (not_lt.mpr (hbefore.trans hstart))

theorem find_value (h : Separate m.entries) :
    (m.find key).map Range.value = some value ↔ Covers m.entries key value := by
  simp only [Option.map_eq_some_iff, find_eq_some h, Covers, and_assoc]

/-- The ranges that are left of `x` when what lies in the range from `start` to `stop` is taken
away. -/
def pieces (start stop : K) (x : Range K T) : List (Range K T) :=
  if x.start < stop ∧ start < x.stop then
    (if x.start < start then [{ x with stop := start }] else []) ++
      (if stop < x.stop then [{ x with start := stop }] else [])
  else [x]

theorem mem_pieces_iff :
    y ∈ pieces start stop x ↔
      (x.stop ≤ start ∨ stop ≤ x.start) ∧ y = x ∨
      (x.start < stop ∧ start < x.stop) ∧
        (x.start < start ∧ y = { x with stop := start } ∨
          stop < x.stop ∧ y = { x with start := stop }) := by
  rw [pieces]
  split
  · next hover =>
    have hclear : ¬(x.stop ≤ start ∨ stop ≤ x.start) := not_or.mpr ⟨hover.2.not_ge, hover.1.not_ge⟩
    simp only [List.mem_append, List.mem_ite_nil_right, List.mem_singleton, hclear, hover,
      false_and, false_or, true_and, and_self]
  · next hclear =>
    have hcases : x.stop ≤ start ∨ stop ≤ x.start := by
      rw [not_and_or, not_lt, not_lt] at hclear
      exact hclear.symm
    simp only [List.mem_singleton, hclear, hcases, true_and, false_and, or_false]

theorem mem_pieces (h : y ∈ pieces start stop x) (hx : x.start < x.stop) :
    x.start ≤ y.start ∧ y.start < y.stop ∧ y.stop ≤ x.stop ∧ (y.stop ≤ start ∨ stop ≤ y.start) ∧
      y.value = x.value := by
  rcases mem_pieces_iff.mp h with ⟨hclear, rfl⟩ | ⟨hover, ⟨hleft, rfl⟩ | ⟨hright, rfl⟩⟩
  · exact ⟨le_rfl, hx, le_rfl, hclear, rfl⟩
  · exact ⟨le_rfl, hleft, hover.2.le, .inl le_rfl, rfl⟩
  · exact ⟨hover.1.le, hright, le_rfl, .inr le_rfl, rfl⟩

theorem Covers.singleton : Covers [x] key value ↔ x.Contains key ∧ x.value = value := by
  simp only [Covers, List.mem_singleton, exists_eq_left]

theorem covers_pieces :
    Covers (pieces start stop x) key value ↔
      (x.Contains key ∧ x.value = value) ∧ ¬(start ≤ key ∧ key < stop) := by
  rw [pieces]
  split
  · next hover =>
    have hleft : Covers (if x.start < start then [{ x with stop := start }] else []) key value ↔
        (x.Contains key ∧ x.value = value) ∧ key < start := by
      split
      · simp only [Covers.singleton, Range.Contains]
        grind
      · simp only [Covers, List.not_mem_nil, false_and, exists_false, Range.Contains]
        grind
    have hright : Covers (if stop < x.stop then [{ x with start := stop }] else []) key value ↔
        (x.Contains key ∧ x.value = value) ∧ stop ≤ key := by
      split
      · simp only [Covers.singleton, Range.Contains]
        grind
      · simp only [Covers, List.not_mem_nil, false_and, exists_false, Range.Contains]
        grind
    rw [Covers.append, hleft, hright, ← and_or_left, not_and_or, not_le, not_lt]
  · simp only [Covers.singleton, Range.Contains]
    grind

def cropped (start stop : K) (entries : List (Range K T)) : List (Range K T) :=
  entries.flatMap (pieces start stop)

theorem covers_cropped :
    Covers (cropped start stop entries) key value ↔
      Covers entries key value ∧ ¬(start ≤ key ∧ key < stop) := by
  induction entries with
  | nil => simp [cropped, Covers]
  | cons x entries ih =>
    rw [cropped, List.flatMap_cons, Covers.append, covers_pieces, ← cropped, ih, ← or_and_right,
      ← List.singleton_append, Covers.append, Covers.singleton]

theorem mem_cropped (h : y ∈ cropped start stop entries) : ∃ x ∈ entries, y ∈ pieces start stop x :=
  List.mem_flatMap.mp h

theorem pieces_separate (start stop : K) (hx : x.start < x.stop) (h : start < stop) :
    Separate (pieces start stop x) := by
  refine ⟨?_, fun y hy => (mem_pieces hy hx).2.1⟩
  rw [pieces]
  split
  · refine List.pairwise_append.mpr ⟨?_, ?_, ?_⟩
    · split <;> simp
    · split <;> simp
    · grind
  · exact List.pairwise_singleton _ _

theorem separate_cropped (h : Separate entries)
    (hlt : start < stop) : Separate (cropped start stop entries) := by
  refine ⟨List.pairwise_flatMap.mpr ⟨fun x hx => (pieces_separate start stop
    (h.nonempty x hx) hlt).apart, ?_⟩, fun y hy => ?_⟩
  · refine h.apart.imp_of_mem fun {x z} hx hz hxz y hy w hw => ?_
    have hy := mem_pieces hy (h.nonempty x hx)
    have hw := mem_pieces hw (h.nonempty z hz)
    exact hy.2.2.1.trans (hxz.trans hw.1)
  · obtain ⟨x, hx, hy⟩ := mem_cropped hy
    exact (mem_pieces hy (h.nonempty x hx)).2.1

theorem clear_of_mem_cropped (h : Separate entries)
    (hy : y ∈ cropped start stop entries) : y.stop ≤ start ∨ stop ≤ y.start := by
  obtain ⟨x, hx, hy⟩ := mem_cropped hy
  exact (mem_pieces hy (h.nonempty x hx)).2.2.2.1

theorem insertEntry_between (hl : ∀ y ∈ l, y.stop < x.stop)
    (hr : ∀ y ∈ r, x.stop < y.stop) : insertEntry x (l ++ r) = l ++ x :: r := by
  induction l with
  | nil =>
    cases r with
    | nil => rfl
    | cons y r => exact if_pos (hr y List.mem_cons_self)
  | cons y l ih =>
    have hy := hl y List.mem_cons_self
    rw [List.cons_append, insertEntry, if_neg hy.not_gt, if_pos hy,
      ih fun z hz => hl z (List.mem_cons_of_mem y hz), List.cons_append]

theorem keepLeft_eq (h : ∀ y ∈ done, y.stop ≤ x.start) :
    keepLeft start x done = done ++ if x.start < start then [{ x with stop := start }] else [] := by
  rw [keepLeft]
  split
  · next hstart =>
    have hinsert := insertEntry_between (x := { x with stop := start }) (r := [])
      (fun y hy => (h y hy).trans_lt hstart) fun y hy => absurd hy List.not_mem_nil
    rwa [List.append_nil] at hinsert
  · exact (List.append_nil done).symm

theorem cropLoop_cons (h : ∀ y ∈ done, y.stop ≤ x.start) (hstart : start < x.stop)
    (hstop : x.start < stop) :
    cropLoop start stop done (x :: rest) =
      cropLoop start stop (done ++ pieces start stop x) rest := by
  rw [cropLoop, if_pos hstop, keepLeft_eq h]
  have hover : x.start < stop ∧ start < x.stop := ⟨hstop, hstart⟩
  by_cases hend : stop < x.stop
  · simp only [pieces, hover, hend, not_true, and_self, if_true, if_false, List.append_assoc]
  · simp only [pieces, hover, hend, not_false_iff, and_self, if_true, if_false, List.append_nil]

theorem separate_pieces (h : Separate (done ++ x :: rest)) (hlt : start < stop) :
    Separate (done ++ pieces start stop x ++ rest) := by
  obtain ⟨hdone, hcons, hacross⟩ := separate_append.mp h
  obtain ⟨hx, hbehind, hrest⟩ := separate_cons.mp hcons
  rw [List.append_assoc]
  refine separate_append.mpr ⟨hdone, separate_append.mpr ⟨pieces_separate start stop hx hlt, hrest,
    fun y hy z hz => ?_⟩, fun y hy z hz => ?_⟩
  · exact (mem_pieces hy hx).2.2.1.trans (hbehind z hz)
  · rcases List.mem_append.mp hz with hz | hz
    · exact (hacross y hy x List.mem_cons_self).trans (mem_pieces hz hx).1
    · exact hacross y hy z (List.mem_cons_of_mem x hz)

theorem cropLoop_eq (h : Separate (done ++ rest))
    (hrest : ∀ x ∈ rest, start < x.stop) (hlt : start < stop) :
    cropLoop start stop done rest =
      (done ++ cropped start stop (rest.takeWhile fun x => decide (x.start < stop)),
        rest.dropWhile fun x => decide (x.start < stop)) := by
  induction rest generalizing done with
  | nil => simp [cropLoop, cropped]
  | cons x rest ih =>
    by_cases hstop : x.start < stop
    · have hacross := fun y hy => (separate_append.mp h).2.2 y hy x List.mem_cons_self
      rw [cropLoop_cons hacross (hrest x List.mem_cons_self) hstop, ih (separate_pieces h hlt)
        fun y hy => hrest y (List.mem_cons_of_mem x hy)]
      simp [hstop, cropped]
    · rw [cropLoop, if_neg hstop]
      simp [hstop, cropped]

def within (start stop : K) (entries : List (Range K T)) : List (Range K T) :=
  (upperBound start entries).takeWhile fun x => decide (x.start < stop)

def beyond (start stop : K) (entries : List (Range K T)) : List (Range K T) :=
  (upperBound start entries).dropWhile fun x => decide (x.start < stop)

theorem entries_eq (start stop : K) (entries : List (Range K T)) :
    entries = lower start entries ++ within start stop entries ++ beyond start stop entries := by
  rw [List.append_assoc, within, beyond, List.takeWhile_append_dropWhile, lower_append]

theorem cropOverlap_eq (hs : Sorted entries) (h : Separate entries) (hlt : start < stop) :
    cropOverlap start stop entries =
      (lower start entries ++ cropped start stop (within start stop entries),
        beyond start stop entries) :=
  cropLoop_eq (by rwa [lower_append]) (fun _ hx => lt_stop_of_mem_upperBound hs hx) hlt

theorem stop_le_of_mem_beyond (h : Separate entries)
    (hx : x ∈ beyond start stop entries) : stop ≤ x.start := by
  have hsep : Separate (upperBound start entries) := h.sublist (List.dropWhile_sublist _)
  rw [beyond] at hx
  generalize upperBound start entries = rest at hx hsep
  induction rest with
  | nil => cases hx
  | cons y rest ih =>
    obtain ⟨hy, hbehind, hrest⟩ := separate_cons.mp hsep
    rw [List.dropWhile_cons] at hx
    split at hx
    · exact ih hx hrest
    · next hstop =>
      have hstop : stop ≤ y.start := not_lt.mp (by simpa using hstop)
      rcases List.mem_cons.mp hx with rfl | hx
      · exact hstop
      · exact hstop.trans (hy.le.trans (hbehind x hx))

theorem cropped_append (start stop : K) (l r : List (Range K T)) :
    cropped start stop (l ++ r) = cropped start stop l ++ cropped start stop r :=
  List.flatMap_append

theorem cropped_of_clear (h : ∀ x ∈ entries, x.stop ≤ start ∨ stop ≤ x.start) :
    cropped start stop entries = entries := by
  induction entries with
  | nil => rfl
  | cons x entries ih =>
    have hx : ¬(x.start < stop ∧ start < x.stop) := by
      rintro ⟨hstop, hstart⟩
      exact (h x List.mem_cons_self).elim hstart.not_ge hstop.not_ge
    rw [cropped, List.flatMap_cons, ← cropped, ih fun y hy => h y (List.mem_cons_of_mem x hy),
      pieces, if_neg hx, List.singleton_append]

theorem cropOverlap_append (hs : Sorted entries) (h : Separate entries) (hlt : start < stop) :
    (cropOverlap start stop entries).1 ++ (cropOverlap start stop entries).2 =
      cropped start stop entries := by
  rw [cropOverlap_eq hs h hlt]
  conv_rhs => rw [entries_eq start stop entries]
  have hlower : cropped start stop (lower start entries) = lower start entries :=
    cropped_of_clear fun x hx => .inl (stop_le_of_mem_lower hx)
  have hbeyond : cropped start stop (beyond start stop entries) = beyond start stop entries :=
    cropped_of_clear fun x hx => .inr (stop_le_of_mem_beyond h hx)
  rw [cropped_append, cropped_append, hlower, hbeyond]

theorem Separate.exists_gap (h : Separate entries)
    (hclear : ∀ x ∈ entries, x.stop ≤ start ∨ stop ≤ x.start) :
    ∃ l r, entries = l ++ r ∧ (∀ x ∈ l, x.stop ≤ start) ∧ ∀ x ∈ r, stop ≤ x.start := by
  induction entries with
  | nil => exact ⟨[], [], rfl, by simp, by simp⟩
  | cons x entries ih =>
    obtain ⟨hx, hbehind, hrest⟩ := separate_cons.mp h
    rcases hclear x List.mem_cons_self with hstart | hstop
    · obtain ⟨l, r, rfl, hl, hr⟩ := ih hrest fun y hy => hclear y (List.mem_cons_of_mem x hy)
      refine ⟨x :: l, r, rfl, fun y hy => ?_, hr⟩
      rcases List.mem_cons.mp hy with rfl | hy
      · exact hstart
      · exact hl y hy
    · refine ⟨[], x :: entries, rfl, by simp, fun y hy => ?_⟩
      rcases List.mem_cons.mp hy with rfl | hy
      · exact hstop
      · exact hstop.trans (hx.le.trans (hbehind y hy))

theorem separate_gap (h : Separate (l ++ r))
    (hx : x.start < x.stop) (hl : ∀ y ∈ l, y.stop ≤ x.start) (hr : ∀ y ∈ r, x.stop ≤ y.start) :
    Separate (l ++ x :: r) := by
  obtain ⟨hleft, hright, hacross⟩ := separate_append.mp h
  refine separate_append.mpr ⟨hleft, separate_cons.mpr ⟨hx, hr, hright⟩, fun y hy z hz => ?_⟩
  rcases List.mem_cons.mp hz with rfl | hz
  · exact hl y hy
  · exact hacross y hy z hz

theorem covers_gap :
    Covers (l ++ x :: r) key value ↔
      (x.Contains key ∧ x.value = value) ∨ Covers (l ++ r) key value := by
  rw [Covers.append, ← List.singleton_append, Covers.append, Covers.singleton, Covers.append]
  exact or_left_comm

/-- The entry of the new range goes into the gap that was cropped for it. -/
theorem setRange_entries (h : Separate m.entries) (hlt : start < stop)
    (value : T) : ∃ l r, cropped start stop m.entries = l ++ r ∧
      (m.setRange start stop value).entries = l ++ ⟨stop, start, value⟩ :: r ∧
      (∀ y ∈ l, y.stop ≤ start) ∧ ∀ y ∈ r, stop ≤ y.start := by
  have hsep := separate_cropped h hlt
  obtain ⟨l, r, hcrop, hl, hr⟩ := hsep.exists_gap fun x hx => clear_of_mem_cropped h hx
  refine ⟨l, r, hcrop, ?_, hl, hr⟩
  rw [Map.setRange, if_pos hlt]
  simp only [cropOverlap_append m.sorted h hlt, hcrop]
  apply insertEntry_between
  · exact fun y hy => (hl y hy).trans_lt hlt
  · intro y hy
    have hy : y ∈ cropped start stop m.entries := hcrop ▸ List.mem_append_right l hy
    exact (hr y ‹_›).trans_lt (hsep.nonempty y hy)

/-- What one call does to the answers: `value` for the keys of the range, no change for the
others. -/
def Overwrites (before after : List (Range K T)) (start stop : K) (value : T) : Prop :=
  ∀ key v, Covers after key v ↔
    ((start ≤ key ∧ key < stop) ∧ value = v) ∨ (Covers before key v ∧ ¬(start ≤ key ∧ key < stop))

theorem overwrites_of_empty (h : ¬start < stop) : Overwrites entries entries start stop value := by
  intro key v
  have hempty : ¬(start ≤ key ∧ key < stop) := fun hkey => h (hkey.1.trans_lt hkey.2)
  simp [hempty]

theorem setRange_spec (h : Separate m.entries) (start stop : K) (value : T) :
    Separate (m.setRange start stop value).entries ∧
      Overwrites m.entries (m.setRange start stop value).entries start stop value := by
  by_cases hlt : start < stop
  · obtain ⟨l, r, hcrop, hset, hl, hr⟩ := setRange_entries h hlt value
    have hsep : Separate (l ++ r) := hcrop ▸ separate_cropped h hlt
    rw [hset]
    refine ⟨separate_gap hsep hlt hl hr, fun key v => ?_⟩
    rw [covers_gap, ← hcrop, covers_cropped, Range.Contains]
  · rw [Map.setRange, if_neg hlt]
    exact ⟨h, overwrites_of_empty hlt⟩

/-- The value of the last call whose range contains the key. -/
def lastCall (calls : List (Range K T)) (key : K) : Option T :=
  (calls.reverse.find? fun call => decide (call.Contains key)).map Range.value

theorem lastCall_concat (calls : List (Range K T)) (call : Range K T) (key : K) :
    lastCall (calls ++ [call]) key =
      if call.Contains key then some call.value else lastCall calls key := by
  by_cases h : call.Contains key
  · simp [lastCall, h]
  · simp [lastCall, h]

def Reflects (entries calls : List (Range K T)) : Prop :=
  ∀ key value, Covers entries key value ↔ lastCall calls key = some value

theorem reflects_nil : Reflects ([] : List (Range K T)) [] := by
  intro key value
  simp [Covers, lastCall]

theorem Reflects.concat {before after calls : List (Range K T)} {call : Range K T}
    (h : Reflects before calls) (hstep : Overwrites before after call.start call.stop call.value) :
    Reflects after (calls ++ [call]) := by
  intro key value
  rw [hstep key value, h key value, lastCall_concat]
  by_cases hkey : call.Contains key
  · simp [hkey, show call.start ≤ key ∧ key < call.stop from hkey]
  · simp [hkey, show ¬(call.start ≤ key ∧ key < call.stop) from hkey]

/-- The ranges are disjoint and not empty, and each key has the value of the last call for it. -/
structure Answers (m : Map K T) (calls : List (Range K T)) : Prop where
  separate : Separate m.entries
  found : ∀ key x, m.find key = some x → x ∈ m.entries ∧ x.Contains key
  find : ∀ key, (m.find key).map Range.value = lastCall calls key
  get : ∀ key, m.get key =
    (lastCall calls key).elim (.error (.outOfRange "RangeMap::get")) .ok
  getOr : ∀ key default, m.getOr key default = (lastCall calls key).getD default

theorem answers_iff {calls : List (Range K T)} :
    Answers m calls ↔ Separate m.entries ∧ Reflects m.entries calls := by
  constructor
  · intro h
    refine ⟨h.separate, fun key value => ?_⟩
    rw [← find_value h.separate, h.find]
  · rintro ⟨hsep, href⟩
    have hfind : ∀ key, (m.find key).map Range.value = lastCall calls key := by
      intro key
      ext value
      exact (find_value hsep).trans (href key value)
    refine ⟨hsep, fun key x hx => (find_eq_some hsep).mp hx, hfind, fun key => ?_,
      fun key default => ?_⟩
    · rw [← hfind key, Map.get]
      cases m.find key <;> rfl
    · rw [← hfind key, Map.getOr]
      cases m.find key <;> rfl

def setRanges (calls : List (Range K T)) : Map K T :=
  calls.foldl (fun m call => m.setRange call.start call.stop call.value) .empty

/-- After every sequence of calls the last call for a key decides. -/
theorem setRanges_answers (calls : List (Range K T)) : Answers (setRanges calls) calls := by
  rw [answers_iff]
  induction calls using List.reverseRecOn with
  | nil => exact ⟨separate_nil, reflects_nil⟩
  | append_singleton calls call ih =>
    have hrun : setRanges (calls ++ [call]) =
        (setRanges calls).setRange call.start call.stop call.value := by
      rw [setRanges, List.foldl_append]
      rfl
    obtain ⟨hsep, hover⟩ := setRange_spec ih.1 call.start call.stop call.value
    rw [hrun]
    exact ⟨hsep, ih.2.concat hover⟩

end RangeMap
