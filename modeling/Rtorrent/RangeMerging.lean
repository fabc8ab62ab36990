import Rtorrent.RangeMap

/-! # Ranges merged with their neighbours

`set_merge` looks for a range to merge with before the iterator that `crop_overlap` returns. Where
the end of a stored range was cut off, that entry is behind the new range. -/
namespace RangeMerging

open RangeMap

variable {K T : Type*} [LinearOrder K] [DecidableEq T]

/-- The range before the new one is adjacent and has the same value: erase it and use its
beginning. -/
def takePrevious (start : K) (value : T) (done : List (Range K T)) : K × List (Range K T) :=
  match done.getLast? with
  | none => (start, done)
  | some prev =>
    if ¬prev.stop < start ∧ prev.value = value then (prev.start, done.dropLast) else (start, done)

/-- If the range after the new one is adjacent and has its value, set its beginning; otherwise
make a new entry. -/
def joinNext (start stop : K) (value : T) (done : List (Range K T)) :
    List (Range K T) → List (Range K T)
  | [] => insertEntry ⟨stop, start, value⟩ (done ++ [])
  | next :: rest =>
    if ¬stop < next.start ∧ next.value = value then done ++ { next with start := start } :: rest
    else insertEntry ⟨stop, start, value⟩ (done ++ next :: rest)

def merge (start stop : K) (value : T) (parts : List (Range K T) × List (Range K T)) :
    List (Range K T) :=
  joinNext (takePrevious start value parts.1).1 stop value (takePrevious start value parts.1).2
    parts.2

theorem takePrevious_sublist (start : K) (value : T) (done : List (Range K T)) :
    (takePrevious start value done).2.Sublist done := by
  rw [takePrevious]
  split
  · exact List.Sublist.refl done
  split
  · exact List.dropLast_sublist done
  · exact List.Sublist.refl done

theorem sorted_joinNext (start stop : K) (value : T) {done rest : List (Range K T)}
    (h : Sorted (done ++ rest)) : Sorted (joinNext start stop value done rest) := by
  cases rest with
  | nil => exact sorted_insertEntry _ h
  | cons next rest =>
    rw [joinNext]
    split
    · obtain ⟨hdone, htail, hacross⟩ := List.pairwise_append.mp h
      refine List.pairwise_append.mpr ⟨hdone, List.pairwise_cons.mpr (List.pairwise_cons.mp htail),
        fun y hy z hz => ?_⟩
      rcases List.mem_cons.mp hz with rfl | hz
      · exact hacross y hy next List.mem_cons_self
      · exact hacross y hy z (List.mem_cons_of_mem next hz)
    · exact sorted_insertEntry _ h

variable {m : Map K T}

theorem sorted_merge (start stop : K) (value : T) :
    Sorted (merge start stop value (cropOverlap start stop m.entries)) := by
  apply sorted_joinNext
  refine List.Pairwise.sublist ?_ (sorted_cropOverlap start stop m.sorted)
  exact List.Sublist.append_right (takePrevious_sublist start value _) _

def setMerge (m : Map K T) (start stop : K) (value : T) : Map K T :=
  if start < stop then
    ⟨merge start stop value (cropOverlap start stop m.entries), sorted_merge start stop value⟩
  else m

section Iterator

omit [DecidableEq T]

def Straddles (stop : K) (x : Range K T) : Prop := x.start < stop ∧ stop < x.stop

variable {start stop : K} {entries : List (Range K T)} {x : Range K T}

theorem mem_within (h : x ∈ within start stop entries) : x ∈ entries ∧ x.start < stop := by
  have hstop := List.mem_takeWhile_imp h
  have hupper := (List.takeWhile_sublist _).subset h
  exact ⟨(List.dropWhile_sublist _).subset hupper, of_decide_eq_true hstop⟩

theorem mem_cropOverlap (hs : Sorted entries)
    (h : Separate entries) (hlt : start < stop) {y : Range K T}
    (hy : y ∈ (cropOverlap start stop entries).1) :
    y.stop ≤ start ∨ ∃ x ∈ entries, Straddles stop x ∧ y = { x with start := stop } := by
  rw [cropOverlap_eq hs h hlt] at hy
  rcases List.mem_append.mp hy with hy | hy
  · exact .inl (stop_le_of_mem_lower hy)
  · obtain ⟨x, hx, hy⟩ := mem_cropped hy
    obtain ⟨hmem, hstop⟩ := mem_within hx
    rcases mem_pieces_iff.mp hy with ⟨hclear, rfl⟩ | ⟨-, ⟨-, rfl⟩ | ⟨hright, rfl⟩⟩
    · exact .inl (hclear.resolve_right hstop.not_ge)
    · exact .inl le_rfl
    · exact .inr ⟨x, hmem, ⟨hstop, hright⟩, rfl⟩

theorem straddles_mem (hs : Sorted entries)
    (h : Separate entries) (hlt : start < stop) (hx : x ∈ entries)
    (hover : Straddles stop x) : { x with start := stop } ∈ (cropOverlap start stop entries).1 := by
  rw [cropOverlap_eq hs h hlt]
  rw [entries_eq start stop entries, List.mem_append, List.mem_append] at hx
  rcases hx with (hx | hx) | hx
  · exact absurd (stop_le_of_mem_lower hx) (hlt.trans hover.2).not_ge
  · refine List.mem_append_right _ (List.mem_flatMap.mpr ⟨x, hx, mem_pieces_iff.mpr ?_⟩)
    exact .inr ⟨⟨hover.1, hlt.trans hover.2⟩, .inr ⟨hover.2, rfl⟩⟩
  · exact absurd (stop_le_of_mem_beyond h hx) hover.1.not_ge

theorem cropOverlap_cases (hs : Sorted entries) (h : Separate entries) (hlt : start < stop) :
    ∃ left, (∀ y ∈ left, y.stop ≤ start) ∧
      ((cropOverlap start stop entries).1 = left ∧ (∀ x ∈ entries, ¬Straddles stop x) ∨
        ∃ x ∈ entries, Straddles stop x ∧
          (cropOverlap start stop entries).1 = left ++ [{ x with start := stop }]) := by
  have hsep : Separate (cropOverlap start stop entries).1 := by
    apply (separate_cropped h hlt).sublist
    rw [← cropOverlap_append hs h hlt]
    exact List.sublist_append_left _ _
  by_cases hnone : ∀ y ∈ (cropOverlap start stop entries).1, y.stop ≤ start
  · refine ⟨_, hnone, .inl ⟨rfl, fun x hx hover => ?_⟩⟩
    exact absurd (hnone _ (straddles_mem hs h hlt hx hover)) (hlt.trans hover.2).not_ge
  · simp only [not_forall] at hnone
    obtain ⟨y, hy, hbehind⟩ := hnone
    obtain ⟨x, hx, hover, rfl⟩ := (mem_cropOverlap hs h hlt hy).resolve_left hbehind
    obtain ⟨left, later, hsplit⟩ := List.append_of_mem hy
    rw [hsplit] at hsep
    obtain ⟨-, hcons, hacross⟩ := separate_append.mp hsep
    have hmem : ∀ z, z ∈ left ∨ z ∈ later → z ∈ (cropOverlap start stop entries).1 := by
      intro z hz
      rw [hsplit, List.mem_append]
      exact hz.imp_right (List.mem_cons_of_mem _)
    have hlater : later = [] := by
      refine List.eq_nil_iff_forall_not_mem.mpr fun z hz => ?_
      have hstart : x.stop ≤ z.start := (separate_cons.mp hcons).2.1 z hz
      have hlong := hsep.nonempty z (List.mem_append_right _ (List.mem_cons_of_mem _ hz))
      rcases mem_cropOverlap hs h hlt (hmem z (.inr hz)) with hbefore | ⟨w, -, -, rfl⟩
      · exact absurd hbefore ((hlt.trans hover.2).trans_le (hstart.trans hlong.le)).not_ge
      · exact absurd hstart hover.2.not_ge
    rw [hlater] at hsplit
    refine ⟨left, fun z hz => ?_, .inr ⟨x, hx, hover, hsplit⟩⟩
    rcases mem_cropOverlap hs h hlt (hmem z (.inl hz)) with hbefore | ⟨w, -, hw, rfl⟩
    · exact hbefore
    · exact absurd (hacross _ hz _ List.mem_cons_self) hw.2.not_ge

def Maximal (entries : List (Range K T)) : Prop :=
  entries.Pairwise fun x y => x.stop = y.start → x.value ≠ y.value

theorem maximal_cropped (h : Separate entries)
    (hmax : Maximal entries) (hlt : start < stop) : Maximal (cropped start stop entries) := by
  refine List.pairwise_flatMap.mpr ⟨fun x hx => ?_, ?_⟩
  · -- the two pieces of one range have the new range between them
    rw [pieces]
    split
    · refine List.pairwise_append.mpr ⟨?_, ?_, ?_⟩
      · split <;> simp
      · split <;> simp
      · grind
    · exact List.pairwise_singleton _ _
  · refine (h.apart.and hmax).imp_of_mem fun {x z} hx hz hxz y hy w hw htouch => ?_
    have hy := mem_pieces hy (h.nonempty x hx)
    have hw := mem_pieces hw (h.nonempty z hz)
    rw [hy.2.2.2.2, hw.2.2.2.2]
    apply hxz.2
    apply le_antisymm hxz.1
    calc z.start ≤ w.start := hw.1
      _ = y.stop := htouch.symm
      _ ≤ x.stop := hy.2.2.1

/-- Of the ranges before the new one those in `kept` stay; the keys from `first` on go to the new
one, with their value. -/
structure Taken (start : K) (value : T) (left : List (Range K T)) (first : K)
    (kept : List (Range K T)) : Prop where
  first_le : first ≤ start
  sublist : kept.Sublist left
  before : ∀ y ∈ kept, y.stop ≤ first
  covers : ∀ key v,
    Covers left key v ↔ Covers kept key v ∨ (first ≤ key ∧ key < start) ∧ value = v

/-- Of the ranges behind the new one those in `later` stay; the keys before `last` go to the new
one. -/
structure Grown (stop : K) (value : T) (right : List (Range K T)) (last : K)
    (later : List (Range K T)) : Prop where
  le_last : stop ≤ last
  sublist : later.Sublist right
  behind : ∀ y ∈ later, last ≤ y.start
  covers : ∀ key v,
    Covers right key v ↔ Covers later key v ∨ (stop ≤ key ∧ key < last) ∧ value = v

theorem Taken.refl {left : List (Range K T)} (value : T)
    (h : ∀ y ∈ left, y.stop ≤ start) : Taken start value left start left := by
  refine ⟨le_rfl, List.Sublist.refl left, h, fun key v => ?_⟩
  have hempty : ¬(start ≤ key ∧ key < start) := fun hkey => hkey.2.not_ge hkey.1
  simp [hempty]

theorem Grown.refl {right : List (Range K T)} (value : T)
    (h : ∀ y ∈ right, stop ≤ y.start) : Grown stop value right stop right := by
  refine ⟨le_rfl, List.Sublist.refl right, h, fun key v => ?_⟩
  have hempty : ¬(stop ≤ key ∧ key < stop) := fun hkey => hkey.2.not_ge hkey.1
  simp [hempty]

theorem contains_split (key : K) {first last : K} (hfirst : first ≤ start) (hlt : start ≤ stop)
    (hlast : stop ≤ last) : first ≤ key ∧ key < last ↔
      (first ≤ key ∧ key < start) ∨ (start ≤ key ∧ key < stop) ∨ (stop ≤ key ∧ key < last) := by
  grind

section Joined

variable {start stop first last : K} {value : T} {before left right kept later : List (Range K T)}

theorem separate_joined (ht : Taken start value left first kept)
    (hg : Grown stop value right last later) (hlt : start < stop) (h : Separate (left ++ right)) :
    Separate (kept ++ ⟨last, first, value⟩ :: later) :=
  separate_gap (h.sublist (ht.sublist.append hg.sublist))
    (ht.first_le.trans_lt (hlt.trans_le hg.le_last)) ht.before hg.behind

theorem overwrites_joined (ht : Taken start value left first kept)
    (hg : Grown stop value right last later) (hlt : start < stop)
    (hcrop : cropped start stop before = left ++ right) :
    Overwrites before (kept ++ ⟨last, first, value⟩ :: later) start stop value := by
  intro key v
  have hkeys := contains_split key ht.first_le hlt.le hg.le_last
  rw [← covers_cropped, hcrop, covers_gap, Covers.append, Covers.append, ht.covers, hg.covers,
    Range.Contains, hkeys, or_and_right, or_and_right]
  simp only [or_assoc, or_left_comm, or_comm]

theorem maximal_joined (ht : Taken start value left first kept)
    (hg : Grown stop value right last later) (hmax : Maximal (left ++ right)) :
    Maximal (kept ++ ⟨last, first, value⟩ :: later) ↔
      (∀ y ∈ kept, y.stop = first → y.value ≠ value) ∧
        ∀ y ∈ later, last = y.start → value ≠ y.value := by
  have hsub : Maximal (kept ++ later) := hmax.sublist (ht.sublist.append hg.sublist)
  obtain ⟨hkept, hlater, hacross⟩ := List.pairwise_append.mp hsub
  constructor
  · intro h
    obtain ⟨-, hcons, hleft⟩ := List.pairwise_append.mp h
    exact ⟨fun y hy => hleft y hy _ List.mem_cons_self, (List.pairwise_cons.mp hcons).1⟩
  · rintro ⟨hleft, hright⟩
    refine List.pairwise_append.mpr ⟨hkept, List.pairwise_cons.mpr ⟨hright, hlater⟩,
      fun y hy z hz => ?_⟩
    rcases List.mem_cons.mp hz with rfl | hz
    · exact hleft y hy
    · exact hacross y hy z hz

end Joined

end Iterator

theorem takePrevious_concat (start : K) (value : T) (init : List (Range K T)) (prev : Range K T) :
    takePrevious start value (init ++ [prev]) =
      if ¬prev.stop < start ∧ prev.value = value then (prev.start, init)
      else (start, init ++ [prev]) := by
  simp only [takePrevious, List.getLast?_concat, List.dropLast_concat]

variable {start : K}

theorem takePrevious_spec (value : T) {left : List (Range K T)} (h : Separate left)
    (hmax : Maximal left) (hbefore : ∀ y ∈ left, y.stop ≤ start) :
    ∃ first kept, takePrevious start value left = (first, kept) ∧
      Taken start value left first kept ∧ ∀ y ∈ kept, y.stop = first → y.value ≠ value := by
  rcases List.eq_nil_or_concat left with rfl | ⟨init, prev, hconcat⟩
  · exact ⟨start, [], rfl, .refl value (by simp), by simp⟩
  cases hconcat.trans List.concat_eq_append
  obtain ⟨-, hprev, hacross⟩ := separate_append.mp h
  have hlong := hprev.nonempty prev List.mem_cons_self
  have hprevStop := hbefore prev (by simp)
  rw [takePrevious_concat]
  split
  · next htake =>
    have hstop : prev.stop = start := le_antisymm hprevStop (not_lt.mp htake.1)
    refine ⟨prev.start, init, rfl, ⟨?_, List.sublist_append_left _ _, fun y hy => ?_,
      fun key v => ?_⟩, fun y hy htouch => ?_⟩
    · exact hlong.le.trans hprevStop
    · exact hacross y hy prev List.mem_cons_self
    · rw [Covers.append, Covers.singleton, Range.Contains, hstop, htake.2]
    · rw [← htake.2]
      exact (List.pairwise_append.mp hmax).2.2 y hy prev List.mem_cons_self htouch
  · next hleave =>
    refine ⟨start, init ++ [prev], rfl, .refl value hbefore, fun y hy htouch hvalue => ?_⟩
    rcases List.mem_append.mp hy with hy | hy
    · have := (hacross y hy prev List.mem_cons_self).trans_lt hlong
      exact absurd hprevStop (htouch ▸ this).not_ge
    · cases List.mem_singleton.mp hy
      exact hleave ⟨htouch.not_lt, hvalue⟩

variable {stop : K} {value : T} {kept right : List (Range K T)}

theorem joinNext_of_not {first : K} (h : ∀ y ∈ right.head?, stop < y.start ∨ y.value ≠ value) :
    joinNext first stop value kept right = insertEntry ⟨stop, first, value⟩ (kept ++ right) := by
  cases right with
  | nil => rfl
  | cons next rest =>
    rw [joinNext, if_neg]
    rintro ⟨hstart, hvalue⟩
    exact (h next rfl).elim hstart (absurd hvalue)

theorem joinNext_spec (first : K) (value : T)
    (h : Separate right) (hmax : Maximal right) (hkept : ∀ y ∈ kept, y.stop < stop)
    (hbehind : ∀ y ∈ right, stop ≤ y.start) :
    ∃ last later, joinNext first stop value kept right = kept ++ ⟨last, first, value⟩ :: later ∧
      Grown stop value right last later ∧ ∀ y ∈ later, last = y.start → value ≠ y.value := by
  by_cases hjoin : ∀ y ∈ right.head?, stop < y.start ∨ y.value ≠ value
  · refine ⟨stop, right, ?_, .refl value hbehind, fun y hy htouch hvalue => ?_⟩
    · rw [joinNext_of_not hjoin]
      exact insertEntry_between hkept fun y hy => (hbehind y hy).trans_lt (h.nonempty y hy)
    · cases right with
      | nil => cases hy
      | cons next rest =>
        obtain ⟨hnext, hrest, -⟩ := separate_cons.mp h
        rcases List.mem_cons.mp hy with rfl | hy
        · exact (hjoin y rfl).elim htouch.not_lt fun hne => hne hvalue.symm
        · have hstart := (hbehind next List.mem_cons_self).trans_lt (hnext.trans_le (hrest y hy))
          exact absurd htouch hstart.ne
  · cases right with
    | nil => exact absurd (by simp) hjoin
    | cons next rest =>
      obtain ⟨hnext, hrest, -⟩ := separate_cons.mp h
      have hadjacent : ¬stop < next.start ∧ next.value = value := by
        simpa [not_or] using hjoin
      have hstart : stop = next.start :=
        le_antisymm (hbehind next List.mem_cons_self) (not_lt.mp hadjacent.1)
      refine ⟨next.stop, rest, ?_, ⟨?_, List.sublist_cons_self next rest, hrest, fun key v => ?_⟩,
        fun y hy htouch => ?_⟩
      · rw [joinNext, if_pos hadjacent, ← hadjacent.2]
      · exact hstart.le.trans hnext.le
      · rw [← List.singleton_append, Covers.append, Covers.singleton, Range.Contains, hstart,
          hadjacent.2, or_comm]
      · rw [← hadjacent.2]
        exact (List.pairwise_cons.mp hmax).1 y hy htouch

omit [DecidableEq T] in
theorem adjacent_iff {entries : List (Range K T)} (h : Separate entries)
    (hlt : start < stop) (value : T) :
    (∃ y ∈ cropped start stop entries, y.stop = start ∧ y.value = value) ↔
      ∃ x ∈ entries, (x.start < start ∧ start ≤ x.stop) ∧ x.value = value := by
  constructor
  · rintro ⟨y, hy, hstop, hvalue⟩
    obtain ⟨x, hx, hy⟩ := mem_cropped hy
    have hpiece := mem_pieces hy (h.nonempty x hx)
    refine ⟨x, hx, ⟨hpiece.1.trans_lt (hstop ▸ hpiece.2.1), hstop ▸ hpiece.2.2.1⟩, ?_⟩
    rw [← hpiece.2.2.2.2, hvalue]
  · rintro ⟨x, hx, ⟨hstart, hstop⟩, hvalue⟩
    rcases hstop.eq_or_lt with heq | hgt
    · exact ⟨x, List.mem_flatMap.mpr ⟨x, hx, mem_pieces_iff.mpr (.inl ⟨.inl heq.ge, rfl⟩)⟩,
        heq.symm, hvalue⟩
    · refine ⟨{ x with stop := start }, List.mem_flatMap.mpr ⟨x, hx, mem_pieces_iff.mpr ?_⟩, rfl,
        hvalue⟩
      exact .inr ⟨⟨hstart.trans hlt, hgt⟩, .inl ⟨hstart, rfl⟩⟩

theorem setMerge_entries (hlt : start < stop) (value : T) :
    (setMerge m start stop value).entries =
      merge start stop value (cropOverlap start stop m.entries) := by
  rw [setMerge, if_pos hlt]

theorem setMerge_of_clear (h : Separate m.entries) (hmax : Maximal m.entries)
    (hlt : start < stop) (value : T)
    (hclear : ∀ x ∈ m.entries, ¬Straddles stop x) :
    Separate (setMerge m start stop value).entries ∧
      Overwrites m.entries (setMerge m start stop value).entries start stop value ∧
      Maximal (setMerge m start stop value).entries := by
  obtain ⟨left, hbefore, ⟨hleft, -⟩ | ⟨x, hx, hover, -⟩⟩ := cropOverlap_cases m.sorted h hlt
  · have hbeyond := congrArg Prod.snd (cropOverlap_eq m.sorted h hlt)
    have hcrop : cropped start stop m.entries = left ++ beyond start stop m.entries := by
      rw [← cropOverlap_append m.sorted h hlt, hleft, hbeyond]
    have hsep := hcrop ▸ separate_cropped h hlt
    have hpieces := hcrop ▸ maximal_cropped h hmax hlt
    obtain ⟨hsepl, hsepr, -⟩ := separate_append.mp hsep
    obtain ⟨hmaxl, hmaxr, -⟩ := List.pairwise_append.mp hpieces
    obtain ⟨first, kept, htake, ht, hleftTouch⟩ :=
      takePrevious_spec value hsepl hmaxl hbefore
    obtain ⟨last, later, hjoin, hg, hrightTouch⟩ :=
      joinNext_spec first value hsepr hmaxr
        (fun y hy => (hbefore y (ht.sublist.subset hy)).trans_lt hlt)
        fun y hy => stop_le_of_mem_beyond h hy
    rw [setMerge_entries hlt, merge, hleft, hbeyond, htake, hjoin]
    exact ⟨separate_joined ht hg hlt hsep, overwrites_joined ht hg hlt hcrop,
      (maximal_joined ht hg hpieces).mpr ⟨hleftTouch, hrightTouch⟩⟩
  · exact absurd hover (hclear x hx)

variable {x : Range K T}

omit [DecidableEq T] in
theorem cropOverlap_of_straddles (h : Separate m.entries)
    (hlt : start < stop) (hx : x ∈ m.entries) (hover : Straddles stop x) :
    ∃ left right, cropOverlap start stop m.entries = (left ++ [{ x with start := stop }], right) ∧
      cropped start stop m.entries = left ++ { x with start := stop } :: right ∧
      (∀ y ∈ left, y.stop ≤ start) ∧ ∀ y ∈ right, stop < y.start := by
  obtain ⟨left, hbefore, ⟨-, hclear⟩ | ⟨w, hw, hwover, hleft⟩⟩ := cropOverlap_cases m.sorted h hlt
  · exact absurd hover (hclear x hx)
  -- two ranges that both have the key `stop` are one
  have hfound : ∀ z ∈ m.entries, Straddles stop z → m.find stop = some z := fun z hz hzover =>
    (find_eq_some h).mpr ⟨hz, hzover.1.le, hzover.2⟩
  cases Option.some.inj ((hfound w hw hwover).symm.trans (hfound x hx hover))
  have hcrop : cropped start stop m.entries =
      left ++ { x with start := stop } :: (cropOverlap start stop m.entries).2 := by
    rw [← cropOverlap_append m.sorted h hlt, hleft, List.append_assoc, List.singleton_append]
  refine ⟨left, _, Prod.ext hleft rfl, hcrop, hbefore, fun y hy => ?_⟩
  have hsep := hcrop ▸ separate_cropped h hlt
  obtain ⟨-, hcons, -⟩ := separate_append.mp hsep
  exact hover.2.trans_le ((separate_cons.mp hcons).2.1 y hy)

/-- The piece behind the new range is taken for the range before it and erased, and the new range
is given its beginning and is empty. -/
theorem setMerge_of_same (h : Separate m.entries)
    (hlt : start < stop) (hx : x ∈ m.entries) (hover : Straddles stop x) :
    ¬Separate (setMerge m start stop x.value).entries := by
  obtain ⟨left, right, hparts, hcrop, hbefore, hbehind⟩ := cropOverlap_of_straddles h hlt hx hover
  have hnonempty := (hcrop ▸ separate_cropped h hlt).nonempty
  have hentries : (setMerge m start stop x.value).entries =
      left ++ ⟨stop, stop, x.value⟩ :: right := by
    rw [setMerge_entries hlt, hparts, merge, takePrevious_concat,
      if_pos ⟨(hlt.trans hover.2).not_gt, rfl⟩, joinNext_of_not, insertEntry_between]
    · exact fun y hy => (hbefore y hy).trans_lt hlt
    · exact fun y hy => (hbehind y hy).trans
        (hnonempty y (List.mem_append_right _ (List.mem_cons_of_mem _ hy)))
    · exact fun y hy => .inl (hbehind y (List.mem_of_head? hy))
  intro hsep
  rw [hentries] at hsep
  exact (hsep.nonempty ⟨stop, stop, x.value⟩ (List.mem_append_right _ List.mem_cons_self)).false

/-- With another value it only hides the range before the new one. -/
theorem setMerge_of_other (h : Separate m.entries) (hmax : Maximal m.entries)
    (hlt : start < stop) (hx : x ∈ m.entries)
    (hover : Straddles stop x) (hvalue : x.value ≠ value) :
    Separate (setMerge m start stop value).entries ∧
      Overwrites m.entries (setMerge m start stop value).entries start stop value ∧
      (Maximal (setMerge m start stop value).entries ↔
        ∀ y ∈ m.entries, y.start < start ∧ start ≤ y.stop → y.value ≠ value) := by
  obtain ⟨left, right, hparts, hcrop, hbefore, hbehind⟩ := cropOverlap_of_straddles h hlt hx hover
  have hsep := hcrop ▸ separate_cropped h hlt
  have hpieces := hcrop ▸ maximal_cropped h hmax hlt
  have ht : Taken start value left start left := .refl value hbefore
  have hg : Grown stop value ({ x with start := stop } :: right) stop
      ({ x with start := stop } :: right) := by
    refine .refl value fun y hy => ?_
    rcases List.mem_cons.mp hy with rfl | hy
    · exact le_rfl
    · exact (hbehind y hy).le
  have hentries : (setMerge m start stop value).entries =
      left ++ ⟨stop, start, value⟩ :: { x with start := stop } :: right := by
    rw [setMerge_entries hlt, hparts, merge, takePrevious_concat,
      if_neg fun htake => hvalue htake.2,
      joinNext_of_not fun y hy => .inl (hbehind y (List.mem_of_head? hy)), List.append_assoc,
      List.singleton_append, insertEntry_between]
    · exact fun y hy => (hbefore y hy).trans_lt hlt
    · exact fun y hy => (hg.behind y hy).trans_lt (hsep.nonempty y (List.mem_append_right _ hy))
  rw [hentries]
  refine ⟨separate_joined ht hg hlt hsep, overwrites_joined ht hg hlt hcrop, ?_⟩
  have hadjacent := adjacent_iff h hlt value
  rw [maximal_joined ht hg hpieces]
  constructor
  · rintro ⟨hleft, -⟩ y hy hreach heq
    obtain ⟨z, hz, hstop, hzvalue⟩ := hadjacent.mpr ⟨y, hy, hreach, heq⟩
    rw [hcrop] at hz
    rcases List.mem_append.mp hz with hz | hz
    · exact hleft z hz hstop hzvalue
    · have hlong := hsep.nonempty z (List.mem_append_right _ hz)
      exact absurd hstop ((hlt.trans_le (hg.behind z hz)).trans hlong).ne'
  · intro hreach
    refine ⟨fun y hy hstop heq => ?_, fun y hy htouch => ?_⟩
    · obtain ⟨z, hz, hzreach, hzvalue⟩ :=
        hadjacent.mp ⟨y, hcrop ▸ List.mem_append_left _ hy, hstop, heq⟩
      exact hreach z hz hzreach hzvalue
    · rcases List.mem_cons.mp hy with rfl | hy
      · exact hvalue.symm
      · exact absurd htouch (hbehind y hy).ne

/-- No range with the value of the call goes on behind its end, and if one with another value
does, no range with its value reaches its beginning. -/
def Fits (entries : List (Range K T)) (call : Range K T) : Prop :=
  ∀ x ∈ entries, Straddles call.stop x → x.value ≠ call.value ∧
    ∀ y ∈ entries, y.start < call.start ∧ call.start ≤ y.stop → y.value ≠ call.value

def callMerge (m : Map K T) (call : Range K T) : Map K T :=
  setMerge m call.start call.stop call.value

variable {call : Range K T}

theorem callMerge_of_fits (h : Separate m.entries) (hmax : Maximal m.entries)
    (hfits : call.start < call.stop → Fits m.entries call) :
    Separate (callMerge m call).entries ∧
      Overwrites m.entries (callMerge m call).entries call.start call.stop call.value ∧
      Maximal (callMerge m call).entries := by
  by_cases hlt : call.start < call.stop
  · by_cases hclear : ∀ x ∈ m.entries, ¬Straddles call.stop x
    · exact setMerge_of_clear h hmax hlt call.value hclear
    · simp only [not_forall, not_not] at hclear
      obtain ⟨x, hx, hover⟩ := hclear
      obtain ⟨hvalue, hreach⟩ := hfits hlt x hx hover
      obtain ⟨hsep, hwrites, hmaximal⟩ := setMerge_of_other h hmax hlt hx hover hvalue
      exact ⟨hsep, hwrites, hmaximal.mpr hreach⟩
  · rw [callMerge, setMerge, if_neg hlt]
    exact ⟨h, overwrites_of_empty hlt, hmax⟩

theorem fits_of_callMerge (h : Separate m.entries) (hmax : Maximal m.entries)
    (hlt : call.start < call.stop) (hsep : Separate (callMerge m call).entries)
    (hmaximal : Maximal (callMerge m call).entries) : Fits m.entries call := by
  intro x hx hover
  have hvalue : x.value ≠ call.value := by
    intro heq
    rw [callMerge, ← heq] at hsep
    exact setMerge_of_same h hlt hx hover hsep
  exact ⟨hvalue, (setMerge_of_other h hmax hlt hx hover hvalue).2.2.mp hmaximal⟩

def setMerges (calls : List (Range K T)) : Map K T := calls.foldl callMerge .empty

structure Merged (calls : List (Range K T)) : Prop where
  answers : Answers (setMerges calls) calls
  maximal : Maximal (setMerges calls).entries

theorem merged_nil : Merged ([] : List (Range K T)) :=
  ⟨answers_iff.mpr ⟨separate_nil, reflects_nil⟩, List.Pairwise.nil⟩

theorem setMerges_concat (calls : List (Range K T)) (call : Range K T) :
    setMerges (calls ++ [call]) = callMerge (setMerges calls) call := by
  rw [setMerges, List.foldl_append]
  rfl

theorem Merged.concat {calls : List (Range K T)} (h : Merged calls)
    (hfits : call.start < call.stop → Fits (setMerges calls).entries call) :
    Merged (calls ++ [call]) := by
  obtain ⟨hsep, href⟩ := answers_iff.mp h.answers
  obtain ⟨hsep', hwrites, hmax⟩ := callMerge_of_fits hsep h.maximal hfits
  refine ⟨answers_iff.mpr ?_, ?_⟩
  · rw [setMerges_concat]
    exact ⟨hsep', href.concat hwrites⟩
  · rw [setMerges_concat]
    exact hmax

/-- The map is right after each call of a sequence just when each call fits the ranges it finds.
-/
theorem merged_iff (calls : List (Range K T)) :
    (∀ done rest, calls = done ++ rest → Merged done) ↔
      ∀ done call rest, calls = done ++ call :: rest → call.start < call.stop →
        Fits (setMerges done).entries call := by
  constructor
  · intro h done call rest hcalls hlt
    have hdone := h done (call :: rest) hcalls
    have hnext := h (done ++ [call]) rest (by rw [hcalls, List.append_cons])
    have hsep := hnext.answers.separate
    have hmax := hnext.maximal
    rw [setMerges_concat] at hsep hmax
    exact fits_of_callMerge hdone.answers.separate hdone.maximal hlt hsep hmax
  · intro h done
    induction done using List.reverseRecOn with
    | nil => exact fun _ _ => merged_nil
    | append_singleton done call ih =>
      intro rest hcalls
      rw [← List.append_cons] at hcalls
      exact (ih _ hcalls).concat (h done call rest hcalls)

/-- A range set inside one with the same value is lost, and an empty one is stored. -/
theorem merged_inside :
    (setMerges [(⟨10, 0, 1⟩ : Range ℕ ℕ), ⟨5, 2, 1⟩]).entries = [⟨2, 0, 1⟩, ⟨5, 5, 1⟩] ∧
      (setMerges [(⟨10, 0, 1⟩ : Range ℕ ℕ), ⟨5, 2, 1⟩]).get 3 =
        .error (.outOfRange "RangeMap::get") ∧
      ¬Merged [(⟨10, 0, 1⟩ : Range ℕ ℕ), ⟨5, 2, 1⟩] := by
  refine ⟨by decide, by decide, fun h => ?_⟩
  have hsep := h.answers.separate.nonempty ⟨5, 5, 1⟩ (by decide)
  exact absurd hsep (by decide)

end RangeMerging
