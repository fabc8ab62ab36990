import Rtorrent.RingCopies
import Rtorrent.RpcTextParser

/-! # The history of the text inputs

Each kind of input has a ring of the texts that were entered, read from the insert position
around; an empty slot is no entry. -/
namespace InputHistory

open RpcTextParser RingCopies

inductive Input where
  | loadDefault
  | loadModified
  | changeDirectory
  | command
  | filter
  deriving DecidableEq, Repr

structure Category where
  slots : List Text
  pointer : ℕ
  pointer_lt : pointer < slots.length

/-- All categories have the length of the history. -/
structure History where
  length : ℕ
  category : Input → Category
  length_slots : ∀ type, (category type).slots.length = length

def nonEmpty (slots : List Text) : List Text := slots.filter fun text => !text.isEmpty

def Category.reading (c : Category) : List Text := c.slots.rotate c.pointer

def Category.entries (c : Category) : List Text := nonEmpty c.reading

def Category.previous (c : Category) : ℕ :=
  if c.pointer = 0 then c.slots.length - 1 else c.pointer - 1

/-- The function `trim` is `torrent::utils::trim_spaces_str`. -/
def Category.add (trim : Text → Text) (item : Text) (c : Category) : Category :=
  if ¬item.isEmpty ∧ item ≠ c.slots.getD c.previous [] then
    { slots := c.slots.set c.pointer (trim item)
      pointer := (c.pointer + 1) % c.slots.length
      pointer_lt := by
        rw [List.length_set]
        exact Nat.mod_lt _ (Nat.zero_lt_of_lt c.pointer_lt) }
  else c

theorem Category.length_add (trim : Text → Text) (item : Text) (c : Category) :
    (c.add trim item).slots.length = c.slots.length := by
  unfold Category.add
  split
  · exact List.length_set
  · rfl

def History.addToInputHistory (trim : Text → Text) (type : Input) (item : Text) (h : History) :
    History where
  length := h.length
  category := Function.update h.category type ((h.category type).add trim item)
  length_slots := by
    intro other
    by_cases heq : other = type
    · subst heq
      rw [Function.update_self, Category.length_add, h.length_slots]
    · rw [Function.update_of_ne heq, h.length_slots]

/-- `std::vector::resize` -/
def resize (slots : List Text) (size : ℕ) : List Text :=
  slots.take size ++ List.replicate (size - slots.length) []

theorem length_resize (slots : List Text) (size : ℕ) : (resize slots size).length = size := by
  rw [resize, List.length_append, List.length_take, List.length_replicate]
  omega

def Category.source (c : Category) (size i : ℕ) : ℕ :=
  (c.pointer + (c.slots.length - size) + i) % c.slots.length

/-- The slots after the loop that copies the newest to the front, in place. -/
def Category.shifted (c : Category) (size : ℕ) : List Text :=
  copyLoop [] (c.source size) size 0 c.slots

theorem Category.length_shifted (c : Category) (size : ℕ) :
    (c.shifted size).length = c.slots.length := length_copyLoop

def Category.setSize (c : Category) (size : ℕ) (hsize : 0 < size) : Category where
  slots := resize (if size < c.slots.length then c.shifted size else c.slots) size
  pointer := if size < c.slots.length then 0 else c.pointer
  pointer_lt := by
    rw [length_resize]
    have := c.pointer_lt
    split <;> omega

def maxInputHistorySize : ℤ := 4096

def History.setInputHistorySize (size : ℤ) (h : History) : Except Failure History :=
  if hsize : size < 1 ∨ maxInputHistorySize < size then
    inputError ("Input history size must be between 1 and " ++ toString maxInputHistorySize ++ ".")
  else
    .ok {
      length := size.toNat
      category := fun type => (h.category type).setSize size.toNat (by omega)
      length_slots := fun _ => length_resize _ _ }

/-- The log of all texts that were stored, which is never cut. -/
def record (trim : Text → Text) (log : List Text) (item : Text) : List Text :=
  if ¬item.isEmpty ∧ item ≠ log.getLastD [] then log ++ [trim item] else log

structure Follows (c : Category) (log : List Text) : Prop where
  length_le : c.slots.length ≤ log.length
  reading_eq : c.reading = log.rtake c.slots.length

theorem getLastD_eq_getD (l : List Text) : l.getLastD [] = l.getD (l.length - 1) [] := by
  rw [List.getLastD_eq_getLast?, List.getLast?_eq_getElem?, List.getD_eq_getElem?_getD]

variable {l : List Text}

theorem getLastD_rtake {n : ℕ} (hn : 0 < n) (hle : n ≤ l.length) :
    (l.rtake n).getLastD [] = l.getLastD [] := by
  rw [getLastD_eq_getD, getLastD_eq_getD, length_rtake, List.rtake, getD_drop]
  congr 1
  omega

namespace Category

variable (c : Category)

theorem length_reading : c.reading.length = c.slots.length := List.length_rotate _ _

theorem length_pos : 0 < c.slots.length := Nat.zero_lt_of_lt c.pointer_lt

theorem getD_previous : c.slots.getD c.previous [] = c.reading.getLastD [] := by
  have hlt := c.pointer_lt
  rw [getLastD_eq_getD, length_reading, reading, getD_rotate (by omega), previous]
  congr 1
  split
  · next hzero =>
    rw [hzero, Nat.add_zero, Nat.mod_eq_of_lt (by omega)]
  · rw [show c.slots.length - 1 + c.pointer = c.pointer - 1 + c.slots.length by omega,
      Nat.add_mod_right, Nat.mod_eq_of_lt (by omega)]

end Category

variable {c : Category}

theorem Follows.add {log : List Text} (h : Follows c log) (trim : Text → Text)
    (item : Text) : Follows (c.add trim item) (record trim log item) := by
  have hlast : c.slots.getD c.previous [] = log.getLastD [] := by
    rw [c.getD_previous, h.reading_eq, getLastD_rtake c.length_pos h.length_le]
  unfold Category.add record
  rw [hlast]
  split
  · refine ⟨?_, ?_⟩
    · have hle := h.length_le
      rw [List.length_set, List.length_append]
      omega
    · have hread : c.slots.rotate c.pointer = log.rtake c.slots.length := h.reading_eq
      rw [List.length_set, Category.reading, rotate_write c.pointer_lt, hread,
        rtake_concat h.length_le]
  · exact h

def Category.addAll (trim : Text → Text) (items : List Text) (c : Category) : Category :=
  items.foldl (fun c item => c.add trim item) c

theorem Category.length_addAll (trim : Text → Text) (items : List Text) (c : Category) :
    (c.addAll trim items).slots.length = c.slots.length := by
  induction items generalizing c with
  | nil => rfl
  | cons item items ih => exact (ih _).trans (c.length_add trim item)

theorem Follows.addAll {log : List Text} (h : Follows c log) (trim : Text → Text)
    (items : List Text) : Follows (c.addAll trim items) (items.foldl (record trim) log) := by
  induction items generalizing c log with
  | nil => exact h
  | cons item items ih => exact ih (h.add trim item)

/-- A category as the constructor of `Root` makes it. -/
def Category.fresh (length : ℕ) (hpos : 0 < length) : Category where
  slots := List.replicate length []
  pointer := 0
  pointer_lt := by rwa [List.length_replicate]

theorem follows_fresh (length : ℕ) (hpos : 0 < length) :
    Follows (.fresh length hpos) (List.replicate length []) := by
  have hread : (Category.fresh length hpos).reading = List.replicate length [] :=
    List.rotate_zero _
  exact ⟨Nat.le_refl _, hread.trans (rtake_of_length_le (Nat.le_refl _)).symm⟩

/-- The entries of a history are the newest of what was stored since the start. -/
theorem fresh_entries {length : ℕ} (hpos : 0 < length) (trim : Text → Text) (items : List Text) :
    ((Category.fresh length hpos).addAll trim items).entries =
      nonEmpty ((items.foldl (record trim) (List.replicate length [])).rtake length) := by
  have hfollows := (follows_fresh length hpos).addAll trim items
  have hlen : ((Category.fresh length hpos).addAll trim items).slots.length = length := by
    rw [Category.length_addAll]
    exact List.length_replicate
  rw [Category.entries, hfollows.reading_eq, hlen]

theorem fresh_entries_repeated :
    ((Category.fresh 2 (by decide)).addAll id [['a'], ['b'], ['b'], ['c']]).entries =
      [['b'], ['c']] := fresh_entries (by decide) id _

/-- The entries of every category are the newest of those it had. -/
def KeepsNewest (size : ℕ) (h : History) : Prop :=
  ∃ t, h.setInputHistorySize size = .ok t ∧
    ∀ type, (t.category type).entries = (h.category type).entries.rtake size

structure Category.SameShape (c c' : Category) : Prop where
  pointer_eq : c'.pointer = c.pointer
  empty_eq : c'.slots.map List.isEmpty = c.slots.map List.isEmpty

def History.SameShape (h h' : History) : Prop :=
  ∀ type, (h.category type).SameShape (h'.category type)

/-- The slots that are to be dropped are empty or the others are all entries. -/
def Category.Separated (c : Category) (size : ℕ) : Prop :=
  (∀ text ∈ c.reading.take (c.slots.length - size), text = []) ∨
    ∀ text ∈ c.reading.drop (c.slots.length - size), text ≠ []

/-- No smaller size, or none where the copy reads what it has written and separated entries, or one
where it does and where only slots that it reads once are entries. -/
def Category.Fits (c : Category) (size : ℕ) : Prop :=
  c.slots.length ≤ size ∨
    ((c.pointer = 0 ∨ size ≤ c.pointer) ∧ c.Separated size) ∨
    (0 < c.pointer ∧ c.pointer < size ∧
      ∀ i < c.pointer + (c.slots.length - size) + c.pointer, c.slots.getD i [] = [])

theorem nonEmpty_append (l l' : List Text) : nonEmpty (l ++ l') = nonEmpty l ++ nonEmpty l' :=
  List.filter_append _ _

theorem isEntry_iff {text : Text} : (!text.isEmpty) = true ↔ text ≠ [] := by
  rw [Bool.not_eq_true', Bool.eq_false_iff, ne_eq, List.isEmpty_iff]

theorem mem_nonEmpty {text : Text} : text ∈ nonEmpty l ↔ text ∈ l ∧ text ≠ [] := by
  rw [nonEmpty, List.mem_filter, isEntry_iff]

theorem nonEmpty_eq_nil_iff_mem : nonEmpty l = [] ↔ ∀ text ∈ l, text = [] := by
  rw [nonEmpty, List.filter_eq_nil_iff]
  exact forall₂_congr fun text _ => by rw [isEntry_iff, not_not]

theorem nonEmpty_eq_nil_iff : nonEmpty l = [] ↔ ∀ i, l.getD i [] = [] := by
  rw [nonEmpty_eq_nil_iff_mem, List.forall_mem_iff_getElem]
  constructor
  · intro h i
    by_cases hi : i < l.length
    · rw [List.getD_eq_getElem l [] hi, h i hi]
    · exact List.getD_eq_default l [] (Nat.le_of_not_lt hi)
  · intro h i hi
    rw [← List.getD_eq_getElem l [] hi, h i]

theorem nonEmpty_take_eq_nil_iff {n : ℕ} :
    nonEmpty (l.take n) = [] ↔ ∀ i < n, l.getD i [] = [] := by
  rw [nonEmpty_eq_nil_iff]
  refine forall_congr' fun i => ?_
  rw [getD_take]
  split
  · next hi => exact ⟨fun h _ => h, fun h => h hi⟩
  · next hi => exact iff_of_true rfl fun hlt => absurd hlt hi

theorem nonEmpty_replicate (n : ℕ) : nonEmpty (List.replicate n []) = [] :=
  nonEmpty_eq_nil_iff_mem.mpr fun _ h => List.eq_of_mem_replicate h

theorem length_nonEmpty_iff : (nonEmpty l).length = l.length ↔ ∀ text ∈ l, text ≠ [] := by
  rw [nonEmpty, List.length_filter_eq_length_iff]
  exact forall₂_congr fun text _ => isEntry_iff

theorem length_nonEmpty_le (l : List Text) : (nonEmpty l).length ≤ l.length :=
  List.length_filter_le _ _

section

variable {c : Category} {size : ℕ} {hsize : 0 < size}

theorem setSize_grow (h : c.slots.length ≤ size) :
    (c.setSize size hsize).entries = c.entries.rtake size := by
  have hnot : ¬size < c.slots.length := by omega
  have hp := c.pointer_lt
  have hslots : (c.setSize size hsize).slots =
      c.slots ++ List.replicate (size - c.slots.length) [] := by
    simp only [Category.setSize, if_neg hnot, resize, List.take_of_length_le h]
  have hread : (c.setSize size hsize).reading =
      c.slots.drop c.pointer ++ List.replicate (size - c.slots.length) [] ++
        c.slots.take c.pointer := by
    have hpointer : (c.setSize size hsize).pointer = c.pointer := if_neg hnot
    rw [Category.reading, hslots, hpointer, List.rotate_eq_drop_append_take
      (by rw [List.length_append]; omega), List.drop_append_of_le_length hp.le,
      List.take_append_of_le_length hp.le]
  have hentries : (c.setSize size hsize).entries = c.entries := by
    rw [Category.entries, hread, Category.entries, Category.reading,
      List.rotate_eq_drop_append_take hp.le]
    simp only [nonEmpty_append, nonEmpty_replicate, List.append_nil]
  have hlen : c.entries.length ≤ size := by
    have hle := length_nonEmpty_le c.reading
    rw [c.length_reading] at hle
    exact hle.trans h
  rw [hentries, rtake_of_length_le hlen]

theorem entries_crossed (c : Category) (size : ℕ) :
    c.entries = nonEmpty ((c.slots.drop c.pointer).take (c.slots.length - size)) ++
      (nonEmpty (c.slots.drop (c.pointer + (c.slots.length - size))) ++
        nonEmpty (c.slots.take c.pointer)) := by
  have hdrop : c.slots.drop (c.pointer + (c.slots.length - size)) =
      (c.slots.drop c.pointer).drop (c.slots.length - size) := by
    rw [List.drop_drop]
  rw [hdrop, ← List.append_assoc, ← nonEmpty_append, ← nonEmpty_append, List.take_append_drop,
    Category.entries, Category.reading, List.rotate_eq_drop_append_take c.pointer_lt.le]

section

variable (h : size < c.slots.length)
include h

theorem reading_shrink :
    (c.setSize size hsize).reading = (c.shifted size).take size := by
  have hslots : (c.setSize size hsize).slots = (c.shifted size).take size := by
    have hlen := c.length_shifted size
    have hzero : size - (c.shifted size).length = 0 := by omega
    simp only [Category.setSize, if_pos h, resize, hzero, List.replicate_zero, List.append_nil]
  have hpointer : (c.setSize size hsize).pointer = 0 := if_pos h
  rw [Category.reading, hslots, hpointer, List.rotate_zero]

theorem setSize_entries :
    (c.setSize size hsize).entries = nonEmpty ((c.shifted size).take size) := by
  rw [Category.entries, reading_shrink h]

theorem shifted_uncrossed (hp : c.pointer = 0 ∨ size ≤ c.pointer) :
    (c.shifted size).take size = c.reading.drop (c.slots.length - size) := by
  have hlt := c.pointer_lt
  have hlen := c.length_shifted size
  have hsource : ∀ i < size, i ≤ c.source size i := by
    intro i hi
    rw [Category.source]
    rcases hp with hzero | hge
    · rw [hzero, Nat.mod_eq_of_lt (by omega)]
      omega
    · rw [show c.pointer + (c.slots.length - size) + i =
          c.pointer - size + i + c.slots.length by omega, Nat.add_mod_right,
        Nat.mod_eq_of_lt (by omega)]
      omega
  refine ext_getD (d := []) ?_ fun i hi => ?_
  · rw [List.length_take, List.length_drop, c.length_reading, hlen]
    omega
  · rw [List.length_take] at hi
    rw [getD_take, if_pos (by omega), Category.shifted, copyLoop_ahead (by omega) (by omega)
      (hsource i (by omega)), getD_drop, Category.reading, getD_rotate (by omega),
      Category.source]
    congr 2
    omega

theorem setSize_uncrossed_iff (hp : c.pointer = 0 ∨ size ≤ c.pointer) :
    (c.setSize size hsize).entries = c.entries.rtake size ↔ c.Separated size := by
  have hlen : (c.reading.drop (c.slots.length - size)).length = size := by
    rw [List.length_drop, c.length_reading]
    omega
  have hle : (nonEmpty (c.reading.drop (c.slots.length - size))).length ≤ size :=
    (length_nonEmpty_le _).trans hlen.le
  have hentries : c.entries = nonEmpty (c.reading.take (c.slots.length - size)) ++
      nonEmpty (c.reading.drop (c.slots.length - size)) := by
    rw [← nonEmpty_append, List.take_append_drop, Category.entries]
  have hfull : (nonEmpty (c.reading.drop (c.slots.length - size))).length = size ↔
      ∀ text ∈ c.reading.drop (c.slots.length - size), text ≠ [] := by
    rw [← length_nonEmpty_iff, hlen]
  rw [setSize_entries h, shifted_uncrossed h hp, hentries, eq_comm, rtake_append_iff hle, hfull,
    nonEmpty_eq_nil_iff_mem]
  rfl

theorem shifted_first {j : ℕ} (hj : j < size - c.pointer) :
    (c.shifted size).getD j [] = c.slots.getD (c.pointer + (c.slots.length - size) + j) [] := by
  have hsource : c.source size j = c.pointer + (c.slots.length - size) + j :=
    Nat.mod_eq_of_lt (by omega)
  rw [Category.shifted, copyLoop_ahead (by omega) (by omega) (by omega), hsource]

variable (hp : c.pointer < size)
include hp

theorem shifted_again {j : ℕ} (hj : j < c.pointer) :
    (c.shifted size).getD (size - c.pointer + j) [] = (c.shifted size).getD j [] := by
  have hsource : c.source size (size - c.pointer + j) = j := by
    rw [Category.source, show c.pointer + (c.slots.length - size) + (size - c.pointer + j) =
      j + c.slots.length by omega, Nat.add_mod_right, Nat.mod_eq_of_lt (by omega)]
  rw [Category.shifted, copyLoop_behind (by omega) (by omega) (by omega), hsource]

theorem shifted_entries (hblank : ∀ j < c.pointer, (c.shifted size).getD j [] = []) :
    nonEmpty ((c.shifted size).take size) =
      nonEmpty (c.slots.drop (c.pointer + (c.slots.length - size))) := by
  have hlen := c.length_shifted size
  have hfirst : ((c.shifted size).take size).take (size - c.pointer) =
      c.slots.drop (c.pointer + (c.slots.length - size)) := by
    rw [List.take_take, Nat.min_eq_left (by omega)]
    refine ext_getD (d := []) ?_ fun i hi => ?_
    · rw [List.length_take, List.length_drop, hlen]
      omega
    · rw [List.length_take] at hi
      rw [getD_take, if_pos (by omega), shifted_first h (by omega), getD_drop]
  have hrest : nonEmpty (((c.shifted size).take size).drop (size - c.pointer)) = [] := by
    rw [nonEmpty_eq_nil_iff]
    intro i
    rw [getD_drop, getD_take]
    split
    · rw [shifted_again h hp (by omega), hblank i (by omega)]
    · rfl
  rw [← List.take_append_drop (size - c.pointer) ((c.shifted size).take size), nonEmpty_append,
    hrest, List.append_nil, hfirst]

theorem shifted_blank_of_nodup (hnodup : (nonEmpty ((c.shifted size).take size)).Nodup) :
    ∀ j < c.pointer, (c.shifted size).getD j [] = [] := by
  intro j hj
  by_contra hne
  have hlen := c.length_shifted size
  -- the slots are cut between the two places
  have hsplit := List.take_append_drop (size - c.pointer + j) ((c.shifted size).take size)
  rw [← hsplit, nonEmpty_append, List.nodup_append] at hnodup
  have hmem : ∀ (l : List Text) (i : ℕ), l.getD i [] = (c.shifted size).getD j [] →
      (c.shifted size).getD j [] ∈ nonEmpty l := by
    intro l i hi
    have hin : i < l.length := by
      by_contra hout
      rw [List.getD_eq_default l [] (Nat.le_of_not_lt hout)] at hi
      exact hne hi.symm
    rw [List.getD_eq_getElem l [] hin] at hi
    exact mem_nonEmpty.mpr ⟨hi ▸ List.getElem_mem hin, hne⟩
  refine hnodup.2.2 _ (hmem _ j ?_) _ (hmem _ 0 ?_) rfl
  · rw [getD_take, if_pos (by omega), getD_take, if_pos (by omega)]
  · rw [getD_drop, getD_take, if_pos (by omega), Nat.add_zero, shifted_again h hp hj]

theorem setSize_crossed
    (hblank : ∀ i < c.pointer + (c.slots.length - size) + c.pointer, c.slots.getD i [] = []) :
    (c.setSize size hsize).entries = c.entries.rtake size := by
  -- by induction on the slot: it is one of the first, or repeats a lower one
  have hshifted : ∀ j < c.pointer, (c.shifted size).getD j [] = [] := by
    intro j
    induction j using Nat.strong_induction_on with
    | _ j ih =>
      intro hj
      by_cases hfirst : j < size - c.pointer
      · rw [shifted_first h hfirst]
        exact hblank _ (by omega)
      · have hagain := shifted_again h hp (show j - (size - c.pointer) < c.pointer by omega)
        rw [Nat.add_sub_cancel' (by omega)] at hagain
        rw [hagain]
        exact ih _ (by omega) (by omega)
  have hdropped : nonEmpty ((c.slots.drop c.pointer).take (c.slots.length - size)) = [] := by
    rw [nonEmpty_take_eq_nil_iff]
    intro i hi
    rw [getD_drop]
    exact hblank _ (by omega)
  have hbefore : nonEmpty (c.slots.take c.pointer) = [] :=
    nonEmpty_take_eq_nil_iff.mpr fun i hi => hblank i (by omega)
  have hlen : (nonEmpty (c.slots.drop (c.pointer + (c.slots.length - size)))).length ≤ size := by
    refine (length_nonEmpty_le _).trans ?_
    rw [List.length_drop]
    omega
  rw [setSize_entries h, shifted_entries h hp hshifted, entries_crossed c size, hdropped, hbefore,
    List.nil_append, List.append_nil, rtake_of_length_le hlen]

theorem blank_of_setSize (hpos : 0 < c.pointer) (hnodup : c.entries.Nodup)
    (heq : (c.setSize size hsize).entries = c.entries.rtake size) :
    ∀ i < c.pointer + (c.slots.length - size) + c.pointer, c.slots.getD i [] = [] := by
  rw [setSize_entries h] at heq
  have hsub : (c.entries.rtake size).Nodup := hnodup.sublist (List.drop_sublist _ _)
  have hshifted := shifted_blank_of_nodup h hp (heq ▸ hsub)
  rw [shifted_entries h hp hshifted] at heq
  -- fewer slots than the new size are left, so there are no other entries
  have hlen := congrArg List.length heq
  have hle := length_nonEmpty_le (c.slots.drop (c.pointer + (c.slots.length - size)))
  have hlt := c.pointer_lt
  rw [length_rtake, entries_crossed c size, List.length_append, List.length_append] at hlen
  rw [List.length_drop] at hle
  have hdropped : nonEmpty ((c.slots.drop c.pointer).take (c.slots.length - size)) = [] :=
    List.length_eq_zero_iff.mp (by omega)
  have hbefore : nonEmpty (c.slots.take c.pointer) = [] := List.length_eq_zero_iff.mp (by omega)
  rw [nonEmpty_take_eq_nil_iff] at hdropped hbefore
  intro i hi
  rcases Nat.lt_or_ge i c.pointer with hlow | hhigh
  · exact hbefore i hlow
  rcases Nat.lt_or_ge i (c.pointer + (c.slots.length - size)) with hmiddle | hlast
  · have := hdropped (i - c.pointer) (by omega)
    rwa [getD_drop, Nat.add_sub_cancel' hhigh] at this
  · rcases Nat.lt_or_ge i c.slots.length with hin | hout
    · have := hshifted (i - (c.pointer + (c.slots.length - size))) (by omega)
      rwa [shifted_first h (by omega), Nat.add_sub_cancel' hlast] at this
    · exact List.getD_eq_default _ _ hout

end

theorem setSize_of_fits (h : c.Fits size) :
    (c.setSize size hsize).entries = c.entries.rtake size := by
  rcases Nat.lt_or_ge size c.slots.length with hlt | hge
  · rcases h with hle | ⟨hp, hseparated⟩ | ⟨hpos, hp, hblank⟩
    · omega
    · exact (setSize_uncrossed_iff hlt hp).mpr hseparated
    · exact setSize_crossed hlt hp hblank
  · exact setSize_grow hge

theorem fits_of_setSize (hnodup : c.entries.Nodup)
    (heq : (c.setSize size hsize).entries = c.entries.rtake size) : c.Fits size := by
  rcases Nat.lt_or_ge size c.slots.length with hlt | hge
  · by_cases hp : c.pointer = 0 ∨ size ≤ c.pointer
    · exact .inr (.inl ⟨hp, (setSize_uncrossed_iff hlt hp).mp heq⟩)
    · have hpos : 0 < c.pointer := by omega
      have hcross : c.pointer < size := by omega
      exact .inr (.inr ⟨hpos, hcross, blank_of_setSize hlt hcross hpos hnodup heq⟩)
  · exact .inl hge

end

variable {c' : Category}

theorem Category.SameShape.symm (h : c.SameShape c') : c'.SameShape c :=
  ⟨h.pointer_eq.symm, h.empty_eq.symm⟩

theorem Category.SameShape.length_eq (h : c.SameShape c') : c'.slots.length = c.slots.length := by
  have := congrArg List.length h.empty_eq
  rwa [List.length_map, List.length_map] at this

theorem forall_of_empty_eq {l' : List Text} {P : Bool → Prop}
    (heq : l'.map List.isEmpty = l.map List.isEmpty) (h : ∀ text ∈ l, P text.isEmpty) :
    ∀ text ∈ l', P text.isEmpty := by
  intro text htext
  have hmem : text.isEmpty ∈ l.map List.isEmpty := heq ▸ List.mem_map_of_mem htext
  obtain ⟨other, hother, hsame⟩ := List.mem_map.mp hmem
  rw [← hsame]
  exact h other hother

theorem Category.Separated.of_sameShape {size : ℕ} (h : c.Separated size)
    (hs : c.SameShape c') : c'.Separated size := by
  have hread : c'.reading.map List.isEmpty = c.reading.map List.isEmpty := by
    rw [reading, reading, List.map_rotate, List.map_rotate, hs.empty_eq, hs.pointer_eq]
  have hnil : ∀ text : Text, text = [] ↔ text.isEmpty = true := fun _ => List.isEmpty_iff.symm
  rw [Separated, hs.length_eq]
  refine h.imp (fun hdropped => ?_) fun hkept => ?_
  · simp only [hnil] at hdropped ⊢
    refine forall_of_empty_eq (P := fun b => b = true) ?_ hdropped
    rw [List.map_take, List.map_take, hread]
  · simp only [ne_eq, hnil] at hkept ⊢
    refine forall_of_empty_eq (P := fun b => ¬b = true) ?_ hkept
    rw [List.map_drop, List.map_drop, hread]

theorem Category.Fits.of_sameShape {size : ℕ} (h : c.Fits size)
    (hs : c.SameShape c') : c'.Fits size := by
  have hblank : ∀ i, c.slots.getD i [] = [] → c'.slots.getD i [] = [] := by
    intro i hi
    have hpattern := congrArg (fun l => l.getD i (List.isEmpty ([] : Text))) hs.empty_eq
    rw [List.getD_map, List.getD_map, hi] at hpattern
    exact List.isEmpty_iff.mp hpattern
  rw [Fits, hs.length_eq, hs.pointer_eq]
  rcases h with hle | ⟨hp, hseparated⟩ | ⟨hpos, hp, hall⟩
  · exact .inl hle
  · exact .inr (.inl ⟨hp, hseparated.of_sameShape hs⟩)
  · exact .inr (.inr ⟨hpos, hp, fun i hi => hblank i (hall i hi)⟩)

def Category.relabel (c : Category) : Category where
  slots := c.slots.mapIdx fun i text => if text.isEmpty then [] else List.replicate (i + 1) 'a'
  pointer := c.pointer
  pointer_lt := by
    rw [List.length_mapIdx]
    exact c.pointer_lt

theorem sameShape_relabel (c : Category) : c.SameShape c.relabel := by
  refine ⟨rfl, List.ext_getElem (by simp [Category.relabel]) fun i hi hi' => ?_⟩
  simp only [Category.relabel, List.getElem_map, List.getElem_mapIdx]
  split
  · next hempty => rw [hempty]; rfl
  · next hempty => rw [Bool.not_eq_true] at hempty; rw [hempty]; rfl

theorem nodup_relabel (c : Category) : c.relabel.entries.Nodup := by
  have hperm : c.relabel.entries.Perm (nonEmpty c.relabel.slots) :=
    (List.rotate_perm _ _).filter _
  rw [hperm.nodup_iff, nonEmpty, List.Nodup, List.pairwise_filter, List.pairwise_iff_getElem]
  intro i j hi hj hlt hx hy heq
  simp only [Category.relabel, List.getElem_mapIdx] at hx hy heq
  split at heq
  · next hempty => simp [hempty] at hx
  split at heq
  · next hempty => simp [hempty] at hy
  have hlen := congrArg List.length heq
  rw [List.length_replicate, List.length_replicate] at hlen
  omega

def History.relabel (h : History) : History where
  length := h.length
  category := fun type => (h.category type).relabel
  length_slots := fun type => (sameShape_relabel _).length_eq.trans (h.length_slots type)

theorem keepsNewest_of_size {size : ℕ} (hpos : 0 < size) (hmax : (size : ℤ) ≤ maxInputHistorySize)
    (h : History) :
    KeepsNewest size h ↔ ∀ type,
      ((h.category type).setSize size hpos).entries = (h.category type).entries.rtake size := by
  have hok : ¬((size : ℤ) < 1 ∨ maxInputHistorySize < size) := by omega
  constructor
  · rintro ⟨t, ht, hkept⟩ type
    rw [History.setInputHistorySize, dif_neg hok] at ht
    cases ht
    exact hkept type
  · intro hkept
    refine ⟨_, dif_neg hok, hkept⟩

/-- A new size keeps the newest entries of every history of a shape exactly when each category
fits it. -/
theorem keepsNewest_iff (h : History) {size : ℕ} (hpos : 0 < size)
    (hmax : (size : ℤ) ≤ maxInputHistorySize) :
    (∀ h', h.SameShape h' → KeepsNewest size h') ↔ ∀ type, (h.category type).Fits size := by
  constructor
  · intro hall type
    have hkept := hall h.relabel fun type => sameShape_relabel (h.category type)
    have heq := (keepsNewest_of_size hpos hmax _).mp hkept type
    have hfits : (h.category type).relabel.Fits size := fits_of_setSize (nodup_relabel _) heq
    exact hfits.of_sameShape (sameShape_relabel _).symm
  · intro hfits h' hs
    rw [keepsNewest_of_size hpos hmax]
    exact fun type => setSize_of_fits ((hfits type).of_sameShape (hs type))

def fullRing : Category := ⟨[['a'], ['b'], ['c']], 0, by decide⟩

def fullHistory : History := ⟨3, fun _ => fullRing, fun _ => rfl⟩

theorem keepsNewest_iff_full : KeepsNewest 2 fullHistory := by
  have hfits : fullRing.Fits 2 := .inr (.inl ⟨.inl rfl, .inr (by decide)⟩)
  exact (keepsNewest_iff fullHistory (by decide) (by decide)).mpr (fun _ => hfits) fullHistory
    fun _ => ⟨rfl, rfl⟩

def turnedRing : Category := ⟨[['c'], ['a'], ['b']], 1, by decide⟩

def turnedHistory : History := ⟨3, fun _ => turnedRing, fun _ => rfl⟩

/-- Of a, b and c the size 2 leaves b twice and loses the newest. -/
theorem newest_entry_lost :
    turnedRing.entries = [['a'], ['b'], ['c']] ∧
      (turnedRing.setSize 2 (by decide)).entries = [['b'], ['b']] ∧
      ¬KeepsNewest 2 turnedHistory := by
  refine ⟨by decide, by decide, ?_⟩
  intro h
  have heq := (keepsNewest_of_size (by decide) (by decide) turnedHistory).mp h .command
  revert heq
  decide

end InputHistory
