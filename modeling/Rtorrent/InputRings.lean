import Rtorrent.InputHistoryFile

/-! # Rings whose entries follow each other

Slots are counted from the newest one back. In a packed ring the entries are the newest slots and at
least one slot is free. -/
namespace InputRings

open RpcTextParser InputHistory InputHistoryFile RingCopies

def position (c : Category) (d : ℕ) : ℕ := (c.pointer + (c.slots.length - 1 - d)) % c.slots.length

/-- How far the slot with this index is from the newest. -/
def distance (c : Category) (i : ℕ) : ℕ := (c.pointer + (c.slots.length - 1 - i)) % c.slots.length

def newest (c : Category) (d : ℕ) : Text := c.slots.getD (position c d) []

/-- The newest slots are the entries, and there is a free slot. -/
def PackedAt (c : Category) (count : ℕ) : Prop :=
  count < c.slots.length ∧ ∀ d < c.slots.length, newest c d ≠ [] ↔ d < count

def Packed (c : Category) : Prop := PackedAt c c.entries.length

section

variable {c : Category} {d : ℕ}

theorem newest_eq_reading (hd : d < c.slots.length) :
    newest c d = c.reading.getD (c.slots.length - 1 - d) [] := by
  rw [newest, position, Category.reading, getD_rotate (by omega), Nat.add_comm]

theorem position_of_lt (hd : d < c.pointer) : position c d = c.pointer - 1 - d := by
  have hp := c.pointer_lt
  rw [position, show c.pointer + (c.slots.length - 1 - d) =
    c.pointer - 1 - d + c.slots.length by omega, Nat.add_mod_right, Nat.mod_eq_of_lt (by omega)]

theorem position_of_le (hp : c.pointer ≤ d) (hd : d < c.slots.length) :
    position c d = c.pointer + (c.slots.length - 1 - d) := by
  rw [position, Nat.mod_eq_of_lt (by omega)]

theorem position_lt (d : ℕ) : position c d < c.slots.length := Nat.mod_lt _ c.length_pos

theorem position_eq_iff {i : ℕ} (hd : d < c.slots.length) (hi : i < c.slots.length) :
    position c d = i ↔ distance c i = d := by
  have hp := c.pointer_lt
  have hdistance : distance c i =
      if i < c.pointer then c.pointer - 1 - i else c.pointer + (c.slots.length - 1 - i) := by
    unfold distance
    split
    · rw [show c.pointer + (c.slots.length - 1 - i) = c.pointer - 1 - i + c.slots.length by omega,
        Nat.add_mod_right, Nat.mod_eq_of_lt (by omega)]
    · rw [Nat.mod_eq_of_lt (by omega)]
  rw [hdistance]
  rcases Nat.lt_or_ge d c.pointer with h | h
  · rw [position_of_lt h]
    split <;> omega
  · rw [position_of_le h hd]
    split <;> omega

theorem position_last : position c (c.slots.length - 1) = c.pointer := by
  have hp := c.pointer_lt
  rw [position_of_le (by omega) (by omega)]
  omega

theorem PackedAt.length_entries {count : ℕ} (h : PackedAt c count) : c.entries.length = count := by
  obtain ⟨hlt, hnewest⟩ := h
  have hread : ∀ i < c.slots.length, c.reading.getD i [] ≠ [] ↔ c.slots.length - count ≤ i := by
    intro i hi
    have hd := hnewest (c.slots.length - 1 - i) (by omega)
    rw [newest_eq_reading (by omega),
      show c.slots.length - 1 - (c.slots.length - 1 - i) = i by omega] at hd
    rw [hd]
    omega
  have hfree : nonEmpty (c.reading.take (c.slots.length - count)) = [] := by
    rw [nonEmpty_take_eq_nil_iff]
    intro i hi
    by_contra hne
    have := (hread i (by omega)).mp hne
    omega
  have hused : (nonEmpty (c.reading.drop (c.slots.length - count))).length =
      (c.reading.drop (c.slots.length - count)).length := by
    rw [length_nonEmpty_iff]
    intro text htext
    obtain ⟨i, hi, rfl⟩ := List.mem_iff_getElem.mp htext
    have hlen := hi
    rw [List.length_drop, c.length_reading] at hlen
    have hne := (hread (c.slots.length - count + i) (by omega)).mpr (by omega)
    rwa [← getD_drop, List.getD_eq_getElem _ _ hi] at hne
  rw [Category.entries, ← List.take_append_drop (c.slots.length - count) c.reading, nonEmpty_append,
    hfree, List.nil_append, hused, List.length_drop, c.length_reading]
  omega

theorem packed_iff : Packed c ↔ ∃ count, PackedAt c count := by
  constructor
  · exact fun h => ⟨_, h⟩
  · rintro ⟨count, h⟩
    rwa [Packed, h.length_entries]

theorem packed_of_blank (h : ∀ d < c.slots.length, newest c d = []) : Packed c := by
  refine packed_iff.mpr ⟨0, c.length_pos, fun d hd => ?_⟩
  simp [h d hd]

end

theorem newest_zero (c : Category) : newest c 0 = c.reading.getLastD [] := by
  rw [newest_eq_reading c.length_pos, getLastD_eq_getD, c.length_reading, Nat.sub_zero]

variable {c : Category}

theorem newest_add (trim : Text → Text) {item : Text} (hitem : item ≠ [])
    (hnew : item ≠ newest c 0) {d : ℕ} (hd : d < c.slots.length) :
    newest (c.add trim item) d = if d = 0 then trim item else newest c (d - 1) := by
  have hlen : (c.add trim item).slots.length = c.slots.length := c.length_add trim item
  have htail : c.reading.tail.length = c.slots.length - 1 := by
    rw [List.length_tail, c.length_reading]
  rw [newest_eq_reading (hlen ▸ hd), hlen, reading_add trim hitem (newest_zero c ▸ hnew)]
  split
  · next hzero =>
    rw [List.getD_append_right _ _ _ _ (by omega), htail, hzero]
    simp
  · next hpos =>
    rw [List.getD_append _ _ _ _ (by omega), newest_eq_reading (by omega), ← List.drop_one,
      getD_drop]
    congr 1
    omega

theorem packedAt_add_iff (hpacked : Packed c) (trim : Text → Text) {item : Text}
    (hitem : item ≠ []) (hnew : item ≠ newest c 0) {count : ℕ} : PackedAt (c.add trim item) count ↔
      count < c.slots.length ∧ (trim item ≠ [] ↔ 0 < count) ∧
        ∀ d, d + 1 < c.slots.length → (d < c.entries.length ↔ d + 1 < count) := by
  have hlen : (c.add trim item).slots.length = c.slots.length := c.length_add trim item
  have hpos := c.length_pos
  rw [PackedAt, hlen]
  refine and_congr_right fun _ => ⟨fun h => ⟨?_, fun d hd => ?_⟩, fun h d hd => ?_⟩
  · simpa [newest_add trim hitem hnew hpos] using h 0 hpos
  · rw [← h (d + 1) hd, newest_add trim hitem hnew hd, ← hpacked.2 d (by omega)]
    simp
  · rw [newest_add trim hitem hnew hd]
    cases d with
    | zero => simpa using h.1
    | succ d => simpa using (hpacked.2 d (by omega)).trans (h.2 d hd)

/-- The slot that is taken must not be the last free one, and a text of blanks only must not follow
an entry. -/
theorem packed_add_iff (hpacked : Packed c) (trim : Text → Text) {item : Text}
    (hitem : item ≠ []) (hnew : item ≠ newest c 0) : Packed (c.add trim item) ↔
      trim item ≠ [] ∧ c.entries.length + 1 < c.slots.length ∨
        trim item = [] ∧ c.entries.length = 0 := by
  have hlt := hpacked.1
  simp only [packed_iff, packedAt_add_iff hpacked trim hitem hnew]
  constructor
  · rintro ⟨count, hcount, hfirst, holder⟩
    by_cases htrim : trim item = []
    · have hnone : count = 0 := Nat.eq_zero_of_not_pos fun hpos => hfirst.mpr hpos htrim
      have hsecond := holder 0
      exact .inr ⟨htrim, by omega⟩
    · have hsome := hfirst.mp htrim
      have hlast := holder (c.slots.length - 2)
      exact .inl ⟨htrim, by omega⟩
  · rintro (⟨htrim, hfree⟩ | ⟨htrim, hnone⟩)
    · exact ⟨c.entries.length + 1, hfree, iff_of_true htrim (by omega), fun d _ => by omega⟩
    · exact ⟨0, by omega, iff_of_false (fun h => h htrim) (by omega), fun d _ => by omega⟩

def write (i : ℕ) (text : Text) (c : Category) : Category where
  slots := c.slots.set i text
  pointer := c.pointer
  pointer_lt := by
    rw [List.length_set]
    exact c.pointer_lt

variable {i : ℕ}

theorem newest_write (hi : i < c.slots.length) (text : Text) {d : ℕ} (hd : d < c.slots.length) :
    newest (write i text c) d = if distance c i = d then text else newest c d := by
  have hposition : position (write i text c) d = position c d := by
    simp [position, write]
  rw [newest, hposition, write, getD_set hi]
  by_cases heq : distance c i = d
  · rw [if_pos heq, if_pos ((position_eq_iff hd hi).mpr heq).symm]
  · rw [if_neg heq, if_neg fun h => heq ((position_eq_iff hd hi).mp h.symm), newest]

theorem packedAt_write_iff (hpacked : Packed c) (hi : i < c.slots.length)
    (text : Text) {count : ℕ} : PackedAt (write i text c) count ↔
      count < c.slots.length ∧ (text ≠ [] ↔ distance c i < count) ∧
        ∀ d < c.slots.length, distance c i ≠ d → (d < c.entries.length ↔ d < count) := by
  have hlen : (write i text c).slots.length = c.slots.length := List.length_set
  have hbound : distance c i < c.slots.length := Nat.mod_lt _ c.length_pos
  rw [PackedAt, hlen]
  refine and_congr_right fun _ => ⟨fun h => ⟨?_, fun d hd hne => ?_⟩, fun h d hd => ?_⟩
  · simpa [newest_write hi text hbound] using h _ hbound
  · rw [← h d hd, newest_write hi text hd, if_neg hne, ← hpacked.2 d hd]
  · rw [newest_write hi text hd]
    split
    · next heq => exact heq ▸ h.1
    · next hne => exact (hpacked.2 d hd).trans (h.2 d hd hne)

theorem distance_lt (hi : i < c.slots.length) (hne : i ≠ c.pointer) :
    distance c i < c.slots.length - 1 := by
  have hbound : distance c i < c.slots.length := Nat.mod_lt _ c.length_pos
  have hposition := (position_eq_iff hbound hi).mpr rfl
  have hoff : distance c i ≠ c.slots.length - 1 := by
    intro heq
    rw [heq, position_last] at hposition
    exact hne hposition.symm
  omega

/-- An entry must be written on an entry or on the slot before all entries, and nothing on a free
slot or the oldest entry. -/
theorem packed_write_iff (hpacked : Packed c) (hi : i < c.slots.length)
    (hne : i ≠ c.pointer) (text : Text) : Packed (write i text c) ↔
      text ≠ [] ∧ distance c i ≤ c.entries.length ∨
        text = [] ∧ c.entries.length ≤ distance c i + 1 := by
  have hlt := hpacked.1
  have hlast := distance_lt hi hne
  simp only [packed_iff, packedAt_write_iff hpacked hi]
  generalize distance c i = place at *
  constructor
  · rintro ⟨count, hcount, hplace, hother⟩
    by_cases htext : text = []
    · have hfree : ¬place < count := fun hin => hplace.mpr hin htext
      have hnext := hother (place + 1) (by omega) (by omega)
      exact .inr ⟨htext, by omega⟩
    · have hused := hplace.mp htext
      have hoff := hother c.entries.length hlt
      exact .inl ⟨htext, by omega⟩
  · rintro (⟨htext, hle⟩ | ⟨htext, hle⟩)
    · exact ⟨max c.entries.length (place + 1), by omega, iff_of_true htext (by omega),
        fun d _ _ => by omega⟩
    · exact ⟨min c.entries.length place, by omega, iff_of_false (fun h => h htext) (by omega),
        fun d _ _ => by omega⟩

/-- When a packed ring stays packed. The entries of a ring that grows must not go around its end;
one that shrinks keeps fewer than the new size, or loses them at its insert position. -/
def Resizes (c : Category) (size : ℕ) : Prop :=
  size = c.slots.length ∨
  (c.slots.length < size ∧ c.entries.length ≤ c.pointer) ∨
  (size < c.slots.length ∧ (c.pointer = 0 ∨ size ≤ c.pointer) ∧ c.entries.length < size) ∨
  (size < c.slots.length ∧ 0 < c.pointer ∧ c.pointer < size ∧ c.entries.length ≤ c.pointer)

section

variable {c : Category} {size : ℕ} {hsize : 0 < size}

theorem length_setSize : (c.setSize size hsize).slots.length = size := length_resize _ _

theorem newest_grow (hgrow : c.slots.length ≤ size) {d : ℕ} (hd : d < size) :
    newest (c.setSize size hsize) d =
      if d < c.pointer then newest c d
      else if d < c.pointer + (size - c.slots.length) then []
      else newest c (d - (size - c.slots.length)) := by
  have hp := c.pointer_lt
  have hnot : ¬size < c.slots.length := by omega
  have hpointer : (c.setSize size hsize).pointer = c.pointer := if_neg hnot
  have hslots : (c.setSize size hsize).slots =
      c.slots ++ List.replicate (size - c.slots.length) [] := by
    simp only [Category.setSize, if_neg hnot, resize, List.take_of_length_le hgrow]
  have hlen : (c.setSize size hsize).slots.length = size := length_setSize
  rw [newest]
  rcases Nat.lt_or_ge d c.pointer with hnear | hfar
  · rw [if_pos hnear, position_of_lt (by omega), hpointer, hslots,
      List.getD_append _ _ _ _ (by omega), newest, position_of_lt hnear]
  rw [if_neg (by omega), position_of_le (by omega) (by omega), hpointer, hlen, hslots]
  split
  · rw [List.getD_append_right _ _ _ _ (by omega), List.getD_replicate]
    omega
  · rw [List.getD_append _ _ _ _ (by omega), newest, position_of_le (by omega) (by omega)]
    congr 1
    omega

theorem newest_shrink (hshrink : size < c.slots.length) (hp : c.pointer = 0 ∨ size ≤ c.pointer)
    {d : ℕ}
    (hd : d < size) : newest (c.setSize size hsize) d = newest c d := by
  have hlen : (c.setSize size hsize).slots.length = size := length_setSize
  rw [newest_eq_reading (by omega), newest_eq_reading (by omega), reading_shrink hshrink,
    shifted_uncrossed hshrink hp, getD_drop, hlen]
  congr 1
  omega

theorem newest_crossed (hshrink : size < c.slots.length) {d : ℕ} (hd : d < size) :
    newest (c.setSize size hsize) d = (c.shifted size).getD (size - 1 - d) [] := by
  have hlen : (c.setSize size hsize).slots.length = size := length_setSize
  rw [newest_eq_reading (by omega), reading_shrink hshrink, getD_take, hlen, if_pos (by omega)]

theorem packed_grow_iff (hpacked : Packed c) (hgrow : c.slots.length < size) :
    Packed (c.setSize size hsize) ↔ c.entries.length ≤ c.pointer := by
  obtain ⟨hlt, hnewest⟩ := hpacked
  have hp := c.pointer_lt
  have hgrown := fun d hd => @newest_grow c size hsize (Nat.le_of_lt hgrow) d hd
  rw [packed_iff]
  simp only [PackedAt, length_setSize]
  constructor
  · rintro ⟨count, hcount, h⟩
    by_contra hwraps
    -- the free slots are put between the entries before the position and the others
    have hfree := h c.pointer (by omega)
    rw [hgrown _ (by omega), if_neg (by omega), if_pos (by omega)] at hfree
    have hused := h (c.pointer + (size - c.slots.length)) (by omega)
    rw [hgrown _ (by omega), if_neg (by omega), if_neg (by omega), Nat.add_sub_cancel,
      hnewest _ (by omega)] at hused
    have hnone : ¬c.pointer < count := fun hin => hfree.mpr hin rfl
    omega
  · intro hle
    refine ⟨c.entries.length, by omega, fun d hd => ?_⟩
    rw [hgrown d hd]
    split
    · exact hnewest d (by omega)
    · split
      · exact iff_of_false (fun h => h rfl) (by omega)
      · rw [hnewest _ (by omega)]
        omega

theorem packed_shrink_iff (hpacked : Packed c) (hshrink : size < c.slots.length)
    (hp : c.pointer = 0 ∨ size ≤ c.pointer) :
    Packed (c.setSize size hsize) ↔ c.entries.length < size := by
  obtain ⟨hlt, hnewest⟩ := hpacked
  have hkept : ∀ d < size, newest (c.setSize size hsize) d ≠ [] ↔ d < c.entries.length := by
    intro d hd
    rw [newest_shrink hshrink hp hd]
    exact hnewest d (by omega)
  rw [packed_iff]
  simp only [PackedAt, length_setSize]
  constructor
  · rintro ⟨count, hcount, h⟩
    have hlast := (hkept (size - 1) (by omega)).symm.trans (h (size - 1) (by omega))
    omega
  · exact fun hless => ⟨c.entries.length, hless, hkept⟩

theorem shifted_entry_iff (hpacked : Packed c) (hshrink : size < c.slots.length)
    (hp : c.pointer < size) {j : ℕ} (hj : j < size - c.pointer) :
    (c.shifted size).getD j [] ≠ [] ↔ size - 1 - j < c.entries.length := by
  have hd := hpacked.2 (size - 1 - j) (by omega)
  have hindex : c.pointer + (c.slots.length - 1 - (size - 1 - j)) =
      c.pointer + (c.slots.length - size) + j := by omega
  rw [newest, position_of_le (by omega) (by omega), hindex] at hd
  rw [shifted_first hshrink hj, hd]

/-- By induction on the slot: it is one of the first, or repeats a lower one. -/
theorem shifted_blank (hpacked : Packed c) (hshrink : size < c.slots.length) (hp : c.pointer < size)
    (hle : c.entries.length ≤ c.pointer) {j : ℕ} (hj : j < size) :
    (c.shifted size).getD j [] = [] := by
  induction j using Nat.strong_induction_on with
  | _ j ih =>
    by_cases hlow : j < size - c.pointer
    · by_contra hne
      have := (shifted_entry_iff hpacked hshrink hp hlow).mp hne
      omega
    · have hagain := shifted_again hshrink hp (show j - (size - c.pointer) < c.pointer by omega)
      rw [Nat.add_sub_cancel' (by omega)] at hagain
      rw [hagain]
      exact ih _ (by omega) (by omega)

/-- A copy over itself repeats the slots it starts with, so it is packed only when they are free. -/
theorem packed_crossed_iff (hpacked : Packed c) (hshrink : size < c.slots.length)
    (hpos : 0 < c.pointer) (hp : c.pointer < size) :
    Packed (c.setSize size hsize) ↔ c.entries.length ≤ c.pointer := by
  have hlt := hpacked.1
  have hcrossed := fun d hd => @newest_crossed c size hsize hshrink d hd
  constructor
  · intro hpacked'
    obtain ⟨count, hcount, h⟩ := packed_iff.mp hpacked'
    rw [length_setSize] at hcount h
    by_contra hwraps
    have hend := h c.pointer (by omega)
    have hnext := h (c.pointer - 1) (by omega)
    have hstart := h (size - 1) (by omega)
    have hagain := shifted_again hshrink hp hpos
    rw [hcrossed _ (by omega)] at hend hnext hstart
    rw [show size - 1 - (c.pointer - 1) = size - c.pointer + 0 by omega, hagain] at hnext
    rw [Nat.sub_self] at hstart
    have hused : (c.shifted size).getD (size - 1 - c.pointer) [] ≠ [] :=
      (shifted_entry_iff hpacked hshrink hp (by omega)).mpr (by omega)
    have hin := hend.mp hused
    have hnonempty := hnext.mpr (by omega)
    have := hstart.mp hnonempty
    omega
  · intro hle
    apply packed_of_blank
    intro d hd
    rw [length_setSize] at hd
    rw [hcrossed d hd]
    exact shifted_blank hpacked hshrink hp hle (by omega)

theorem setSize_same (h : size = c.slots.length) : c.setSize size hsize = c := by
  subst h
  simp [Category.setSize, resize]

theorem packed_setSize_iff (hpacked : Packed c) :
    Packed (c.setSize size hsize) ↔ Resizes c size := by
  unfold Resizes
  rcases Nat.lt_trichotomy size c.slots.length with hshrink | hsame | hgrow
  · by_cases hp : c.pointer = 0 ∨ size ≤ c.pointer
    · rw [packed_shrink_iff hpacked hshrink hp]
      omega
    · rw [packed_crossed_iff hpacked hshrink (by omega) (by omega)]
      omega
  · rw [setSize_same hsame]
    exact iff_of_true hpacked (.inl hsame)
  · rw [packed_grow_iff hpacked hgrow]
    omega

end

theorem packed_loadCategory_iff {length : ℕ} (hlength : 0 < length) {texts : List Text}
    (htexts : ∀ text ∈ texts, text ≠ []) :
    Packed (loadCategory length hlength texts) ↔ texts.length < length := by
  have hlen := length_loadCategory length hlength texts
  constructor
  · intro h
    have hfree := h.1
    rw [entries_loadCategory hlength htexts, length_rtake, hlen] at hfree
    omega
  · intro hless
    refine packed_iff.mpr ⟨texts.length, by omega, fun d hd => ?_⟩
    rw [hlen] at hd
    rw [newest_eq_reading (by omega), hlen, reading_loadCategory, rtake_of_length_le hless.le]
    rcases Nat.lt_or_ge d texts.length with hin | hout
    · rw [List.getD_append_right _ _ _ _ (by rw [List.length_replicate]; omega),
        List.length_replicate, List.getD_eq_getElem _ _ (by omega)]
      exact iff_of_true (htexts _ (List.getElem_mem _)) hin
    · rw [List.getD_append _ _ _ _ (by rw [List.length_replicate]; omega), List.getD_replicate]
      · exact iff_of_false (fun h => h rfl) (by omega)
      · omega

end InputRings
