import Rtorrent.InputHistory
import Rtorrent.RpcValueParser

/-! # The file of the input history

One line for each entry, from the oldest to the newest of each kind of input. The file is the text
that is written to it, where nothing fails. -/
namespace InputHistoryFile

open RpcTextParser RpcCommandParser RpcValueParser InputHistory RingCopies

def number : Input → ℕ
  | .loadDefault => 1
  | .loadModified => 2
  | .changeDirectory => 3
  | .command => 4
  | .filter => 5

def inputs : List Input := [.loadDefault, .loadModified, .changeDirectory, .command, .filter]

def lineOf (type : Input) (text : Text) : Text := (toString (number type)).toList ++ '|' :: text

def saveCategory (type : Input) (c : Category) : Text :=
  (List.range c.slots.length).flatMap fun i =>
    let text := c.slots.getD ((c.pointer + i) % c.slots.length) []
    if text.isEmpty then [] else lineOf type text ++ ['\n']

def saveInputHistory (h : History) : Text :=
  inputs.flatMap fun type => saveCategory type (h.category type)

/-- The calls of `std::getline`, the line that is being read first. -/
def getLinesLoop : Text → Text → List Text
  | line, [] => if line.isEmpty then [] else [line]
  | line, c :: file =>
    if c = '\n' then line :: getLinesLoop [] file else getLinesLoop (line ++ [c]) file

def getLines (file : Text) : List Text := getLinesLoop [] file

def atoi (str : Text) : ℤ :=
  Int.bmod (((strtoll 10 (cString str)).map Prod.fst).getD 0) (2 ^ 32)

def inputOf (n : ℤ) : Option Input := inputs.find? fun type => decide ((number type : ℤ) = n)

def readLine (trim : Text → Text) (line : Text) : Option (Input × Text) :=
  let delimPos := (line.takeWhile (· != '|')).length
  if delimPos = line.length then none
  else
    match inputOf (atoi (line.take delimPos)) with
    | none => none
    | some type =>
      let text := trim (line.drop (delimPos + 1))
      if text.isEmpty then none else some (type, text)

def readCategory (trim : Text → Text) (file : Text) (type : Input) : List Text :=
  (((getLines file).filterMap (readLine trim)).filter fun r => decide (r.1 = type)).map Prod.snd

def loadCategory (length : ℕ) (hlength : 0 < length) (texts : List Text) : Category :=
  if length < texts.length then
    { slots := (List.range length).map fun i =>
        texts.getD ((texts.length - length + i) % texts.length) []
      pointer := 0
      pointer_lt := by rwa [List.length_map, List.length_range] }
  else
    { slots := resize texts length
      pointer := texts.length % length
      pointer_lt := by rw [length_resize]; exact Nat.mod_lt _ hlength }

theorem length_loadCategory (length : ℕ) (hlength : 0 < length) (texts : List Text) :
    (loadCategory length hlength texts).slots.length = length := by
  unfold loadCategory
  split
  · simp
  · exact length_resize texts length

theorem length_pos (h : History) : 0 < h.length := by
  rw [← h.length_slots .loadDefault]
  exact (h.category .loadDefault).length_pos

def loadInputHistory (trim : Text → Text) (file : Text) (h : History) : History where
  length := h.length
  category type := loadCategory h.length (length_pos h) (readCategory trim file type)
  length_slots _ := length_loadCategory _ _ _

theorem reading_loadCategory {length : ℕ} (hlength : 0 < length) (texts : List Text) :
    (loadCategory length hlength texts).reading =
      List.replicate (length - texts.length) [] ++ texts.rtake length := by
  unfold loadCategory
  split
  · next h =>
    have hzero : length - texts.length = 0 := by omega
    have hslots : (List.range length).map (fun i =>
        texts.getD ((texts.length - length + i) % texts.length) []) = texts.rtake length := by
      apply ext_getD (d := [])
      · simp [length_rtake]
        omega
      · intro i hi
        have hi' : i < length := by simpa using hi
        have hmod : (texts.length - length + i) % texts.length = texts.length - length + i :=
          Nat.mod_eq_of_lt (by omega)
        rw [List.rtake, getD_drop, List.getD_eq_getElem _ _ hi]
        simp [hmod]
    simp only [Category.reading, hslots, List.rotate_zero, hzero, List.replicate_zero,
      List.nil_append]
  · next h =>
    have hle : texts.length ≤ length := Nat.le_of_not_lt h
    have hresize : resize texts length = texts ++ List.replicate (length - texts.length) [] := by
      rw [resize, List.take_of_length_le hle]
    simp only [Category.reading, hresize, rtake_of_length_le hle]
    rcases Nat.eq_or_lt_of_le hle with heq | hlt
    · simp [heq]
    · rw [Nat.mod_eq_of_lt hlt]
      exact List.rotate_append_length_eq _ _

theorem nonEmpty_of_entries {texts : List Text} (h : ∀ text ∈ texts, text ≠ []) :
    nonEmpty texts = texts :=
  List.filter_eq_self.mpr fun text ht => isEntry_iff.mpr (h text ht)

theorem entries_loadCategory {length : ℕ} (hlength : 0 < length) {texts : List Text}
    (h : ∀ text ∈ texts, text ≠ []) :
    (loadCategory length hlength texts).entries = texts.rtake length := by
  rw [Category.entries, reading_loadCategory, nonEmpty_append, nonEmpty_replicate, List.nil_append]
  exact nonEmpty_of_entries fun text ht => h text (List.mem_of_mem_drop ht)

variable (trim : Text → Text) (type : Input) (c : Category)

theorem rtake_write (text : Text) :
    (c.reading ++ [text]).rtake c.slots.length = c.reading.tail ++ [text] := by
  have hpos : 0 < c.reading.length := c.length_reading ▸ c.length_pos
  obtain ⟨oldest, slots, hcons⟩ := List.exists_cons_of_length_pos hpos
  rw [← c.length_reading, hcons, List.rtake, List.length_append, List.length_singleton,
    Nat.add_sub_cancel_left]
  rfl

theorem reading_add {c : Category} {item : Text} (hitem : item ≠ [])
    (hnew : item ≠ c.reading.getLastD []) :
    (c.add trim item).reading = c.reading.tail ++ [trim item] := by
  have hstored : ¬item.isEmpty ∧ item ≠ c.slots.getD c.previous [] := by
    rw [c.getD_previous, List.isEmpty_iff]
    exact ⟨hitem, hnew⟩
  rw [← rtake_write c (trim item)]
  unfold Category.add Category.reading
  rw [if_pos hstored]
  exact rotate_write c.pointer_lt (trim item)

theorem entries_ne_nil : ∀ text ∈ c.entries, text ≠ [] :=
  fun _ h => (mem_nonEmpty.mp h).2

theorem getLastD_free (free : ℕ) (texts : List Text) :
    (List.replicate free [] ++ texts).getLastD [] = texts.getLastD [] := by
  cases texts with
  | nil => cases free <;> simp [List.getLastD_eq_getLast?, List.getLast?_replicate]
  | cons text texts =>
    rw [List.getLastD_eq_getLast?, List.getLast?_append_of_ne_nil _ (List.cons_ne_nil text texts),
      List.getLastD_eq_getLast?]

/-- A text takes the place of the oldest entry when there is no free slot, and a free slot
otherwise. -/
theorem entries_add {c : Category} {free : ℕ}
    (hreading : c.reading = List.replicate free [] ++ c.entries) (trim : Text → Text) {item : Text}
    (hitem : item ≠ []) (hnew : item ≠ c.entries.getLastD []) :
    (c.add trim item).entries =
      (if c.entries.length = c.slots.length then c.entries.tail else c.entries) ++
        nonEmpty [trim item] := by
  have hlen : free + c.entries.length = c.slots.length := by
    rw [← c.length_reading, hreading, List.length_append, List.length_replicate]
  have hread := reading_add trim hitem (by rwa [hreading, getLastD_free])
  rw [Category.entries, hread, nonEmpty_append]
  congr 1
  cases free with
  | zero =>
    rw [if_pos (by omega), hreading, List.replicate_zero, List.nil_append]
    exact nonEmpty_of_entries fun text ht => entries_ne_nil c text (List.mem_of_mem_tail ht)
  | succ free =>
    rw [if_neg (by omega), hreading, List.replicate_succ, List.cons_append, List.tail_cons,
      nonEmpty_append, nonEmpty_replicate, List.nil_append]
    exact nonEmpty_of_entries (entries_ne_nil c)

theorem getLinesLoop_line {rest : Text} (hrest : '\n' ∉ rest) (line file : Text) :
    getLinesLoop line (rest ++ '\n' :: file) = (line ++ rest) :: getLinesLoop [] file := by
  induction rest generalizing line with
  | nil => simp [getLinesLoop]
  | cons c rest ih =>
    obtain ⟨hc, hrest⟩ := not_or.mp (mt List.mem_cons.mpr hrest)
    have hne : c ≠ '\n' := fun h => hc h.symm
    simp [getLinesLoop, hne, ih hrest]

theorem getLines_flatMap {lines : List Text} (h : ∀ line ∈ lines, '\n' ∉ line) :
    getLines (lines.flatMap (· ++ ['\n'])) = lines := by
  induction lines with
  | nil => rfl
  | cons line lines ih =>
    have hline := getLinesLoop_line (h line List.mem_cons_self) [] (lines.flatMap (· ++ ['\n']))
    have hrest := ih fun l hl => h l (List.mem_cons_of_mem _ hl)
    unfold getLines at hrest ⊢
    simpa [hrest] using hline

theorem lineOf_eq : ∃ digit : Char, digit ≠ '|' ∧ digit ≠ '\n' ∧
    inputOf (atoi [digit]) = some type ∧ ∀ text, lineOf type text = digit :: '|' :: text := by
  cases type with
  | loadDefault => exact ⟨'1', by decide, by decide, by decide, fun _ => rfl⟩
  | loadModified => exact ⟨'2', by decide, by decide, by decide, fun _ => rfl⟩
  | changeDirectory => exact ⟨'3', by decide, by decide, by decide, fun _ => rfl⟩
  | command => exact ⟨'4', by decide, by decide, by decide, fun _ => rfl⟩
  | filter => exact ⟨'5', by decide, by decide, by decide, fun _ => rfl⟩

/-- Only the first delimiter ends the number, whatever the entry contains. -/
theorem readLine_lineOf {text : Text} (htext : text ≠ [])
    (htrim : trim text = text) : readLine trim (lineOf type text) = some (type, text) := by
  obtain ⟨digit, hdelim, _, hinput, hline⟩ := lineOf_eq type
  simp [readLine, hline, hdelim, hinput, htrim, htext]

theorem newline_not_mem_lineOf {text : Text} (h : '\n' ∉ text) : '\n' ∉ lineOf type text := by
  obtain ⟨digit, _, hnewline, _, hline⟩ := lineOf_eq type
  simp [hline, h, hnewline.symm]

theorem reading_eq_map : (List.range c.slots.length).map
    (fun i => c.slots.getD ((c.pointer + i) % c.slots.length) []) = c.reading := by
  apply ext_getD (d := [])
  · simp [c.length_reading]
  · intro i hi
    have hi' : i < c.slots.length := by simpa using hi
    rw [Category.reading, getD_rotate hi', List.getD_eq_getElem _ _ hi, Nat.add_comm i]
    simp

theorem flatMap_nonEmpty (f : Text → Text) (slots : List Text) :
    slots.flatMap (fun text => if text.isEmpty then [] else f text) =
      (nonEmpty slots).flatMap f := by
  induction slots with
  | nil => rfl
  | cons text slots ih =>
    cases text with
    | nil => simpa [nonEmpty] using ih
    | cons c text => simpa [nonEmpty] using ih

theorem saveCategory_eq :
    saveCategory type c = (c.entries.map (lineOf type)).flatMap (· ++ ['\n']) := by
  have hslots := flatMap_nonEmpty (fun text => lineOf type text ++ ['\n']) c.reading
  rw [← reading_eq_map c, List.flatMap_map] at hslots
  rw [saveCategory, hslots, reading_eq_map, List.flatMap_map, Category.entries]

theorem saveInputHistory_eq (h : History) : saveInputHistory h =
    (inputs.flatMap fun type => (h.category type).entries.map (lineOf type)).flatMap
      (· ++ ['\n']) := by
  rw [List.flatMap_assoc]
  exact List.flatMap_congr fun type _ => saveCategory_eq type (h.category type)

/-- The entries can be written on a line each and are read as they are. -/
def Writable (trim : Text → Text) (h : History) : Prop :=
  ∀ type, ∀ text ∈ (h.category type).entries, '\n' ∉ text ∧ trim text = text

theorem readCategory_save {trim : Text → Text} {h : History} (hw : Writable trim h) (type : Input) :
    readCategory trim (saveInputHistory h) type = (h.category type).entries := by
  have hlines : getLines (saveInputHistory h) =
      inputs.flatMap fun type => (h.category type).entries.map (lineOf type) := by
    rw [saveInputHistory_eq]
    apply getLines_flatMap
    intro line hline
    obtain ⟨other, _, hline⟩ := List.mem_flatMap.mp hline
    obtain ⟨text, htext, rfl⟩ := List.mem_map.mp hline
    exact newline_not_mem_lineOf other (hw other text htext).1
  have hread : ∀ other, ((h.category other).entries.map (lineOf other)).filterMap (readLine trim) =
      (h.category other).entries.map fun text => (other, text) := by
    intro other
    rw [List.filterMap_map, ← List.filterMap_eq_map]
    apply List.filterMap_congr
    intro text htext
    exact readLine_lineOf trim other (entries_ne_nil _ text htext) (hw other text htext).2
  rw [readCategory, hlines, List.filterMap_flatMap]
  simp only [hread]
  cases type <;> simp [inputs, List.filter_map, Function.comp_def]

/-- The newest entries that were saved are loaded, and the next text takes the place of the oldest
exactly when no slot is free. -/
theorem load_save (trim : Text → Text) (saved into loaded : History) (type : Input)
    (hw : Writable trim saved)
    (hload : loadInputHistory trim (saveInputHistory saved) into = loaded) :
    (loaded.category type).entries = (saved.category type).entries.rtake into.length ∧
    ∀ item, item ≠ [] → item ≠ (loaded.category type).entries.getLastD [] →
      ((loaded.addToInputHistory trim type item).category type).entries =
        (if (loaded.category type).entries.length = into.length
          then (loaded.category type).entries.tail
          else (loaded.category type).entries) ++ nonEmpty [trim item] := by
  have hcategory : loaded.category type =
      loadCategory into.length (length_pos into) (saved.category type).entries := by
    rw [← hload, ← readCategory_save hw type]
    rfl
  have hentries : (loaded.category type).entries =
      (saved.category type).entries.rtake into.length := by
    rw [hcategory, entries_loadCategory _ (entries_ne_nil _)]
  refine ⟨hentries, fun item hitem hnew => ?_⟩
  have hlength : (loaded.category type).slots.length = into.length := by
    rw [hcategory, length_loadCategory]
  have hreading : (loaded.category type).reading =
      List.replicate (into.length - (saved.category type).entries.length) [] ++
        (loaded.category type).entries := by
    rw [hentries, hcategory, reading_loadCategory]
  have hadd : (loaded.addToInputHistory trim type item).category type =
      (loaded.category type).add trim item :=
    Function.update_self _ _ _
  rw [hadd, entries_add hreading trim hitem hnew, hlength]

def sample (length : ℕ) (hlength : 0 < length) (texts : List Text) : History where
  length := length
  category _ := loadCategory length hlength texts
  length_slots _ := length_loadCategory _ _ _

theorem load_save_smaller :
    Writable id (sample 3 (by decide) [['a', '|'], ['b']]) ∧
    ((loadInputHistory id (saveInputHistory (sample 3 (by decide) [['a', '|'], ['b']]))
        (sample 1 (by decide) [])).category .command).entries =
      ((sample 3 (by decide) [['a', '|'], ['b']]).category .command).entries.rtake 1 := by
  have hw : Writable id (sample 3 (by decide) [['a', '|'], ['b']]) := by
    intro type text htext
    have hentries : ((sample 3 (by decide) [['a', '|'], ['b']]).category type).entries =
        [['a', '|'], ['b']] := rfl
    rw [hentries] at htext
    refine ⟨?_, rfl⟩
    rcases List.mem_cons.mp htext with rfl | htext
    · decide
    · rw [List.mem_singleton.mp htext]
      decide
  exact ⟨hw, (load_save id _ _ _ .command hw rfl).1⟩

end InputHistoryFile
