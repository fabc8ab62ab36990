import Rtorrent.MemoryCells
import Rtorrent.RpcIntegers

/-! # Objects printed as text

`print_object` prints into the memory between `first` and `last` and cuts what does not fit,
`print_object_std` into a string. -/
namespace ObjectPrinting

open MemoryCells RpcTextParser RpcIntegers
open RpcValueParser (int64Max int64Min)
open ObjectRoundTrips (toString_int)

abbrev Memory := ℕ → Char

abbrev Output := ℕ × Memory

def nul : Char := '\x00'

def printExpandTilde : BitVec 32 := 0x1

def expandsTilde (flags : BitVec 32) (str : Text) : Prop :=
  flags &&& printExpandTilde ≠ 0 ∧ str.head? = some '~'

instance (flags : BitVec 32) (str : Text) : Decidable (expandsTilde flags str) :=
  inferInstanceAs (Decidable (flags &&& printExpandTilde ≠ 0 ∧ str.head? = some '~'))

/-- `home` is the environment variable `HOME`. -/
def expandPath (home : Option Text) (path : Text) : Except Failure Text :=
  match path with
  | '~' :: rest =>
    if rest ≠ [] ∧ rest.head? ≠ some '/' then
      inputError "Could not expand ~ in path, only '~' or '~/...' is supported."
    else match home with
      | none | some [] =>
        inputError "Could not expand ~ in path, HOME environment variable not set."
      | some home => .ok (home ++ rest)
  | path => .ok path

/-- `memcpy` of as much as there is room for in front of a nul byte. -/
def copyString (last : ℕ) (str : Text) : Output → Output
  | (first, m) =>
    let n := min str.length (last - first - 1)
    (first + n, store (store m first (str.take n)) (first + n) [nul])

/-- `snprintf`, which returns the length of the whole text. -/
def snprintf (m : Memory) (first size : ℕ) (text : Text) : ℕ × Memory :=
  (text.length, if size = 0 then m else store m first (text.take (size - 1) ++ [nul]))

def printNul (last : ℕ) : Output → Output
  | (first, m) => (first, if first ≠ last then store m first [nul] else m)

def valueText (v : ℤ) : Text := (toString v).toList

mutual

def printObject (home : Option Text) (last : ℕ) (flags : BitVec 32) :
    Object → Output → Except Failure Output
  | .string str, (first, m) =>
    if first = last then .ok (first, m)
    else if expandsTilde flags str then do
      let expanded ← expandPath home str
      .ok (copyString last expanded (first, m))
    else .ok (copyString last str (first, m))
  | .value v, (first, m) =>
    let (n, m) := snprintf m first (last - first) (valueText v)
    .ok (min (first + n) last, m)
  | .list items, out => printItems home last flags items (printNul last out)
  | .none, out => .ok (printNul last out)
  | .rawString _, _ | .map _, _ | .dictKey _ _ _, _ => inputError "Invalid type."

/-- A tilde is expanded in the first item only. -/
def printItems (home : Option Text) (last : ℕ) (flags : BitVec 32) :
    List Object → Output → Except Failure Output
  | [], out => .ok out
  | item :: items, out => do
    let out ← printObject home last flags item out
    printItems home last (flags &&& ~~~printExpandTilde) items out

end

mutual

def printObjectStd (home : Option Text) (flags : BitVec 32) : Object → Text → Except Failure Text
  | .string str, dest =>
    if expandsTilde flags str then do
      let expanded ← expandPath home str
      .ok (dest ++ expanded)
    else .ok (dest ++ str)
  | .value v, dest => .ok (dest ++ (valueText v).take 63)
  | .list items, dest => printItemsStd home flags items dest
  | .none, dest => .ok dest
  | .rawString _, _ | .map _, _ | .dictKey _ _ _, _ => inputError "Invalid type."

def printItemsStd (home : Option Text) (flags : BitVec 32) :
    List Object → Text → Except Failure Text
  | [], dest => .ok dest
  | item :: items, dest => do
    let dest ← printObjectStd home flags item dest
    printItemsStd home (flags &&& ~~~printExpandTilde) items dest

end

/-- The position behind this much text. One behind the last character that fits is where a string
is cut, `last` where a number is cut. -/
structure Shown (start last : ℕ) (text : Text) (first : ℕ) (m : Memory) : Prop where
  fits : start + text.length < last → first = start + text.length
  cut : last ≤ start + text.length → (first + 1 = last ∨ first = last) ∧ m (last - 1) = nul
  held : Holds m start (text.take (last - start - 1))

/-- The text, as much of it as fits, and a nul byte. -/
structure Printed (start last : ℕ) (text : Text) (out : Output) : Prop where
  shown : Shown start last text out.1 out.2
  ended : Holds out.2 start (text.take (last - start - 1) ++ [nul])

def printCut (last : ℕ) (text : Text) (first : ℕ) (m : Memory) : Memory :=
  if first = last then m else store m first (text.take (last - first - 1) ++ [nul])

section

variable {start last first first' i : ℕ} {m : Memory} {text str : Text}

theorem shown_start (h : start < last) : Shown start last [] start m := by
  refine ⟨fun _ => rfl, ?_, ?_⟩
  · intro hl
    simp only [List.length_nil] at hl
    omega
  · rw [List.take_nil]
    exact holds_nil

theorem printCut_at_end (hfirst : first + 1 = last ∨ first = last) (hnul : m (last - 1) = nul) :
    printCut last str first m = m := by
  rw [printCut]
  split
  · rfl
  · have hlast : first = last - 1 := by omega
    funext i
    rw [show last - first - 1 = 0 by omega, List.take_zero, List.nil_append]
    by_cases hi : i = last - 1
    · rw [hi, hlast, hnul]
      exact store_inside (i := 0) rfl
    · apply store_outside
      simp only [List.length_singleton]
      omega

theorem Shown.append_cut (h : Shown start last text first m) (hs : start < last)
    (hge : last ≤ start + text.length)
    (hend : first' + 1 = last ∨ first' = last) :
    Printed start last (text ++ str) (first', printCut last str first m) := by
  obtain ⟨hfirst, hnul⟩ := h.cut hge
  have htake : (text ++ str).take (last - start - 1) = text.take (last - start - 1) :=
    List.take_append_of_le_length (by omega)
  have hlen : (text.take (last - start - 1)).length = last - start - 1 :=
    List.length_take_of_le (by omega)
  rw [printCut_at_end hfirst hnul]
  have hended : Holds m start ((text ++ str).take (last - start - 1) ++ [nul]) := by
    rw [htake, holds_append, hlen, holds_singleton]
    refine ⟨h.held, ?_⟩
    rwa [show start + (last - start - 1) = last - 1 by omega]
  refine ⟨⟨?_, fun _ => ⟨hend, hnul⟩, (holds_append.mp hended).1⟩, hended⟩
  intro hl
  rw [List.length_append] at hl
  omega

section

variable (h : Shown start last text first m)
  (hfits : first + str.length < last → first' = first + str.length)
  (hcut : last ≤ first + str.length → first' + 1 = last ∨ first' = last)
include h hfits hcut

theorem Shown.append_fitting (hlt : start + text.length < last) :
    Printed start last (text ++ str) (first', printCut last str first m) := by
  have hfirst := h.fits hlt
  have htake : (text ++ str).take (last - start - 1) = text ++ str.take (last - first - 1) := by
    rw [List.take_append, List.take_of_length_le (by omega)]
    congr 2
    omega
  have hcells : printCut last str first m = store m first (str.take (last - first - 1) ++ [nul]) :=
    if_neg (by omega)
  have hnew : Holds (printCut last str first m) first (str.take (last - first - 1) ++ [nul]) := by
    rw [hcells]
    exact holds_store
  have hold : Holds (printCut last str first m) start text := by
    have hheld := h.held
    rw [List.take_of_length_le (by omega)] at hheld
    rw [hcells]
    exact hheld.store_outside (.inl (by omega))
  have hended : Holds (printCut last str first m) start
      ((text ++ str).take (last - start - 1) ++ [nul]) := by
    rw [htake, List.append_assoc, holds_append, ← hfirst]
    exact ⟨hold, hnew⟩
  refine ⟨⟨?_, ?_, (holds_append.mp hended).1⟩, hended⟩
  · intro hl
    rw [List.length_append] at hl ⊢
    rw [hfits (by omega)]
    omega
  · intro hl
    rw [List.length_append] at hl
    refine ⟨hcut (by omega), ?_⟩
    have hend := holds_singleton.mp (holds_append.mp hended).2
    rw [List.length_take, List.length_append, Nat.min_eq_left (by omega)] at hend
    rwa [show last - 1 = start + (last - start - 1) by omega]

theorem Shown.append (hs : start < last) :
    Printed start last (text ++ str) (first', printCut last str first m) := by
  rcases Nat.lt_or_ge (start + text.length) last with hlt | hge
  · exact h.append_fitting hfits hcut hlt
  · apply h.append_cut hs hge
    have hfirst := (h.cut hge).1
    rcases Nat.lt_or_ge (first + str.length) last with hl | hl
    · have hsame := hfits hl
      omega
    · exact hcut hl

end

def Untouched (start last : ℕ) (m m' : Memory) : Prop := ∀ i, i < start ∨ last ≤ i → m' i = m i

theorem printCut_untouched (hs : start ≤ first) (hl : first ≤ last) :
    Untouched start last m (printCut last str first m) := by
  intro i hi
  rw [printCut]
  split
  · rfl
  · apply store_outside
    rw [List.length_append, List.length_take, List.length_singleton]
    omega

theorem copyString_eq (h : first < last) :
    copyString last str (first, m) =
      (first + min str.length (last - first - 1), printCut last str first m) := by
  have htake : str.take (min str.length (last - first - 1)) = str.take (last - first - 1) := by
    rw [Nat.min_comm, ← List.take_eq_take_min]
  have hlen : first + min str.length (last - first - 1) =
      first + (str.take (min str.length (last - first - 1))).length := by
    rw [List.length_take]
    omega
  rw [copyString, printCut, if_neg (by omega), ← htake, store_append, ← hlen]

theorem snprintf_eq (h : first ≤ last) :
    (snprintf m first (last - first) str).2 = printCut last str first m := by
  rw [snprintf, printCut]
  by_cases he : first = last
  · rw [if_pos (by omega), if_pos he]
  · rw [if_neg (by omega), if_neg he]

theorem printNul_eq : printNul last (first, m) = (first, printCut last [] first m) := by
  rw [printNul, printCut, List.take_nil, List.nil_append]
  by_cases he : first = last
  · rw [if_neg (not_not.mpr he), if_pos he]
  · rw [if_pos he, if_neg he]

theorem Shown.bounds (h : Shown start last text first m) (hs : start < last) :
    start ≤ first ∧ first ≤ last := by
  rcases Nat.lt_or_ge (start + text.length) last with hlt | hge
  · have hfirst := h.fits hlt
    omega
  · have hfirst := (h.cut hge).1
    omega

/-- The printers throw the same error, or the memory holds what fits of the string. -/
def Follows (start last : ℕ) (m : Memory) : Except Failure Text → Except Failure Output → Prop
  | .error e, r => r = .error e
  | .ok text, r => ∃ out, r = .ok out ∧ Printed start last text out ∧ Untouched start last m out.2

theorem Untouched.trans {m' m'' : Memory} (h : Untouched start last m m')
    (h' : Untouched start last m' m'') : Untouched start last m m'' := by
  intro i hi
  rw [h' i hi, h i hi]

theorem Follows.of_untouched {m' : Memory} {std : Except Failure Text} {r : Except Failure Output}
    (h : Untouched start last m m') (hr : Follows start last m' std r) :
    Follows start last m std r := by
  cases std with
  | error e => exact hr
  | ok text =>
    obtain ⟨out, hout, hprinted, hsame⟩ := hr
    exact ⟨out, hout, hprinted, h.trans hsame⟩

theorem clear_printExpandTilde (flags : BitVec 32) :
    flags &&& ~~~printExpandTilde &&& printExpandTilde = 0 := by
  rw [BitVec.and_assoc, BitVec.and_comm (~~~_), BitVec.and_not_self]
  exact BitVec.and_zero

theorem Shown.follows (h : Shown start last text first m) (hs : start < last)
    (hfits : first + str.length < last → first' = first + str.length)
    (hcut : last ≤ first + str.length → first' + 1 = last ∨ first' = last) :
    Follows start last m (.ok (text ++ str)) (.ok (first', printCut last str first m)) := by
  obtain ⟨hstart, hlast⟩ := h.bounds hs
  exact ⟨_, rfl, h.append hfits hcut hs, printCut_untouched hstart hlast⟩

theorem Shown.printNul_follows (h : Shown start last text first m) (hs : start < last) :
    Follows start last m (.ok text) (.ok (printNul last (first, m))) := by
  have hlast := (h.bounds hs).2
  have hend : Follows start last m (.ok (text ++ [])) (.ok (first, printCut last [] first m)) :=
    h.follows hs (fun _ => rfl) (fun hl => .inr (Nat.le_antisymm hlast hl))
  rwa [List.append_nil, ← printNul_eq] at hend

theorem Shown.copyString_follows (h : Shown start last text first m) (hs : start < last)
    (hne : first ≠ last) :
    Follows start last m (.ok (text ++ str)) (.ok (copyString last str (first, m))) := by
  have hlast := (h.bounds hs).2
  rw [copyString_eq (by omega)]
  apply h.follows hs
  · intro _
    omega
  · intro _
    omega

end

section

variable {home : Option Text} {start last : ℕ}

theorem length_valueText {v : ℤ} (h : isInt64 v = true) : (valueText v).length ≤ 63 := by
  have hv : int64Min ≤ v ∧ v ≤ int64Max := of_decide_eq_true h
  have hlen : ∀ n : ℕ, n < 10 ^ 62 → (Nat.toDigits 10 n).length ≤ 62 := fun n hn =>
    (Nat.length_toDigits_le_iff (by omega) (by omega)).mpr hn
  simp only [int64Min, int64Max] at hv
  rw [valueText]
  obtain ⟨n, ⟨ht, hn⟩ | ⟨ht, hn⟩⟩ := toString_int v
  · rw [ht]
    have hn := hlen n (by omega)
    omega
  · rw [ht, List.length_cons]
    have hn := hlen n (by omega)
    omega

mutual

theorem printObject_follows (hs : start < last) :
    ∀ {obj : Object} {flags : BitVec 32} {text : Text} {first : ℕ} {m : Memory},
      allValues isInt64 obj = true → Shown start last text first m →
      (flags &&& printExpandTilde ≠ 0 → first ≠ last) →
      Follows start last m (printObjectStd home flags obj text)
        (printObject home last flags obj (first, m))
  | .string str, flags, text, first, m, _, h, ht => by
    rw [printObjectStd, printObject]
    by_cases hl : first = last
    · have htilde : ¬ expandsTilde flags str := fun he => ht he.1 hl
      have hcells : printCut last str first m = m := if_pos hl
      rw [if_pos hl, if_neg htilde]
      have hend : Follows start last m (.ok (text ++ str))
          (.ok (first, printCut last str first m)) :=
        h.follows hs (by omega) (fun _ => .inr hl)
      rwa [hcells] at hend
    · rw [if_neg hl]
      by_cases htilde : expandsTilde flags str
      · rw [if_pos htilde, if_pos htilde]
        cases expandPath home str with
        | error e => rfl
        | ok expanded => exact h.copyString_follows hs hl
      · rw [if_neg htilde, if_neg htilde]
        exact h.copyString_follows hs hl
  | .value v, flags, text, first, m, hv, h, _ => by
    have hlast := (h.bounds hs).2
    rw [printObjectStd, printObject, List.take_of_length_le (length_valueText hv)]
    show Follows start last m _ (.ok (min (first + (valueText v).length) last,
      (snprintf m first (last - first) (valueText v)).2))
    rw [snprintf_eq hlast]
    apply h.follows hs
    · intro _
      omega
    · intro _
      omega
  | .list items, flags, text, first, m, hv, h, ht => by
    obtain ⟨out, hout, hprinted, hsame⟩ := h.printNul_follows hs
    cases hout
    rw [printObjectStd, printObject]
    apply Follows.of_untouched hsame
    exact printItems_follows hs hv hprinted ht
  | .none, flags, text, first, m, _, h, _ => by
    rw [printObjectStd, printObject]
    exact h.printNul_follows hs
  | .rawString _, _, _, _, _, _, _, _ => rfl
  | .map _, _, _, _, _, _, _, _ => rfl
  | .dictKey _ _ _, _, _, _, _, _, _, _ => rfl

theorem printItems_follows (hs : start < last) :
    ∀ {items : List Object} {flags : BitVec 32} {text : Text} {out : Output},
      allItems isInt64 items = true → Printed start last text out →
      (flags &&& printExpandTilde ≠ 0 → out.1 ≠ last) →
      Follows start last out.2 (printItemsStd home flags items text)
        (printItems home last flags items out)
  | [], flags, text, out, _, h, _ => ⟨out, rfl, h, fun _ _ => rfl⟩
  | item :: items, flags, text, (first, m), hv, h, ht => by
    obtain ⟨hitem, hitems⟩ := Bool.and_eq_true_iff.mp hv
    have hfirst := printObject_follows hs hitem h.shown ht
    rw [printItemsStd, printItems]
    cases hstd : printObjectStd home flags item text with
    | error e =>
      rw [hstd] at hfirst
      rw [show printObject home last flags item (first, m) = .error e from hfirst]
      rfl
    | ok text' =>
      rw [hstd] at hfirst
      obtain ⟨out, hout, hprinted, hsame⟩ := hfirst
      rw [hout]
      apply Follows.of_untouched hsame
      refine printItems_follows hs hitems hprinted ?_
      intro hne
      exact absurd (clear_printExpandTilde flags) hne

end

end

/-- Printing an object into `size` cells of memory throws what `print_object_std` throws, or
the cells hold its text, or the first `size - 1` bytes of it, and a nul byte. -/
theorem printObject_truncates (home : Option Text) (flags : BitVec 32) (obj : Object)
    (hv : allValues isInt64 obj = true) (start size : ℕ) (hs : 1 ≤ size) (m : Memory) :
    (∀ e, printObject home (start + size) flags obj (start, m) = .error e ↔
      printObjectStd home flags obj [] = .error e) ∧
    ∀ text, printObjectStd home flags obj [] = .ok text →
      ∃ first m', printObject home (start + size) flags obj (start, m) = .ok (first, m') ∧
        load m' start (min (size - 1) text.length + 1) =
          text.take (min (size - 1) text.length) ++ [nul] ∧
        Untouched start (start + size) m m' := by
  have hstart : start < start + size := by omega
  have h : Follows start (start + size) m (printObjectStd home flags obj [])
      (printObject home (start + size) flags obj (start, m)) :=
    printObject_follows hstart hv (shown_start hstart) (fun _ => by omega)
  cases hstd : printObjectStd home flags obj [] with
  | error e =>
    rw [hstd] at h
    have h : printObject home (start + size) flags obj (start, m) = .error e := h
    rw [h]
    exact ⟨by simp, fun _ ht => by cases ht⟩
  | ok text =>
    rw [hstd] at h
    obtain ⟨⟨first, m'⟩, hout, hprinted, hsame⟩ := h
    rw [hout]
    refine ⟨by simp, ?_⟩
    intro text' ht
    cases ht
    refine ⟨first, m', rfl, ?_, hsame⟩
    have hload := hprinted.ended.load_eq
    have htake : text.take (start + size - start - 1) = text.take (min (size - 1) text.length) := by
      rw [Nat.add_sub_cancel_left, ← List.take_eq_take_min]
    have hlen : (text.take (min (size - 1) text.length)).length = min (size - 1) text.length := by
      rw [List.length_take]
      omega
    rwa [htake, List.length_append, hlen, List.length_singleton] at hload

/-- A list that is cut inside of its number. -/
theorem cut_list_printed :
    printObjectStd (some "/root".toList) 1 (.list [.string "~/a".toList, .value (-1234)]) [] =
      .ok "/root/a-1234".toList ∧
    ∃ first m', printObject (some "/root".toList) 10 1
        (.list [.string "~/a".toList, .value (-1234)]) (0, fun _ => 'x') = .ok (first, m') ∧
      load m' 0 10 = "/root/a-1".toList ++ [nul] := by
  have htext : printObjectStd (some "/root".toList) 1
      (.list [.string "~/a".toList, .value (-1234)]) [] = .ok "/root/a-1234".toList := by decide
  refine ⟨htext, ?_⟩
  obtain ⟨first, m', hout, hload, -⟩ :=
    (printObject_truncates (some "/root".toList) 1 (.list [.string "~/a".toList, .value (-1234)])
      (by decide) 0 10 (by decide) (fun _ => 'x')).2 _ htext
  exact ⟨first, m', hout, hload⟩

end ObjectPrinting
