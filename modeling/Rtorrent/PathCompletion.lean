import Mathlib.Data.Char
import Mathlib.Data.List.DropRight
import Rtorrent.ObjectPrinting
import Rtorrent.SortedPrefixes

/-! # Completion of paths

`PathInput` completes the name in front of the cursor from the directory before it. The file
system is a function from expanded paths to what `readdir` lists. -/
namespace PathCompletion

open RpcTextParser SortedPrefixes
open ObjectPrinting (expandPath)

/-- A name is not empty and has no slash and no nul. -/
structure DirectoryEntry where
  name : Text
  isDirectory : Bool
  name_ne_nil : name ≠ []
  slash_not_mem : '/' ∉ name
  nul_not_mem : '\x00' ∉ name

/-- `home` is the environment variable `HOME`. -/
structure FileSystem where
  home : Option Text
  listing : Text → Option (List DirectoryEntry)

/-- No entry is to stand before one with a smaller name. -/
def precedes (a b : DirectoryEntry) : Bool := !decide (b.name < a.name)

/-- `Directory::update` with both of its flags. -/
def update (fs : FileSystem) (path : Text) : Except Failure (Option (List DirectoryEntry)) :=
  if path = [] then inputError "Directory::update() tried to open an empty path."
  else do
    let expanded ← expandPath fs.home path
    pure ((fs.listing expanded).map fun entries =>
      (entries.filter fun e => e.name.head? != some '.').mergeSort precedes)

/-- The name after the loop that marks the directories. -/
def shownName (e : DirectoryEntry) : Text := if e.isDirectory then e.name ++ ['/'] else e.name

structure PathInput where
  str : Text
  pos : ℕ
  pos_le : pos ≤ str.length
  showNext : Bool

/-- `std::string::rfind` from an index down. -/
def rfind (c : Char) (str : Text) : ℕ → Option ℕ
  | 0 => if str[0]? = some c then some 0 else none
  | i + 1 => if str[i + 1]? = some c then some (i + 1) else rfind c str i

def PathInput.findLastDelim (input : PathInput) : ℕ :=
  match rfind '/' input.str input.pos with
  | none => 0
  | some r => if r = input.str.length then r else r + 1

/-- Whether `complete.compare(0, base.size(), base)` is zero. -/
def compareBase (base complete : Text) : Bool := complete.take base.length == base

def findIncomplete (names : List Text) (f : Text) : List Text := range (compareBase f) names

def countBase : ℕ → Text → Text → ℕ
  | n, a :: as, b :: bs => if a ≠ b then n else countBase (n + 1) as bs
  | n, _, _ => n

/-- The body of the loop of `make_base`. The ends of the two ranges are those of two copies of a
name, so `count_base` does not see the end of the name that it reads. -/
def cutBase (base name : Text) : Text :=
  let pos := countBase 0 base (name ++ ['\x00'])
  if pos < base.length then base.take pos else base

def makeBase : List Text → Text
  | [] => []
  | first :: names => names.foldl cutBase first

theorem rfind_lt {c : Char} {str : Text} {i r : ℕ} (h : rfind c str i = some r) :
    r < str.length := by
  induction i with
  | zero =>
    simp only [rfind] at h
    split at h
    · next hc =>
      obtain rfl := Option.some.inj h
      exact (List.getElem?_eq_some_iff.mp hc).1
    · cases h
  | succ i ih =>
    rw [rfind] at h
    split at h
    · next hc =>
      obtain rfl := Option.some.inj h
      exact (List.getElem?_eq_some_iff.mp hc).1
    · exact ih h

theorem PathInput.findLastDelim_le (input : PathInput) :
    input.findLastDelim ≤ input.str.length := by
  unfold PathInput.findLastDelim
  split
  · exact Nat.zero_le _
  · next r hr =>
    have := rfind_lt hr
    split <;> omega

/-- The input afterwards, the entries found, and whether `m_signal_show_range` was emitted. -/
structure Outcome where
  input : PathInput
  found : List Text
  emitted : Bool

def receiveDoComplete (fs : FileSystem) (input : PathInput) : Except Failure Outcome := do
  let dirEnd := input.findLastDelim
  match ← update fs (if dirEnd ≠ 0 then input.str.take dirEnd else ['.', '/']) with
  | none => pure ⟨input, [], false⟩
  | some dir =>
    if dir.isEmpty then pure ⟨input, [], false⟩
    else
      let r := findIncomplete (dir.map shownName) ((input.str.drop dirEnd).take input.pos)
      if r.isEmpty then pure ⟨input, r, false⟩
      else
        let base := makeBase r
        let showNext := decide (r.length ≠ 1)
        pure
          { input :=
              { str := input.str.take dirEnd ++ base
                pos := dirEnd + base.length
                pos_le := by
                  rw [List.length_append, List.length_take, Nat.min_eq_left input.findLastDelim_le]
                showNext }
            found := r
            emitted := showNext }

def PathInput.directory (input : PathInput) : Text :=
  (input.str.take input.pos).rdropWhile (· != '/')

def PathInput.part (input : PathInput) : Text :=
  (input.str.take input.pos).rtakeWhile (· != '/')

/-- The entries of a directory that is given by the start of a text, in order. -/
def entriesIn (fs : FileSystem) (directory : Text) : List Text :=
  match update fs (if directory ≠ [] then directory else ['.', '/']) with
  | .ok (some dir) => dir.map shownName
  | _ => []

def Expands (fs : FileSystem) (directory : Text) : Prop :=
  ∃ path, expandPath fs.home directory = .ok path

structure Completes (fs : FileSystem) (input : PathInput) (outcome : Outcome) : Prop where
  found_eq : outcome.found =
    (entriesIn fs input.directory).filter fun name => input.part.isPrefixOf name
  completed : outcome.found ≠ [] → ∃ base, IsBase base outcome.found ∧
    outcome.input.str = input.directory ++ base ∧ outcome.input.pos = outcome.input.str.length
  unchanged : outcome.found = [] → outcome.input = input

/-- At a slash the code has gone past the cursor, and no entry may start with either part.
Elsewhere it searches with a part that may be longer, which no entry may notice. -/
def PartFits (fs : FileSystem) (input : PathInput) : Prop :=
  if input.str[input.pos]? = some '/' then
    (∀ name ∈ entriesIn fs input.directory, ¬input.part <+: name) ∧
    ∀ name ∈ entriesIn fs (input.str.take (input.pos + 1)),
      ¬(input.str.drop (input.pos + 1)).take input.pos <+: name
  else
    ∀ name ∈ entriesIn fs input.directory, input.part <+: name →
      (input.str.drop input.directory.length).take input.pos <+: name

/-- The directory that is opened can be expanded, and the part is the right one. -/
def Fits (fs : FileSystem) (input : PathInput) : Prop :=
  Expands fs (if input.str[input.pos]? = some '/' then input.str.take (input.pos + 1)
    else input.directory) ∧ PartFits fs input

theorem length_rdropWhile_take (c : Char) (str : Text) (i : ℕ) :
    ((str.take (i + 1)).rdropWhile (· != c)).length =
      if str[i]? = some c then i + 1 else ((str.take i).rdropWhile (· != c)).length := by
  rw [List.take_add_one]
  cases hget : str[i]? with
  | none => simp
  | some x =>
    have hlt := (List.getElem?_eq_some_iff.mp hget).1
    by_cases hx : x = c
    · rw [if_pos (by rw [hx]), Option.toList_some, List.rdropWhile_concat_neg _ _ _ (by simp [hx])]
      simp [Nat.min_eq_left hlt.le]
    · rw [if_neg (by simpa using hx), Option.toList_some,
        List.rdropWhile_concat_pos _ _ _ (by simpa using hx)]

theorem rfind_eq (c : Char) (str : Text) (i : ℕ) :
    (rfind c str i).elim 0 (· + 1) = ((str.take (i + 1)).rdropWhile (· != c)).length := by
  induction i with
  | zero =>
    rw [length_rdropWhile_take, rfind]
    split <;> simp
  | succ i ih =>
    rw [length_rdropWhile_take, rfind]
    split
    · rfl
    · exact ih

namespace PathInput

variable (input : PathInput)

theorem findLastDelim_eq : input.findLastDelim =
    if input.str[input.pos]? = some '/' then input.pos + 1 else input.directory.length := by
  have helim : input.findLastDelim = (rfind '/' input.str input.pos).elim 0 (· + 1) := by
    unfold findLastDelim
    cases hr : rfind '/' input.str input.pos with
    | none => rfl
    | some r => exact if_neg (Nat.ne_of_lt (rfind_lt hr))
  rw [helim, rfind_eq, length_rdropWhile_take]
  rfl

theorem directory_append_part : input.directory ++ input.part = input.str.take input.pos :=
  List.rdropWhile_append_rtakeWhile

theorem slash_not_mem_part : '/' ∉ input.part := by
  intro h
  simpa using List.mem_rtakeWhile_imp h

theorem length_directory_le : input.directory.length ≤ input.pos := by
  have hlen := congrArg List.length input.directory_append_part
  rw [List.length_append, List.length_take] at hlen
  omega

theorem take_directory : input.str.take input.directory.length = input.directory := by
  have htake := congrArg (List.take input.directory.length) input.directory_append_part
  rw [List.take_left, List.take_take, Nat.min_eq_left input.length_directory_le] at htake
  exact htake.symm

theorem part_starts :
    input.part <+: (input.str.drop input.directory.length).take input.pos := by
  have hdrop := congrArg (List.drop input.directory.length) input.directory_append_part
  rw [List.drop_left] at hdrop
  rw [List.prefix_take_iff, hdrop, List.drop_take]
  exact ⟨List.take_prefix _ _, by rw [List.length_take]; omega⟩

end PathInput

theorem compareBase_iff {base complete : Text} :
    compareBase base complete = true ↔ base <+: complete := by
  rw [compareBase, beq_iff_eq, List.prefix_iff_eq_take, eq_comm]

theorem nul_not_mem_shownName (e : DirectoryEntry) : '\x00' ∉ shownName e := by
  have hnul := e.nul_not_mem
  unfold shownName
  split
  · simpa using hnul
  · exact hnul

theorem starts_shownName {f : Text} (hf : '/' ∉ f) (e : DirectoryEntry) :
    f <+: shownName e ↔ f <+: e.name := by
  unfold shownName
  split
  · rw [List.prefix_concat_iff]
    exact or_iff_right fun h => hf (h ▸ List.mem_concat_self)
  · rfl

theorem precedes_iff {a b : DirectoryEntry} : precedes a b = true ↔ a.name ≤ b.name := by
  simp [precedes]

theorem sorted_update {fs : FileSystem} {path : Text} {dir : List DirectoryEntry}
    (h : update fs path = .ok (some dir)) : dir.Pairwise fun a b => precedes a b = true := by
  obtain ⟨entries, rfl⟩ :
      ∃ entries : List DirectoryEntry, dir = (entries.filter _).mergeSort precedes := by
    rw [update] at h
    split at h
    · cases h
    · cases he : expandPath fs.home path with
      | error e =>
        rw [he] at h
        cases h
      | ok expanded =>
        rw [he] at h
        obtain ⟨entries, -, rfl⟩ := Option.map_eq_some_iff.mp (Except.ok.inj h)
        exact ⟨entries, rfl⟩
  refine List.pairwise_mergeSort (fun a b c hab hbc => ?_) (fun a b => ?_) _
  · rw [precedes_iff] at hab hbc ⊢
    exact le_trans hab hbc
  · rw [Bool.or_eq_true, precedes_iff, precedes_iff]
    exact le_total _ _

theorem findIncomplete_eq (fs : FileSystem) (directory : Text) {part f : Text} (hpart : '/' ∉ part)
    (hf : ∀ name ∈ entriesIn fs directory, part <+: name ↔ f <+: name) :
    findIncomplete (entriesIn fs directory) f =
      (entriesIn fs directory).filter fun name => part.isPrefixOf name := by
  have hsame : ∀ name ∈ entriesIn fs directory, compareBase f name = part.isPrefixOf name := by
    intro name hname
    rw [Bool.eq_iff_iff, compareBase_iff, List.isPrefixOf_iff_prefix, hf name hname]
  rw [← List.filter_congr hsame]
  unfold entriesIn at hf ⊢
  split
  · next dir hdir =>
    rw [hdir] at hf
    have hname : ∀ e ∈ dir, compareBase f (shownName e) = true ↔ part <+: e.name := by
      intro e he
      rw [compareBase_iff, ← hf _ (List.mem_map_of_mem he), starts_shownName hpart]
    rw [findIncomplete, range_map, List.filter_map,
      range_eq_filter (sorted_update hdir)]
    intro a ha b hb c hc hab hbc hpa hpc
    simp only [Function.comp_apply, hname _ ha, hname _ hb, hname _ hc] at hpa hpc ⊢
    exact starts_between hpa hpc (not_lt.mpr (precedes_iff.mp hab))
      (not_lt.mpr (precedes_iff.mp hbc))
  · rfl

theorem countBase_eq (n : ℕ) (a b : Text) : countBase n a b = n + common a b := by
  induction a generalizing n b with
  | nil => rfl
  | cons x a ih =>
    cases b with
    | nil => rfl
    | cons y b =>
      rw [countBase, common]
      by_cases hxy : x = y
      · rw [if_neg (not_not.mpr hxy), if_pos hxy, ih]
        omega
      · rw [if_pos hxy, if_neg hxy, Nat.add_zero]

theorem cutBase_eq {base : Text} (hnul : '\x00' ∉ base) (name : Text) :
    cutBase base name = base.take (common base name) := by
  simp only [cutBase, countBase_eq, Nat.zero_add, common_append hnul]
  split
  · rfl
  · next h => exact (List.take_of_length_le (Nat.le_of_not_lt h)).symm

/-- The loop keeps the base of the names so far, and no nul gets into it. -/
theorem isBase_foldl {done names : List Text} {base : Text} (hbase : IsBase base done)
    (hnul : '\x00' ∉ base) : IsBase (names.foldl cutBase base) (done ++ names) := by
  induction names generalizing done base with
  | nil => rwa [List.append_nil]
  | cons name names ih =>
    rw [List.foldl_cons, cutBase_eq hnul, List.append_cons]
    exact ih (hbase.concat name) fun h => hnul (List.mem_of_mem_take h)

theorem isBase_makeBase {names : List Text} (hne : names ≠ [])
    (hnul : ∀ name ∈ names, '\x00' ∉ name) :
    IsBase (makeBase names) names := by
  cases names with
  | nil => exact absurd rfl hne
  | cons first names => exact isBase_foldl (isBase_singleton first) (hnul first List.mem_cons_self)

def candidates (fs : FileSystem) (input : PathInput) : List Text :=
  findIncomplete (entriesIn fs (input.str.take input.findLastDelim))
    ((input.str.drop input.findLastDelim).take input.pos)

/-- What is returned for the entries found, when the directory can be expanded. -/
def completion (input : PathInput) (found : List Text) : Outcome :=
  if found.isEmpty then ⟨input, [], false⟩
  else
    { input :=
        { str := input.str.take input.findLastDelim ++ makeBase found
          pos := input.findLastDelim + (makeBase found).length
          pos_le := by
            rw [List.length_append, List.length_take, Nat.min_eq_left input.findLastDelim_le]
          showNext := decide (found.length ≠ 1) }
      found := found
      emitted := decide (found.length ≠ 1) }

theorem mem_entriesIn {fs : FileSystem} {directory name : Text}
    (h : name ∈ entriesIn fs directory) :
    '\x00' ∉ name := by
  unfold entriesIn at h
  split at h
  · obtain ⟨e, -, rfl⟩ := List.mem_map.mp h
    exact nul_not_mem_shownName e
  · cases h

section

variable (fs : FileSystem) (input : PathInput)

theorem path_eq : (if input.findLastDelim ≠ 0 then input.str.take input.findLastDelim
    else ['.', '/']) =
    if input.str.take input.findLastDelim ≠ [] then input.str.take input.findLastDelim
      else ['.', '/'] := by
  have hle := input.findLastDelim_le
  have hiff : input.str.take input.findLastDelim ≠ [] ↔ input.findLastDelim ≠ 0 := by
    rw [← List.length_pos_iff, List.length_take]
    omega
  simp only [hiff]

theorem expands_iff (directory : Text) : Expands fs directory ↔
    ∃ dir, update fs (if directory ≠ [] then directory else ['.', '/']) = .ok dir := by
  by_cases hd : directory = []
  · rw [if_neg (not_not.mpr hd), hd]
    exact iff_of_true ⟨[], rfl⟩ ⟨_, rfl⟩
  · rw [if_pos hd, update, if_neg hd, Expands]
    cases expandPath fs.home directory with
    | error e => exact iff_of_false (by rintro ⟨_, h⟩; cases h) (by rintro ⟨_, h⟩; cases h)
    | ok path => exact iff_of_true ⟨path, rfl⟩ ⟨_, rfl⟩

theorem receiveDoComplete_ok {dir : Option (List DirectoryEntry)}
    (hdir : update fs (if input.str.take input.findLastDelim ≠ [] then
      input.str.take input.findLastDelim else ['.', '/']) = .ok dir) :
    receiveDoComplete fs input = .ok (completion input (candidates fs input)) := by
  unfold receiveDoComplete candidates entriesIn
  simp only [path_eq, hdir]
  cases dir with
  | none => rfl
  | some dir =>
    cases dir with
    | nil => rfl
    | cons e dir =>
      simp only [bind, Except.bind, List.isEmpty_cons, Bool.false_eq_true, if_false, completion]
      split
      · next hempty =>
        rw [List.isEmpty_iff.mp hempty]
        rfl
      · rfl

theorem receiveDoComplete_ok_iff (outcome : Outcome) : receiveDoComplete fs input = .ok outcome ↔
    Expands fs (input.str.take input.findLastDelim) ∧
      completion input (candidates fs input) = outcome := by
  rw [expands_iff]
  constructor
  · intro h
    cases hdir : update fs (if input.str.take input.findLastDelim ≠ [] then
        input.str.take input.findLastDelim else ['.', '/']) with
    | error e =>
      rw [receiveDoComplete, path_eq, hdir] at h
      cases h
    | ok dir => exact ⟨⟨dir, rfl⟩,
        Except.ok.inj ((receiveDoComplete_ok fs input hdir).symm.trans h)⟩
  · rintro ⟨⟨dir, hdir⟩, rfl⟩
    exact receiveDoComplete_ok fs input hdir

theorem found_completion :
    (completion input (candidates fs input)).found = candidates fs input := by
  rw [completion]
  split
  · next hempty => exact (List.isEmpty_iff.mp hempty).symm
  · rfl

variable {fs input}

theorem input_of_candidates_nil (h : candidates fs input = []) :
    (completion input (candidates fs input)).input = input := by
  rw [completion, if_pos (List.isEmpty_iff.mpr h)]

theorem input_of_candidates (h : candidates fs input ≠ []) :
    (completion input (candidates fs input)).input.str =
      input.str.take input.findLastDelim ++ makeBase (candidates fs input) ∧
    (completion input (candidates fs input)).input.pos =
      input.findLastDelim + (makeBase (candidates fs input)).length := by
  rw [completion, if_neg (mt List.isEmpty_iff.mp h)]
  exact ⟨rfl, rfl⟩

theorem isBase_candidates (h : candidates fs input ≠ []) :
    IsBase (makeBase (candidates fs input)) (candidates fs input) :=
  isBase_makeBase h fun _ hname => mem_entriesIn (mem_of_mem_range hname)

theorem candidates_eq_nil_iff : candidates fs input = [] ↔
    ∀ name ∈ entriesIn fs (input.str.take input.findLastDelim),
      ¬(input.str.drop input.findLastDelim).take input.pos <+: name := by
  simp only [candidates, findIncomplete, range_eq_nil_iff, ← compareBase_iff, Bool.not_eq_true]

theorem filter_part_eq_nil_iff :
    (entriesIn fs input.directory).filter (fun name => input.part.isPrefixOf name) = [] ↔
      ∀ name ∈ entriesIn fs input.directory, ¬input.part <+: name := by
  simp only [List.filter_eq_nil_iff, List.isPrefixOf_iff_prefix]

theorem completes_at_slash (hslash : input.str[input.pos]? = some '/') :
    Completes fs input (completion input (candidates fs input)) ↔ PartFits fs input := by
  have hend : input.findLastDelim = input.pos + 1 := by
    rw [input.findLastDelim_eq, if_pos hslash]
  rw [PartFits, if_pos hslash, ← filter_part_eq_nil_iff, ← hend, ← candidates_eq_nil_iff]
  constructor
  · intro h
    have hnil : candidates fs input = [] := by
      by_contra hne
      rw [← found_completion] at hne
      obtain ⟨base, hbase, hstr, -⟩ := h.completed hne
      rw [found_completion] at hne hbase
      rw [(input_of_candidates hne).1, (isBase_candidates hne).unique hbase] at hstr
      have hlen := congrArg List.length (List.append_cancel_right hstr)
      rw [List.length_take, Nat.min_eq_left input.findLastDelim_le, hend] at hlen
      have := input.length_directory_le
      omega
    exact ⟨h.found_eq.symm.trans ((found_completion fs input).trans hnil), hnil⟩
  · rintro ⟨hpart, hnil⟩
    have hfound := (found_completion fs input).trans hnil
    exact ⟨hfound.trans hpart.symm, fun h => absurd hfound h, fun _ => input_of_candidates_nil hnil⟩

theorem completes_elsewhere (hslash : input.str[input.pos]? ≠ some '/') :
    Completes fs input (completion input (candidates fs input)) ↔ PartFits fs input := by
  have hend : input.findLastDelim = input.directory.length := by
    rw [input.findLastDelim_eq, if_neg hslash]
  have hcandidates : candidates fs input = findIncomplete (entriesIn fs input.directory)
      ((input.str.drop input.directory.length).take input.pos) := by
    rw [candidates, hend, input.take_directory]
  rw [PartFits, if_neg hslash]
  constructor
  · intro h name hname hpart
    have hfound : name ∈ (completion input (candidates fs input)).found := by
      rw [h.found_eq, List.mem_filter, List.isPrefixOf_iff_prefix]
      exact ⟨hname, hpart⟩
    rw [found_completion, hcandidates] at hfound
    exact compareBase_iff.mp (mem_range hfound)
  · intro hfits
    have hfilter := findIncomplete_eq fs input.directory input.slash_not_mem_part
      fun name hname => ⟨hfits name hname, input.part_starts.trans⟩
    rw [← hcandidates] at hfilter
    rw [← found_completion] at hfilter
    refine ⟨hfilter, fun hne => ?_, fun hnil => ?_⟩
    · rw [found_completion] at hne ⊢
      obtain ⟨hstr, hpos⟩ := input_of_candidates hne
      rw [hend, input.take_directory] at hstr
      refine ⟨_, isBase_candidates hne, hstr, ?_⟩
      rw [hpos, hstr, List.length_append, hend]
    · exact input_of_candidates_nil ((found_completion fs input).symm.trans hnil)

end

theorem completes_iff (fs : FileSystem) (input : PathInput) :
    (∃ outcome, receiveDoComplete fs input = .ok outcome ∧ Completes fs input outcome) ↔
      Fits fs input := by
  have hpart : Completes fs input (completion input (candidates fs input)) ↔ PartFits fs input := by
    by_cases hslash : input.str[input.pos]? = some '/'
    · exact completes_at_slash hslash
    · exact completes_elsewhere hslash
  have hopened : input.str.take input.findLastDelim =
      if input.str[input.pos]? = some '/' then input.str.take (input.pos + 1)
      else input.directory := by
    rw [input.findLastDelim_eq]
    split
    · rfl
    · exact input.take_directory
  simp only [receiveDoComplete_ok_iff, and_assoc, exists_and_left, exists_eq_left', hpart, hopened,
    Fits]

def axe : DirectoryEntry where
  name := ['a', 'x', 'e']
  isDirectory := false
  name_ne_nil := by decide
  slash_not_mem := by decide
  nul_not_mem := by decide

def axeOnly : FileSystem where
  home := none
  listing path := if path = ['d', '/'] then some [axe] else none

def between : PathInput where
  str := ['d', '/', 'a', 'b']
  pos := 3
  pos_le := by decide
  showNext := false

theorem entriesIn_axeOnly : entriesIn axeOnly ['d', '/'] = [['a', 'x', 'e']] := by
  have hupdate : update axeOnly ['d', '/'] = .ok (some ([axe].mergeSort precedes)) := rfl
  rw [List.mergeSort_singleton] at hupdate
  simp [entriesIn, hupdate, shownName, axe]

theorem candidates_between : candidates axeOnly between = [] := by
  have hpath : between.str.take between.findLastDelim = ['d', '/'] := rfl
  have hpart : (between.str.drop between.findLastDelim).take between.pos = ['a', 'b'] := rfl
  rw [candidates, hpath, hpart, entriesIn_axeOnly]
  rfl

theorem between_unchanged :
    between.part = ['a'] ∧ entriesIn axeOnly between.directory = [['a', 'x', 'e']] ∧
    receiveDoComplete axeOnly between = .ok ⟨between, [], false⟩ ∧
    ¬Completes axeOnly between ⟨between, [], false⟩ := by
  refine ⟨rfl, entriesIn_axeOnly, ?_, fun h => ?_⟩
  · rw [receiveDoComplete_ok_iff, completion, candidates_between]
    exact ⟨⟨['d', '/'], rfl⟩, rfl⟩
  · have hfound := h.found_eq
    have hdirectory : between.directory = ['d', '/'] := rfl
    have hpart : between.part = ['a'] := rfl
    rw [hdirectory, hpart, entriesIn_axeOnly] at hfound
    cases hfound

end PathCompletion
