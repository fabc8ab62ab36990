import Mathlib.Algebra.Group.Nat.Defs
import Rtorrent.RpcCommandParser

/-! # Option files

The file is read line by line into a buffer of 4096 bytes. A line that ends in an odd number of
backslashes stays in the buffer without them. -/
namespace OptionFile

open FallibleRuns RpcTextParser RpcCommandParser

/-- `gcount` and the state bits after `std::istream::getline`, what it stored and what is left. -/
structure GetLine where
  stored : Text
  gcount : ℕ
  eofbit : Bool
  failbit : Bool
  rest : Text

/-- At most this many characters are stored. The end of the file is looked for first, then the
line feed, then room. -/
def extractLine : ℕ → Text → GetLine
  | _, [] => ⟨[], 0, true, false, []⟩
  | 0, c :: text =>
    if c = '\n' then ⟨[], 1, false, false, text⟩ else ⟨[], 0, false, true, c :: text⟩
  | room + 1, c :: text =>
    if c = '\n' then ⟨[], 1, false, false, text⟩
    else
      let r := extractLine room text
      { r with stored := c :: r.stored, gcount := r.gcount + 1 }

def getline (size : ℕ) (text : Text) : GetLine :=
  let r := extractLine (size - 1) text
  { r with failbit := r.failbit || r.gcount == 0 }

def parseCountEscaped (line : Text) : ℕ := (line.reverse.takeWhile (· == '\\')).length

def bufferSize : ℕ := 4096

/-- The message goes through a buffer of 2048 bytes. -/
def optionFileError (path : String) (lineNumber : ℕ) (what : String) : Failure :=
  .error .inputError (String.ofList (("Error in option file: " ++ path ++ ":" ++
    toString (lineNumber % 2 ^ 32) ++ ": " ++ what).toList.take 2047))

section

variable {σ : Type} (parse : Text → CommandRun σ Unit) (path : String)

/-- The `catch` clause around the loop. -/
def catchInputError (lineNumber : ℕ) (x : CommandRun σ Unit) : CommandRun σ Unit :=
  Run.handle x fun
    | .error .inputError what | .error .untrustedError what =>
      Run.fail (optionFileError path lineNumber what)
    | e => Run.fail e

/-- The loop for a number of turns, with the part of the buffer that is in use. -/
def readLoop : ℕ → Bool → ℕ → Text → Text → CommandRun σ Bool
  | 0, _, _, _, _ => Run.fail .outOfFuel
  | turns + 1, good, lineNumber, buffer, text =>
    let r := getline (bufferSize - buffer.length) text
    if !good || r.failbit then pure true
    else if r.gcount = 0 then
      Run.fail (.error .internalError "parse_command_file(...) file.gcount() == 0.")
    else
      let line := r.stored.take (if r.eofbit then r.gcount else r.gcount - 1)
      let escaped := parseCountEscaped line
      let getCount := buffer.length + line.length
      if getCount = bufferSize - 1 then
        Run.fail (optionFileError path (lineNumber + 1) "Exceeded max line length.")
      else if escaped % 2 = 1 then
        readLoop turns (!r.eofbit) (lineNumber + 1) ((buffer ++ line).take (getCount - escaped))
          r.rest
      else do
        catchInputError path (lineNumber + 1) (parse (buffer ++ line))
        readLoop turns (!r.eofbit) (lineNumber + 1) [] r.rest

/-- Every turn but the last reads a character. A file that is not there cannot be opened. -/
def parseCommandFile : Option Text → CommandRun σ Bool
  | none => pure false
  | some text => readLoop parse path (text.length + 1) true 0 [] text

def physicalLines : Text → List Text
  | [] => []
  | c :: text =>
    if c = '\n' then [] :: physicalLines text
    else
      match physicalLines text with
      | [] => [[c]]
      | line :: lines => (c :: line) :: lines

def scanLines : ℕ → Text → List Text → CommandRun σ Bool
  | _, _, [] => pure true
  | lineNumber, buffer, line :: lines =>
    if bufferSize ≤ (buffer ++ line).length then pure true
    else if (buffer ++ line).length = bufferSize - 1 then
      Run.fail (optionFileError path (lineNumber + 1) "Exceeded max line length.")
    else if parseCountEscaped line % 2 = 1 then
      scanLines (lineNumber + 1)
        ((buffer ++ line).take ((buffer ++ line).length - parseCountEscaped line)) lines
    else do
      catchInputError path (lineNumber + 1) (parse (buffer ++ line))
      scanLines (lineNumber + 1) [] lines

variable {text : Text}

theorem physicalLines_ne_nil (h : text ≠ []) : physicalLines text ≠ [] := by
  cases text with
  | nil => exact absurd rfl h
  | cons c text =>
    rw [physicalLines]
    split
    · exact List.cons_ne_nil _ _
    · split <;> exact List.cons_ne_nil _ _

/-- A line that fits is stored, and the other lines are left. -/
structure Reads (r : GetLine) (line : Text) (lines : List Text) : Prop where
  stored : r.stored = line
  failbit : r.failbit = false
  pos : 0 < r.gcount
  gcount : r.gcount = line.length + if r.eofbit then 0 else 1
  rest : physicalLines r.rest = lines
  eof : r.eofbit = true → r.rest = []

theorem extractLine_nil (room : ℕ) : extractLine room [] = ⟨[], 0, true, false, []⟩ := by
  cases room with
  | zero => rfl
  | succ room => rfl

theorem extractLine_newline (room : ℕ) (text : Text) :
    extractLine room ('\n' :: text) = ⟨[], 1, false, false, text⟩ := by
  cases room with
  | zero => rfl
  | succ room => rfl

variable {line : Text} {lines : List Text}

theorem extractLine_spec (h : physicalLines text = line :: lines) (room : ℕ) :
    (room < line.length → (extractLine room text).failbit = true) ∧
    (line.length ≤ room → Reads (extractLine room text) line lines) := by
  induction text generalizing line lines room with
  | nil => cases h
  | cons c text ih =>
    rw [physicalLines] at h
    split at h
    · rename_i hc
      cases h
      rw [hc, extractLine_newline]
      exact ⟨fun hl => absurd hl (Nat.not_lt_zero _),
        fun _ => ⟨rfl, rfl, Nat.one_pos, rfl, rfl, nofun⟩⟩
    · rename_i hc
      cases room with
      | zero =>
        rw [extractLine, if_neg hc]
        constructor
        · intro _
          rfl
        · intro hl
          split at h <;> cases h <;> simp at hl
      | succ room =>
        rw [extractLine, if_neg hc]
        split at h
        · rename_i hnil
          cases h
          cases text with
          | nil =>
            rw [extractLine_nil]
            exact ⟨fun hl => by simp at hl,
              fun _ => ⟨rfl, rfl, Nat.one_pos, rfl, rfl, fun _ => rfl⟩⟩
          | cons d text => exact absurd hnil (physicalLines_ne_nil (List.cons_ne_nil d text))
        · rename_i line' lines' hcons
          cases h
          rcases ih hcons room with ⟨hfail, hread⟩
          simp only [List.length_cons, Nat.add_lt_add_iff_right, Nat.add_le_add_iff_right]
          refine ⟨hfail, fun hl => ?_⟩
          have hr := hread hl
          refine ⟨by rw [hr.stored], hr.failbit, Nat.succ_pos _, ?_, hr.rest, hr.eof⟩
          rw [hr.gcount]
          simp only [List.length_cons]
          omega

theorem extractLine_rest_length (room : ℕ) (text : Text) :
    (extractLine room text).rest.length + (extractLine room text).gcount ≤ text.length := by
  induction text generalizing room with
  | nil =>
    rw [extractLine_nil]
    exact Nat.le_refl 0
  | cons c text ih =>
    cases room with
    | zero =>
      rw [extractLine]
      split <;> simp
    | succ room =>
      rw [extractLine]
      split
      · simp
      · have hr := ih room
        simp only [List.length_cons]
        omega

theorem getline_of_reads {size : ℕ} (h : Reads (extractLine (size - 1) text) line lines) :
    getline size text = extractLine (size - 1) text := by
  have hpos : ((extractLine (size - 1) text).gcount == 0) = false := by
    rw [beq_eq_false_iff_ne]
    exact Nat.ne_of_gt h.pos
  simp only [getline, hpos, Bool.or_false]

theorem stored_line {r : GetLine} (h : Reads r line lines) :
    r.stored.take (if r.eofbit then r.gcount else r.gcount - 1) = line := by
  have hl : (if r.eofbit then r.gcount else r.gcount - 1) = line.length := by
    rw [h.gcount]
    split <;> simp
  rw [hl, h.stored, List.take_length]

theorem readLoop_eq_scanLines {turns : ℕ} {buffer : Text} (lineNumber : ℕ)
    (hturns : text.length < turns) (hbuffer : buffer.length < bufferSize) :
    readLoop parse path turns true lineNumber buffer text =
      scanLines parse path lineNumber buffer (physicalLines text) := by
  induction turns generalizing text buffer lineNumber with
  | zero => cases hturns
  | succ turns ih =>
    cases hp : physicalLines text with
    | nil =>
      have hnil : text = [] := by
        by_contra hne
        exact physicalLines_ne_nil hne hp
      subst hnil
      rw [readLoop, getline, extractLine_nil]
      rfl
    | cons line lines =>
      rcases extractLine_spec hp (bufferSize - buffer.length - 1) with ⟨hfail, hread⟩
      rw [scanLines]
      by_cases hfit : bufferSize ≤ (buffer ++ line).length
      · rw [if_pos hfit, readLoop]
        rw [List.length_append] at hfit
        have hbit := hfail (by omega)
        simp only [getline, hbit, Bool.true_or, Bool.or_true, if_true]
      · rw [if_neg hfit]
        rw [List.length_append] at hfit
        have hr := hread (by omega)
        have hgo : ∀ n buffer', buffer'.length < bufferSize →
            readLoop parse path turns
              (!(extractLine (bufferSize - buffer.length - 1) text).eofbit) n buffer'
              (extractLine (bufferSize - buffer.length - 1) text).rest =
            scanLines parse path n buffer' lines := by
          intro n buffer' hb
          have hlen := extractLine_rest_length (bufferSize - buffer.length - 1) text
          have hpos := hr.pos
          cases heof : (extractLine (bufferSize - buffer.length - 1) text).eofbit with
          | false =>
            rw [← hr.rest]
            apply ih n _ hb
            omega
          | true =>
            have hlines : lines = [] := by rw [← hr.rest, hr.eof heof, physicalLines]
            obtain ⟨rest, rfl⟩ : ∃ rest, turns = rest + 1 := ⟨turns - 1, by omega⟩
            rw [hlines]
            rfl
        rw [readLoop, getline_of_reads hr]
        simp only [hr.failbit, Bool.not_true, Bool.or_false, Bool.false_eq_true, if_false,
          stored_line hr, if_neg (Nat.ne_of_gt hr.pos), List.length_append]
        split
        · rfl
        split
        · apply hgo
          rw [List.length_take, List.length_append]
          omega
        · simp only [hgo _ [] (Nat.succ_pos _)]

def unescaped (buffer line : Text) : Text :=
  (buffer ++ line).take ((buffer ++ line).length - parseCountEscaped line)

/-- The argument is what the lines before have left to be joined. -/
def logicalLines : Option Text → List Text → List Text
  | none, [] => []
  | some joined, [] => [joined]
  | joined, line :: lines =>
    if parseCountEscaped line % 2 = 1 then
      logicalLines (some (unescaped (joined.getD []) line)) lines
    else (joined.getD [] ++ line) :: logicalLines none lines

def parseLines : List Text → CommandRun σ Unit
  | [] => pure ()
  | line :: lines => do
    parse line
    parseLines lines

/-- Every line is parsed and the answer is `true`, or an `input_error` comes after some of them.
-/
def Processed (lines : List Text) (s : σ) (outcome : Except Failure Bool × σ) : Prop :=
  (∃ t, parseLines parse lines s = (.ok (), t) ∧ outcome = (.ok true, t)) ∨
  ∃ parsed what, parsed <+: lines ∧
    outcome = (.error (.error .inputError what), (parseLines parse parsed s).2)

/-- `parse_command` throws nothing but an `input_error`. -/
def ThrowsInputErrors : Prop :=
  ∀ line s e t, parse line s = (.error e, t) →
    ∃ what, e = .error .inputError what ∨ e = .error .untrustedError what

/-- No line, with what is joined to it, is too long for the buffer, and no line is left to be
joined at the end. After a line that just fills the buffer nothing is read. -/
def Complete : Option Text → List Text → Prop
  | joined, [] => joined = none
  | joined, line :: lines =>
    (joined.getD [] ++ line).length < bufferSize ∧
      ((joined.getD [] ++ line).length = bufferSize - 1 ∨
        if parseCountEscaped line % 2 = 1 then
          Complete (some (unescaped (joined.getD []) line)) lines
        else Complete none lines)

variable {parse path}

theorem processed_cons {s t : σ}
    {outcome : Except Failure Bool × σ} (hline : parse line s = (.ok (), t))
    (h : Processed parse lines t outcome) : Processed parse (line :: lines) s outcome := by
  have hrun : ∀ parsed, parseLines parse (line :: parsed) s = parseLines parse parsed t := by
    intro parsed
    rw [parseLines, Run.bind_apply, hline]
  rcases h with ⟨u, hu, ho⟩ | ⟨parsed, what, hp, ho⟩
  · exact .inl ⟨u, (hrun lines).trans hu, ho⟩
  · refine .inr ⟨line :: parsed, what, ?_, ?_⟩
    · exact List.prefix_cons_inj line |>.mpr hp
    · rw [hrun, ho]

theorem catchInputError_ok {lineNumber : ℕ} {x : CommandRun σ Unit} {s t : σ}
    (h : x s = (.ok (), t)) : catchInputError path lineNumber x s = (.ok (), t) := by
  rw [catchInputError, Run.handle, h]

theorem catchInputError_error (path : String) (lineNumber : ℕ) {x : CommandRun σ Unit} {s t : σ}
    {e : Failure}
    (h : x s = (.error e, t))
    (he : ∃ what, e = .error .inputError what ∨ e = .error .untrustedError what) :
    ∃ what, catchInputError path lineNumber x s = (.error (.error .inputError what), t) := by
  rcases he with ⟨what, rfl | rfl⟩ <;>
  · rw [catchInputError, Run.handle, h]
    exact ⟨_, rfl⟩

theorem logicalLines_cons (joined : Option Text) (line : Text) (lines : List Text) :
    logicalLines joined (line :: lines) =
      if parseCountEscaped line % 2 = 1 then
        logicalLines (some (unescaped (joined.getD []) line)) lines
      else (joined.getD [] ++ line) :: logicalLines none lines := by
  cases joined with
  | none => rfl
  | some joined => rfl

theorem scanLines_processed (hparse : ThrowsInputErrors parse) {joined : Option Text}
    (lineNumber : ℕ) (s : σ) (h : Complete joined lines) :
    Processed parse (logicalLines joined lines) s
      (scanLines parse path lineNumber (joined.getD []) lines s) := by
  induction lines generalizing joined lineNumber s with
  | nil =>
    rw [Complete] at h
    subst h
    exact .inl ⟨s, rfl, rfl⟩
  | cons line lines ih =>
    rcases h with ⟨hroom, h⟩
    rw [scanLines, if_neg (Nat.not_le_of_lt hroom)]
    by_cases hfull : (joined.getD [] ++ line).length = bufferSize - 1
    · rw [if_pos hfull]
      exact .inr ⟨[], _, List.nil_prefix, rfl⟩
    have h := h.resolve_left hfull
    rw [if_neg hfull, logicalLines_cons]
    by_cases hesc : parseCountEscaped line % 2 = 1
    · rw [if_pos hesc] at h ⊢
      rw [if_pos hesc]
      exact ih (lineNumber + 1) s h
    · rw [if_neg hesc] at h ⊢
      rw [if_neg hesc]
      rcases hrun : parse (joined.getD [] ++ line) s with ⟨result, t⟩
      cases result with
      | ok u =>
        apply processed_cons hrun
        rw [Run.bind_apply, catchInputError_ok hrun]
        exact ih (lineNumber + 1) t h
      | error e =>
        rcases catchInputError_error path (lineNumber + 1) hrun
          (hparse _ _ _ _ hrun) with ⟨what, hcatch⟩
        refine .inr ⟨[joined.getD [] ++ line], what, ?_, ?_⟩
        · exact List.prefix_cons_inj _ |>.mpr List.nil_prefix
        · rw [Run.bind_apply, hcatch, parseLines, Run.bind_apply, hrun]

end

def noteLine (line : Text) : CommandRun (List Text) Unit := fun lines => (.ok (), lines ++ [line])

theorem parseLines_noteLine (lines noted : List Text) :
    parseLines noteLine lines noted = (.ok (), noted ++ lines) := by
  induction lines generalizing noted with
  | nil => rw [List.append_nil]; rfl
  | cons line lines ih =>
    rw [parseLines, Run.bind_apply]
    simp only [noteLine, ih, List.append_assoc, List.singleton_append]

theorem logicalLines_some_ne_nil (joined : Text) (lines : List Text) :
    logicalLines (some joined) lines ≠ [] := by
  induction lines generalizing joined with
  | nil => exact List.cons_ne_nil _ _
  | cons line lines ih =>
    rw [logicalLines_cons]
    split
    · exact ih _
    · exact List.cons_ne_nil _ _

theorem logicalLines_cons_ne_nil (joined : Option Text) (line : Text) (lines : List Text) :
    logicalLines joined (line :: lines) ≠ [] := by
  rw [logicalLines_cons]
  split
  · exact logicalLines_some_ne_nil _ lines
  · exact List.cons_ne_nil _ _

theorem scanLines_not_complete (path : String) {joined : Option Text} {lines : List Text}
    (lineNumber : ℕ) (noted : List Text) (h : ¬ Complete joined lines) :
    ∃ parsed, scanLines noteLine path lineNumber (joined.getD []) lines noted =
        (.ok true, noted ++ parsed) ∧
      parsed.length < (logicalLines joined lines).length := by
  induction lines generalizing joined lineNumber noted with
  | nil =>
    cases joined with
    | none => exact absurd rfl h
    | some joined => exact ⟨[], by rw [List.append_nil]; rfl, Nat.one_pos⟩
  | cons line lines ih =>
    rw [Complete, not_and, not_or] at h
    rw [scanLines]
    split
    · refine ⟨[], by rw [List.append_nil]; rfl, ?_⟩
      exact List.length_pos_iff.mpr (logicalLines_cons_ne_nil joined line lines)
    rename_i hroom
    rcases h (Nat.lt_of_not_le hroom) with ⟨hfull, h⟩
    rw [if_neg hfull, logicalLines_cons]
    by_cases hesc : parseCountEscaped line % 2 = 1
    · rw [if_pos hesc] at h ⊢
      rw [if_pos hesc]
      exact ih (lineNumber + 1) noted h
    · rw [if_neg hesc] at h ⊢
      rw [if_neg hesc]
      rcases @ih none (lineNumber + 1) (noted ++ [joined.getD [] ++ line]) h with
        ⟨parsed, hrun, hlt⟩
      refine ⟨(joined.getD [] ++ line) :: parsed, ?_, Nat.succ_lt_succ hlt⟩
      have hnote : noteLine (joined.getD [] ++ line) noted =
        (.ok (), noted ++ [joined.getD [] ++ line]) := rfl
      rw [Run.bind_apply, catchInputError_ok hnote]
      simpa using hrun

def Processes (text : Text) : Prop :=
  ∀ (σ : Type) (parse : Text → CommandRun σ Unit) (path : String) (s : σ),
    ThrowsInputErrors parse →
    Processed parse (logicalLines none (physicalLines text)) s
      (parseCommandFile parse path (some text) s)

theorem parseCommandFile_eq_scanLines {σ : Type} (parse : Text → CommandRun σ Unit)
    (path : String) (text : Text) :
    parseCommandFile parse path (some text) = scanLines parse path 0 [] (physicalLines text) :=
  readLoop_eq_scanLines parse path 0 (Nat.lt_succ_self _) (Nat.succ_pos _)

theorem parseCommandFile_processes_iff (text : Text) :
    Processes text ↔ Complete none (physicalLines text) := by
  constructor
  · intro h
    by_contra hc
    have hnote : ThrowsInputErrors noteLine := nofun
    have hp := h (List Text) noteLine "" [] hnote
    rcases scanLines_not_complete "" 0 [] hc with ⟨parsed, hrun, hlt⟩
    rw [parseCommandFile_eq_scanLines] at hp
    rcases hp with ⟨t, ht, ho⟩ | ⟨_, _, _, ho⟩
    · rw [parseLines_noteLine] at ht
      cases ht
      have hsame : [] ++ parsed = [] ++ logicalLines none (physicalLines text) :=
        congrArg Prod.snd (hrun.symm.trans ho)
      rw [List.nil_append, List.nil_append] at hsame
      rw [hsame] at hlt
      exact Nat.lt_irrefl _ hlt
    · cases congrArg Prod.fst (hrun.symm.trans ho)
  · intro hc σ parse path s hparse
    rw [parseCommandFile_eq_scanLines]
    exact scanLines_processed hparse 0 s hc

theorem physicalLines_append {line : Text} (h : '\n' ∉ line) (text : Text) :
    physicalLines (line ++ '\n' :: text) = line :: physicalLines text := by
  induction line with
  | nil => rfl
  | cons c line ih =>
    rw [List.mem_cons, not_or] at h
    rw [List.cons_append, physicalLines, if_neg (Ne.symm h.1), ih h.2]

/-- A line that is too long ends the loop, as does a last line that is to be joined. The answer is
`true` all the same. -/
theorem lines_left_unparsed :
    let text := List.replicate 4096 '#' ++ '\n' :: "session.path.set=a\n".toList
    parseCommandFile noteLine "rtorrent.rc" (some text) [] = (.ok true, []) ∧
    logicalLines none (physicalLines text) =
      [List.replicate 4096 '#', "session.path.set=a".toList] ∧
    parseCommandFile noteLine "rtorrent.rc" (some "session.path.set=a\\".toList) [] =
      (.ok true, []) ∧
    logicalLines none (physicalLines "session.path.set=a\\".toList) =
      ["session.path.set=a".toList] := by
  have hline : '\n' ∉ List.replicate 4096 '#' := by
    intro h
    exact absurd (List.eq_of_mem_replicate h) (by decide)
  have hlen : bufferSize ≤ ([] ++ List.replicate 4096 '#').length := by
    rw [List.nil_append, List.length_replicate]
    exact Nat.le_refl bufferSize
  have hesc : parseCountEscaped (List.replicate 4096 '#') = 0 := by
    rw [parseCountEscaped, List.reverse_replicate]
    rfl
  refine ⟨?_, ?_, rfl, rfl⟩
  · rw [parseCommandFile_eq_scanLines, physicalLines_append hline, scanLines, if_pos hlen]
    rfl
  · rw [physicalLines_append hline, logicalLines_cons, hesc]
    rfl

end OptionFile
