import Mathlib.Data.List.TakeWhile
import Rtorrent.FallibleRuns
import Rtorrent.RpcTextParser

/-! # Commands written as text

`call` is `CommandMap::call_command`: it takes the key, the arguments and the target, and
changes a state that the parser does not look at. -/
namespace RpcCommandParser

open FallibleRuns RpcTextParser

abbrev CommandRun (σ α : Type) := Run Failure σ α

abbrev CallCommand (σ τ : Type) := Text → Object → τ → CommandRun σ Object

def commandMapIsSpace (c : Char) : Bool := c == ' ' || c == '\t'
def commandMapIsNewline (c : Char) : Bool := c == '\n' || c == '\x00' || c == ';'

def skipCommandSpace (text : Text) : Text := text.dropWhile commandMapIsSpace

/-- A string that is handed on as `c_str()`. -/
def cString (s : Text) : Text := s.takeWhile (· != '\x00')

theorem cString_of_not_mem {src : Text} (h : '\x00' ∉ src) : cString src = src := by
  rw [cString, List.takeWhile_eq_self_iff]
  intro c hc
  simpa using fun he : c = '\x00' => h (he ▸ hc)

theorem nul_not_mem_cString (src : Text) : '\x00' ∉ cString src := by
  intro h
  simpa using List.mem_takeWhile_imp h

def isCommandChar (c : Char) : Bool := c.isAlphanum || c == '_' || c == '.'

/-- The name goes into a buffer of 128 bytes with its nul byte. -/
def parseCommandName (text : Text) : Except Failure (Text × Text) :=
  match text with
  | [] => inputError "Invalid start of command name."
  | c :: _ =>
    if c.isAlpha then
      let name := (text.take 127).takeWhile isCommandChar
      .ok (name, text.drop name.length)
    else inputError "Invalid start of command name."

/-- The name and the arguments of a command, and the text behind its separator. -/
def readCommand (text : Text) : Except Failure ((Text × Object) × Text) := do
  let (key, rest) ← parseCommandName text
  match skipCommandSpace rest with
  | '=' :: rest =>
    let (args, rest) ← parseWholeList parseIsDelimCommand rest
    match skipCommandSpace rest with
    | [] => .ok ((key, args), [])
    | c :: rest =>
      if commandMapIsNewline c then .ok ((key, args), rest)
      else inputError "Junk at end of input."
  | _ => inputError ("Could not find '=' in command '" ++ String.ofList key ++ "'.")

/-- The part of `parse_command` before any command is called. A blank text and a comment
have no command. -/
def splitCommand (text : Text) : Except Failure (Option (Text × Object) × Text) :=
  match skipCommandSpace text with
  | [] => .ok (none, [])
  | '#' :: rest => .ok (none, '#' :: rest)
  | text => (readCommand text).map fun r => (some r.1, r.2)

/-- The flags of `mask_function` shifted by one. -/
def unquote : FunctionFlag → FunctionFlag
  | .functionQ2 => .functionQ1
  | .functionQ1 => .function
  | _ => .none

variable {σ τ : Type}

mutual

/-- `expand` is `parse_command` on what follows a `$`. Lists in a list are left alone. -/
def parseCommandExecute (call : CallCommand σ τ) (expand : Text → CommandRun σ Object)
    (target : τ) : Object → CommandRun σ Object
  | .list items => do
    let items ← parseCommandExecuteItems call expand target items
    pure (.list items)
  | .dictKey flag key obj => do
    let obj ← parseCommandExecute call expand target obj
    if flag = .function then call (cString key) obj target
    else pure (.dictKey (unquote flag) key obj)
  | .string ('$' :: text) => expand text
  | obj => pure obj

def parseCommandExecuteItems (call : CallCommand σ τ) (expand : Text → CommandRun σ Object)
    (target : τ) : List Object → CommandRun σ (List Object)
  | [] => pure []
  | item :: items => do
    let item ← (if item.isList then pure item else parseCommandExecute call expand target item)
    let items ← parseCommandExecuteItems call expand target items
    pure (item :: items)

end

/-- `parse_command` where the calls for a `$` may nest only so deep. -/
def parseNested (call : CallCommand σ τ) : ℕ → τ → Text → CommandRun σ (Object × Text)
  | 0, _, _ => Run.fail .outOfFuel
  | depth + 1, target, text => do
    let (command, rest) ← Run.ofExcept (splitCommand text)
    match command with
    | none => pure (.none, rest)
    | some (key, args) =>
      let expand text := do
        let r ← parseNested call depth target text
        pure r.1
      let args ← parseCommandExecute call expand target args
      let result ← call key args target
      pure (result, rest)

/-- The text of a nested call is shorter than the text around it. -/
def parseCommand (call : CallCommand σ τ) (target : τ) (text : Text) :
    CommandRun σ (Object × Text) :=
  parseNested call (text.length + 1) target text

/-- The loop of `parse_command_multiple`, for a number of turns. -/
def commandLoop (call : CallCommand σ τ) (target : τ) : ℕ → Object → Text → CommandRun σ Object
  | 0, _, _ => Run.fail .outOfFuel
  | _ + 1, result, [] => pure result
  | turns + 1, _, c :: cs => do
    let r ← parseCommand call target (c :: cs)
    commandLoop call target turns r.1 r.2

def parseCommandMultiple (call : CallCommand σ τ) (turns : ℕ) (target : τ) (text : Text) :
    CommandRun σ Object :=
  commandLoop call target turns .none text

mutual

def callObject (call : CallCommand σ τ) (turns : ℕ) (target : τ) : Object → CommandRun σ Object
  | .rawString s => parseCommandMultiple call turns target s
  | .string s => parseCommandMultiple call turns target s
  | .list items => callItems call turns target items .none
  | .map entries => callEntries call turns target entries
  | .dictKey flag key obj => do
    let expand text := do
      let r ← parseCommand call target text
      pure r.1
    let command ← parseCommandExecute call expand target (.dictKey (unquote flag) key obj)
    match command with
    | .dictKey _ key obj => call (cString key) obj target
    | _ => Run.ofExcept (inputError "Wrong object type.")
  | _ => pure .none

def callItems (call : CallCommand σ τ) (turns : ℕ) (target : τ) :
    List Object → Object → CommandRun σ Object
  | [], result => pure result
  | item :: items, _ => do
    let result ← callObject call turns target item
    callItems call turns target items result

def callEntries (call : CallCommand σ τ) (turns : ℕ) (target : τ) :
    List (Text × Object) → CommandRun σ Object
  | [] => pure .none
  | (_, obj) :: entries => do
    let _ ← callObject call turns target obj
    callEntries call turns target entries

end

def splitMeasure (r : Option (Text × Object) × Text) : ℕ :=
  match r.1 with
  | none => r.2.length
  | some (_, args) => args.textLength + r.2.length + 2

theorem skipCommandSpace_length (text : Text) : (skipCommandSpace text).length ≤ text.length :=
  (List.dropWhile_suffix _).length_le

theorem parseCommandName_within (text : Text) :
    Within (fun r => r.2.length + 1) text.length (parseCommandName text) := by
  cases text with
  | nil => exact within_inputError _ _ _
  | cons c cs =>
    simp only [parseCommandName]
    split
    · rename_i hc
      have hn : isCommandChar c = true := by simp [isCommandChar, Char.isAlphanum, hc]
      simp only [Within, List.take_succ_cons, List.takeWhile_cons, hn, ↓reduceIte,
        List.length_cons, List.drop_succ_cons, List.length_drop]
      omega
    · exact within_inputError _ _ _

theorem readCommand_within (text : Text) :
    Within (fun r => r.1.2.textLength + r.2.length + 2) text.length (readCommand text) := by
  rw [readCommand]
  apply within_bind (parseCommandName_within text)
  rintro ⟨key, rest⟩ hk
  have hr := skipCommandSpace_length rest
  dsimp only at hk ⊢
  split
  · rename_i rest' he
    rw [he, List.length_cons] at hr
    apply within_bind (parseWholeList_within _ rest')
    rintro ⟨args, rest''⟩ ha
    have ht := skipCommandSpace_length rest''
    simp only [objectMeasure] at ha
    dsimp only
    split
    · simp only [Within, List.length_nil]
      omega
    · rename_i d ds hd
      rw [hd, List.length_cons] at ht
      split
      · simp only [Within]
        omega
      · exact within_inputError _ _ _
  · exact within_inputError _ _ _

theorem splitCommand_within (text : Text) :
    Within splitMeasure text.length (splitCommand text) := by
  have hs := skipCommandSpace_length text
  rw [splitCommand]
  split
  · exact Nat.zero_le _
  · rename_i rest hc
    rwa [hc] at hs
  · exact within_map (readCommand_within _) fun r hr => Nat.le_trans hr hs

section

variable {Q : ∀ {α : Type}, CommandRun σ α → Prop} {call : CallCommand σ τ}
  {expand : Text → CommandRun σ Object} {target : τ}

theorem execute_string_of_ne {c : Char} {cs : Text} (h : c ≠ '$') :
    parseCommandExecute call expand target (.string (c :: cs)) = pure (.string (c :: cs)) := by
  simp [parseCommandExecute, h]

-- in a mutual block the linter takes the hypotheses of the recursive calls for unused
set_option linter.unusedSectionVars false

section

variable (hQ : Compositional (· ≠ .outOfFuel) Q) (hc : ∀ key args, Q (call key args target))
include hQ hc

mutual

theorem parseCommandExecute_holds : ∀ (obj : Object),
      (∀ text : Text, text.length < obj.textLength → Q (expand text)) →
      Q (parseCommandExecute call expand target obj)
  | .list items, he => by
    rw [parseCommandExecute]
    rw [Object.textLength] at he
    exact hQ.bind (parseCommandExecuteItems_holds items he) fun _ => hQ.pure _
  | .dictKey flag key obj, he => by
    rw [parseCommandExecute]
    rw [Object.textLength] at he
    apply hQ.bind (parseCommandExecute_holds obj he)
    intro obj
    split
    · exact hc _ _
    · exact hQ.pure _
  | .string [], _ => hQ.pure _
  | .string (c :: cs), he => by
    by_cases hd : c = '$'
    · subst hd
      rw [parseCommandExecute]
      exact he cs (by simp [Object.textLength])
    · rw [execute_string_of_ne hd]
      exact hQ.pure _
  | .none, _ => hQ.pure _
  | .value _, _ => hQ.pure _
  | .rawString _, _ => hQ.pure _
  | .map _, _ => hQ.pure _

theorem parseCommandExecuteItems_holds : ∀ (items : List Object),
      (∀ text : Text, text.length < Object.textLengths items → Q (expand text)) →
      Q (parseCommandExecuteItems call expand target items)
  | [], _ => hQ.pure _
  | item :: items, he => by
    rw [Object.textLengths] at he
    have hi := parseCommandExecute_holds item fun text ht => he text (by omega)
    have his := parseCommandExecuteItems_holds items fun text ht => he text (by omega)
    rw [parseCommandExecuteItems]
    refine hQ.bind ?_ fun _ => hQ.bind his fun _ => hQ.pure _
    split
    · exact hQ.pure _
    · exact hi

end

theorem parseNested_holds (depth : ℕ) :
    ∀ text : Text, text.length < depth → Q (parseNested call depth target text) := by
  induction depth with
  | zero => exact fun _ h => absurd h (Nat.not_lt_zero _)
  | succ depth ih =>
    intro text ht
    have hs := splitCommand_within text
    rw [parseNested]
    cases hsplit : splitCommand text with
    | error e =>
      rw [hsplit] at hs
      rw [Run.ofExcept_error_bind]
      exact hQ.fail hs
    | ok r =>
      rcases r with ⟨command, rest⟩
      rw [hsplit] at hs
      rw [Run.ofExcept_ok_bind]
      cases command with
      | none => exact hQ.pure _
      | some command =>
        rcases command with ⟨key, args⟩
        simp only [Within, splitMeasure] at hs
        apply hQ.bind (parseCommandExecute_holds hQ hc args fun text' ht' => ?_) fun args => ?_
        · exact hQ.bind (ih text' (by omega)) fun _ => hQ.pure _
        · exact hQ.bind (hc key args) fun _ => hQ.pure _

/-- A property of computations that every called command has is one of `parse_command`. -/
theorem parseCommand_holds (text : Text) :
    Q (parseCommand call target text) :=
  parseNested_holds hQ hc _ text (Nat.lt_succ_self _)

end

section

variable (hQ : Compositional (fun _ => True) Q) (hc : ∀ key args, Q (call key args target))
include hQ hc

theorem commandLoop_holds (turns : ℕ) :
    ∀ result text, Q (commandLoop call target turns result text) := by
  induction turns with
  | zero => exact fun _ _ => hQ.fail trivial
  | succ turns ih =>
    intro result text
    cases text with
    | nil => exact hQ.pure _
    | cons c cs =>
      rw [commandLoop]
      exact hQ.bind (parseCommand_holds (hQ.mono fun _ _ => trivial) hc _) fun r => ih r.1 r.2

mutual

theorem callObject_holds (turns : ℕ) :
    ∀ obj : Object, Q (callObject call turns target obj)
  | .rawString s => by
    rw [callObject]
    exact commandLoop_holds hQ hc turns _ s
  | .string s => by
    rw [callObject]
    exact commandLoop_holds hQ hc turns _ s
  | .list items => by
    rw [callObject]
    exact callItems_holds turns items _
  | .map entries => by
    rw [callObject]
    exact callEntries_holds turns entries
  | .dictKey flag key obj => by
    have hQ' := hQ.mono (F := (· ≠ Failure.outOfFuel)) fun _ _ => trivial
    rw [callObject]
    refine hQ.bind (parseCommandExecute_holds hQ' hc _ fun text _ => ?_) fun command => ?_
    · exact hQ.bind (parseCommand_holds hQ' hc text) fun _ => hQ.pure _
    · split
      · exact hc _ _
      · exact hQ.ofExcept fun _ _ => trivial
  | .none => hQ.pure _
  | .value _ => hQ.pure _

theorem callItems_holds (turns : ℕ) :
    ∀ (items : List Object) (result : Object), Q (callItems call turns target items result)
  | [], _ => hQ.pure _
  | item :: items, _ => by
    rw [callItems]
    exact hQ.bind (callObject_holds turns item) fun r => callItems_holds turns items r

theorem callEntries_holds (turns : ℕ) :
    ∀ entries : List (Text × Object), Q (callEntries call turns target entries)
  | [] => hQ.pure _
  | (key, obj) :: entries => by
    rw [callEntries]
    exact hQ.bind (callObject_holds turns obj) fun _ => callEntries_holds turns entries

end

end

end

end RpcCommandParser
