import Rtorrent.MethodCommands
import Rtorrent.RpcCommandLoop
import Rtorrent.RpcTextTails

/-! # Command strings joined into one

`system_method_generate_command` puts ` ;` between the strings of a list. The joined text reads
as the commands of the strings, as long as no separator follows another one. -/
namespace GeneratedCommands

open FallibleRuns RpcTextParser RpcCommandParser RpcCommandLoop RpcTextTails MethodCommands

variable {σ τ : Type}

abbrev Command := Text × Object

def readArguments (text : Text) : Except Failure (Command × Text) := do
  let (key, rest) ← parseCommandName text
  match skipCommandSpace rest with
  | '=' :: rest =>
    let (args, rest) ← parseWholeList parseIsDelimCommand rest
    .ok ((key, args), skipCommandSpace rest)
  | _ => inputError ("Could not find '=' in command '" ++ String.ofList key ++ "'.")

def takeSeparator : Command × Text → Except Failure (Command × Text)
  | (command, []) => .ok (command, [])
  | (command, c :: rest) =>
    if commandMapIsNewline c then .ok (command, rest) else inputError "Junk at end of input."

/-- The last command of the text is ended by the end of the text and not by a separator. -/
inductive EndsInCommand : Text → Prop
  | last {text : Text} {command : Command}
      (h : readArguments (skipCommandSpace text) = .ok (command, [])) : EndsInCommand text
  | next {text rest : Text} {command : Command} {c : Char}
      (h : readArguments (skipCommandSpace text) = .ok (command, c :: rest))
      (hc : commandMapIsNewline c = true) (hr : EndsInCommand rest) : EndsInCommand text

variable {α β : Type}

theorem readCommand_eq (text : Text) : readCommand text = readArguments text >>= takeSeparator := by
  rw [readCommand, readArguments]
  cases parseCommandName text with
  | error e => rfl
  | ok r =>
    simp only [except_ok_bind]
    cases skipCommandSpace r.2 with
    | nil => rfl
    | cons c rest =>
      by_cases hc : c = '='
      · subst hc
        change (parseWholeList parseIsDelimCommand rest >>= _) =
          (parseWholeList parseIsDelimCommand rest >>= _) >>= takeSeparator
        cases parseWholeList parseIsDelimCommand rest with
        | error e => rfl
        | ok args =>
          simp only [except_ok_bind]
          cases skipCommandSpace args.2 with
          | nil => rfl
          | cons d ds => rfl
      · simp [hc]
        rfl

variable {text : Text} {command : Command} {left : Text}

theorem splitCommand_eq (h : readArguments (skipCommandSpace text) = .ok (command, left)) :
    splitCommand text = (takeSeparator (command, left)).map fun r => (some r.1, r.2) := by
  rw [splitCommand]
  split
  · rename_i hs
    rw [hs] at h
    cases h
  · rename_i rest hs
    rw [hs] at h
    cases h
  · rw [readCommand_eq, h]
    rfl

variable {rest : Text}

theorem splitCommand_arguments (h : splitCommand text = .ok (some command, rest)) :
    ∃ left, readArguments (skipCommandSpace text) = .ok (command, left) ∧
      (left = [] ∧ rest = [] ∨ ∃ c, commandMapIsNewline c = true ∧ left = c :: rest) := by
  rw [splitCommand] at h
  split at h
  · cases h
  · cases h
  · obtain ⟨r, hr, he⟩ := except_map_ok.mp h
    cases he
    rw [readCommand_eq] at hr
    obtain ⟨⟨command, left⟩, ha, ht⟩ := except_bind_ok.mp hr
    cases left with
    | nil =>
      cases ht
      exact ⟨[], ha, .inl ⟨rfl, rfl⟩⟩
    | cons c cs =>
      rw [takeSeparator] at ht
      split at ht
      · rename_i hc
        cases ht
        exact ⟨c :: cs, ha, .inr ⟨c, hc, rfl⟩⟩
      · cases ht

theorem skipCommandSpace_eq : skipCommandSpace = parseSkipWspace := rfl

theorem takeWhile_take_append {p : α → Bool} {c : α} (hc : p c = false) (cs : List α) :
    ∀ (n : ℕ) (l : List α),
      ((l ++ c :: cs).take n).takeWhile p = (l.take n).takeWhile p := by
  intro n l
  induction l generalizing n with
  | nil =>
    cases n with
    | zero => rfl
    | succ n => simp [hc]
  | cons a l ih =>
    cases n with
    | zero => rfl
    | succ n =>
      rw [List.cons_append, List.take_succ_cons, List.take_succ_cons, List.takeWhile_cons,
        List.takeWhile_cons, ih]

variable {t : Text}

theorem parseCommandName_append {key : Text} (ht : Tail t)
    (h : parseCommandName text = .ok (key, rest)) :
    parseCommandName (text ++ t) = .ok (key, rest ++ t) := by
  cases text with
  | nil => cases h
  | cons c cs =>
    simp only [parseCommandName] at h
    split at h
    · rename_i hc
      cases h
      obtain ⟨d, ds, rfl, hd⟩ := ht.head
      have hd : isCommandChar d = false := by
        rcases hd with rfl | rfl <;> rfl
      have hle : (((c :: cs).take 127).takeWhile isCommandChar).length ≤ (c :: cs).length :=
        le_trans (List.takeWhile_prefix _).length_le (List.take_prefix _ _).length_le
      simp only [List.cons_append, parseCommandName, if_pos hc]
      rw [← List.cons_append, takeWhile_take_append hd, List.drop_append_of_le_length hle]
    · cases h

theorem readArguments_append (ht : Tail t) (h : readArguments text = .ok (command, left)) :
    readArguments (text ++ t) = .ok (command, parseSkipWspace (left ++ t)) := by
  rw [readArguments] at h
  obtain ⟨⟨key, rest⟩, hk, h⟩ := except_bind_ok.mp h
  dsimp only at h
  split at h
  · rename_i behind he
    obtain ⟨⟨args, rest'⟩, ha, h⟩ := except_bind_ok.mp h
    cases h
    have he' : skipCommandSpace (rest ++ t) = '=' :: (behind ++ t) := skipWspace_append_cons he t
    rw [readArguments, parseCommandName_append ht hk, except_ok_bind]
    simp only [he', parseWholeList_append open_command ht ha, except_ok_bind]
    rw [skipCommandSpace_eq, skipWspace_idem, skip_skip_append]
  · cases h

inductive Leads : List Command → Text → Text → Prop
  | refl {text : Text} : Leads [] text text
  | next {text rest final : Text} {command : Command} {commands : List Command}
      (hs : splitCommand text = .ok (some command, rest)) (h : Leads commands rest final) :
      Leads (command :: commands) text final

variable {commands : List Command} {final : Text}

theorem Leads.trans {more : List Command} {mid : Text}
    (h : Leads commands text mid) (hm : Leads more mid final) :
    Leads (commands ++ more) text final := by
  induction h with
  | refl => exact hm
  | next hs _ ih => exact .next hs (ih hm)

def ReadsAs (commands : List Command) (text : Text) : Prop :=
  ∃ rest, Leads commands text rest ∧ skipCommandSpace rest = []

theorem leads_nil (h : Leads commands [] rest) : commands = [] := by
  cases h with
  | refl => rfl
  | next hs _ => cases hs

theorem readArguments_blank (h : skipCommandSpace text = []) (r : Command × Text) :
    readArguments (skipCommandSpace text) ≠ .ok r := by
  rw [h]
  intro hr
  cases hr

variable {c : Char}

theorem endsInCommand_iff (h : readArguments (skipCommandSpace text) = .ok (command, c :: rest))
    (hc : commandMapIsNewline c = true) : EndsInCommand text ↔ EndsInCommand rest := by
  constructor
  · intro he
    cases he with
    | last h' =>
      rw [h] at h'
      cases h'
    | next h' _ hr =>
      rw [h] at h'
      cases h'
      exact hr
  · exact .next h hc

theorem newline_not_space (h : commandMapIsNewline c = true) : parseIsSpace c = false := by
  simp only [commandMapIsNewline, Bool.or_eq_true, beq_iff_eq] at h
  obtain (rfl | rfl) | rfl := h <;> rfl

theorem separator_tail (u : Text) : Tail (' ' :: ';' :: u) := ⟨u, .inl rfl⟩

theorem leads_joined (u : Text) (h : Leads commands text rest) (hb : skipCommandSpace rest = []) :
    (EndsInCommand text ∧ Leads commands (text ++ ' ' :: ';' :: u) u) ∨
    (¬ EndsInCommand text ∧ ∃ b, skipCommandSpace b = ';' :: u ∧
      Leads commands (text ++ ' ' :: ';' :: u) b) := by
  induction h with
  | @refl text =>
    refine .inr ⟨?_, text ++ ' ' :: ';' :: u, skipWspace_blank _ hb, .refl⟩
    intro he
    cases he with
    | last h => exact readArguments_blank hb _ h
    | next h _ _ => exact readArguments_blank hb _ h
  | @next text left final command commands hs hl ih =>
    obtain ⟨behind, ha, hcase⟩ := splitCommand_arguments hs
    have hskip : skipCommandSpace (text ++ ' ' :: ';' :: u) =
        skipCommandSpace text ++ ' ' :: ';' :: u := by
      apply skipWspace_append
      intro he
      exact readArguments_blank he _ ha
    have ha' := readArguments_append (separator_tail u) ha
    rw [← hskip] at ha'
    rcases hcase with ⟨rfl, rfl⟩ | ⟨c, hc, rfl⟩
    · obtain rfl := leads_nil hl
      exact .inl ⟨.last ha, .next (splitCommand_eq ha') .refl⟩
    · rw [List.cons_append, skipWspace_cons (newline_not_space hc)] at ha'
      have hs' : splitCommand (text ++ ' ' :: ';' :: u) =
          .ok (some command, left ++ ' ' :: ';' :: u) := by
        rw [splitCommand_eq ha', takeSeparator, if_pos hc]
        rfl
      rw [endsInCommand_iff ha hc]
      rcases ih hb with ⟨he, hl'⟩ | ⟨he, b, hb', hl'⟩
      · exact .inl ⟨he, .next hs' hl'⟩
      · exact .inr ⟨he, b, hb', .next hs' hl'⟩

section

variable {call : CallCommand σ τ} {target : τ} {expand expand' : Text → CommandRun σ Object}

mutual

theorem execute_congr : ∀ obj : Object,
    (∀ text : Text, text.length < obj.textLength → expand text = expand' text) →
      parseCommandExecute call expand target obj = parseCommandExecute call expand' target obj
  | .list items, h => by
    rw [parseCommandExecute, parseCommandExecute, executeItems_congr items h]
  | .dictKey flag key obj, h => by
    rw [parseCommandExecute, parseCommandExecute, execute_congr obj h]
  | .string [], _ => rfl
  | .string (c :: cs), h => by
    by_cases hd : c = '$'
    · subst hd
      rw [parseCommandExecute, parseCommandExecute]
      exact h cs (by simp [Object.textLength])
    · rw [execute_string_of_ne hd, execute_string_of_ne hd]
  | .none, _ => rfl
  | .value _, _ => rfl
  | .rawString _, _ => rfl
  | .map _, _ => rfl

theorem executeItems_congr : ∀ items : List Object,
    (∀ text : Text, text.length < Object.textLengths items → expand text = expand' text) →
      parseCommandExecuteItems call expand target items =
        parseCommandExecuteItems call expand' target items
  | [], _ => rfl
  | item :: items, h => by
    rw [Object.textLengths] at h
    rw [parseCommandExecuteItems, parseCommandExecuteItems,
      execute_congr item fun text ht => h text (by omega),
      executeItems_congr items fun text ht => h text (by omega)]

end

theorem parseNested_depth (depth : ℕ) : ∀ {text : Text} {more : ℕ}, text.length < depth →
    depth ≤ more → parseNested call more target text = parseNested call depth target text := by
  induction depth with
  | zero => exact fun h => absurd h (Nat.not_lt_zero _)
  | succ depth ih =>
    intro text more ht hm
    obtain ⟨more, rfl⟩ : ∃ n, more = n + 1 := ⟨more - 1, by omega⟩
    rw [parseNested, parseNested]
    cases hs : splitCommand text with
    | error e => rfl
    | ok split =>
      rcases split with ⟨command, rest⟩
      cases command with
      | none => rfl
      | some command =>
        rcases command with ⟨key, args⟩
        have hw := splitCommand_within text
        simp only [hs, Within, splitMeasure] at hw
        rw [Run.ofExcept_ok_bind, Run.ofExcept_ok_bind]
        dsimp only
        rw [execute_congr args fun text' ht' => by rw [ih (by omega) (by omega)]]

end

def runCommand (call : CallCommand σ τ) (target : τ) (command : Command) :
    CommandRun σ Object := do
  let expand text := do
    let r ← parseCommand call target text
    pure r.1
  let args ← parseCommandExecute call expand target command.2
  call command.1 args target

def runAll (call : CallCommand σ τ) (target : τ) : List Command → CommandRun σ Unit
  | [] => pure ()
  | command :: commands => do
    let _ ← runCommand call target command
    runAll call target commands

theorem parseCommand_eq (call : CallCommand σ τ) (target : τ)
    (h : splitCommand text = .ok (some command, rest)) :
    parseCommand call target text =
      runCommand call target command >>= fun result => pure (result, rest) := by
  rcases command with ⟨key, args⟩
  have hw := splitCommand_within text
  simp only [h, Within, splitMeasure] at hw
  have he : parseCommandExecute call
        (fun text' => parseNested call text.length target text' >>= fun r => pure r.1) target args =
      parseCommandExecute call
        (fun text' => parseCommand call target text' >>= fun r => pure r.1) target args := by
    apply execute_congr
    intro text' ht'
    rw [parseCommand, parseNested_depth _ (Nat.lt_succ_self _) (by omega)]
  rw [parseCommand, parseNested, h, Run.ofExcept_ok_bind]
  dsimp only
  rw [he, runCommand, Run.bind_assoc]

theorem runAll_append (call : CallCommand σ τ) (target : τ) (commands more : List Command) :
    runAll call target (commands ++ more) =
      runAll call target commands >>= fun _ => runAll call target more := by
  induction commands with
  | nil => rfl
  | cons command commands ih =>
    rw [List.cons_append, runAll, runAll, ih, Run.bind_assoc]

variable {call : CallCommand σ τ} {target : τ}

theorem commandLoop_leads {next : CommandRun σ Unit} (h : Leads commands text final)
    (hn : ∀ turns result, final.length < turns →
      Run.effect (commandLoop call target turns result final) = next) :
    ∀ turns result, text.length < turns →
      Run.effect (commandLoop call target turns result text) =
        runAll call target commands >>= fun _ => next := by
  induction h with
  | refl => exact hn
  | @next text rest final command commands hs _ ih =>
    intro turns result ht
    have hw := splitCommand_within text
    simp only [hs, Within, splitMeasure] at hw
    cases turns with
    | zero => omega
    | succ turns =>
      cases text with
      | nil => cases hs
      | cons c cs =>
        have hr : ∀ o, Run.effect (commandLoop call target turns o rest) =
            runAll call target commands >>= fun _ => next :=
          fun o => ih hn turns o (by omega)
        rw [commandLoop, parseCommand_eq call target hs, Run.bind_assoc, Run.effect_bind, runAll,
          Run.bind_assoc]
        congr 1
        funext o
        exact hr o

theorem commandLoop_blank (call : CallCommand σ τ) (target : τ)
    (h : skipCommandSpace text = []) (turns : ℕ) (result : Object) (ht : text.length < turns) :
    Run.effect (commandLoop call target turns result text) = pure () := by
  have hs : splitCommand text = .ok (none, []) := by
    rw [splitCommand, h]
  cases text with
  | nil =>
    cases turns with
    | zero => exact absurd ht (Nat.not_lt_zero _)
    | succ turns => rfl
  | cons c cs =>
    obtain ⟨turns, rfl⟩ : ∃ n, turns = n + 2 :=
      ⟨turns - 2, by rw [List.length_cons] at ht; omega⟩
    rw [commandLoop, parseCommand, parseNested, hs]
    rfl

theorem commandLoop_reads (h : ReadsAs commands text) (turns : ℕ) (result : Object)
    (ht : text.length < turns) :
    Run.effect (commandLoop call target turns result text) = runAll call target commands := by
  obtain ⟨rest, hl, hb⟩ := h
  rw [commandLoop_leads hl (fun turns result => commandLoop_blank call target hb turns result)
    turns result ht]
  exact Run.effect_unit _

variable {read : Text → List Command} {turns : ℕ}

theorem callItems_reads (l : List Text) (hr : ∀ w ∈ l, ReadsAs (read w) w)
    (ht : ∀ w ∈ l, w.length < turns) (result : Object) :
    Run.effect (callItems call turns target (l.map .string) result) =
      runAll call target (l.flatMap read) := by
  induction l generalizing result with
  | nil =>
    rw [List.map_nil, callItems]
    rfl
  | cons w l ih =>
    have hw : Run.effect (callObject call turns target (.string w)) =
        runAll call target (read w) := by
      rw [callObject]
      exact commandLoop_reads (hr w List.mem_cons_self) turns .none (ht w List.mem_cons_self)
    have hl := ih (fun w hw => hr w (List.mem_cons_of_mem _ hw))
      fun w hw => ht w (List.mem_cons_of_mem _ hw)
    rw [List.map_cons, callItems, Run.effect_bind, List.flatMap_cons, runAll_append, ← hw,
      Run.effect_bind_const]
    congr 1
    funext o
    exact hl o

theorem commandLoop_separator (call : CallCommand σ τ) (target : τ) {u : Text}
    (h : skipCommandSpace text = ';' :: u) (turns : ℕ) (result : Object)
    (ht : text.length < turns) :
    Run.effect (commandLoop call target turns result text) =
      Run.fail (.error .inputError "Invalid start of command name.") := by
  have hs : splitCommand text = inputError "Invalid start of command name." := by
    rw [splitCommand, h]
    rfl
  cases text with
  | nil => cases h
  | cons c cs =>
    cases turns with
    | zero => exact absurd ht (Nat.not_lt_zero _)
    | succ turns =>
      rw [commandLoop, parseCommand, parseNested, hs]
      rfl

def Accepted (text : Text) : Prop :=
  ∃ (σ τ : Type) (call : CallCommand σ τ) (turns : ℕ) (target : τ) (s t : σ) (result : Object),
    callObject call turns target (.string text) s = (.ok result, t)

def Runs (commands : List Command) : Prop :=
  ∀ {σ τ : Type} (call : CallCommand σ τ) (target : τ),
    (∀ key args, Avoids (fun _ => True) (call key args target)) →
      Avoids (fun _ => True) (runAll call target commands)

variable {x : CommandRun σ α}

theorem avoids_of_bind {P : Failure → Prop}
    {f : α → CommandRun σ β} (h : Avoids P (x >>= f)) : Avoids P x := by
  intro s e he
  apply h s e
  rw [Run.bind_of_error (Prod.ext he rfl)]

theorem commandLoop_accepts (turns : ℕ) :
    ∀ {text : Text} {result o : Object} {s t : σ},
      commandLoop call target turns result text s = (.ok o, t) →
      ∃ commands, ReadsAs commands text ∧ Runs commands := by
  induction turns with
  | zero =>
    intro text result o s t h
    cases h
  | succ turns ih =>
    intro text result o s t h
    have hnil : Runs [] := fun call target _ => (avoids_compositional _).pure ()
    cases text with
    | nil => exact ⟨[], ⟨[], .refl, rfl⟩, hnil⟩
    | cons c cs =>
      have hcomment : ¬ AtComment (c :: cs) := by
        intro hc
        rw [commandLoop_comment call target s _ _ _ hc] at h
        cases h
      rw [commandLoop] at h
      obtain ⟨⟨o', rest⟩, u, hp, h⟩ := Run.bind_ok h
      obtain ⟨hr, command, hs⟩ := reads_of_parseNested _ hp
      cases command with
      | none =>
        have hb := ((splitCommand_none hs).resolve_right hcomment).1
        exact ⟨[], ⟨c :: cs, .refl, hb⟩, hnil⟩
      | some command =>
        obtain ⟨commands, ⟨b, hl, hb⟩, hruns⟩ := ih h
        refine ⟨command :: commands, ⟨b, .next hs hl, hb⟩, ?_⟩
        intro σ τ call target hc
        have hcommand : Avoids (fun _ => True) (parseCommand call target (c :: cs)) :=
          reads_holds ((avoids_compositional _).mono fun _ hf => hf.elim) hc _ hr
        rw [parseCommand_eq call target hs] at hcommand
        rw [runAll]
        exact (avoids_compositional _).bind (avoids_of_bind hcommand) fun _ => hruns call target hc

theorem Accepted.reads (h : Accepted text) : ∃ commands, ReadsAs commands text ∧ Runs commands := by
  obtain ⟨σ, τ, call, turns, target, s, t, result, h⟩ := h
  rw [callObject] at h
  exact commandLoop_accepts turns h

def joined : List Text → Text
  | [] => []
  | [w] => w
  | w :: v :: l => w ++ ' ' :: ';' :: joined (v :: l)

theorem joined_append (w v : Text) (l : List Text) :
    joined ((w ++ ' ' :: ';' :: v) :: l) = joined (w :: v :: l) := by
  cases l with
  | nil => rfl
  | cons x l =>
    rw [joined, joined, joined, List.append_assoc, List.cons_append, List.cons_append]

theorem generateFrom_joined {command : Text} (h : command ≠ []) (l : List Text) :
    generateFrom command (l.map .string) = .ok (joined (command :: l)) := by
  induction l generalizing command with
  | nil => rfl
  | cons w l ih =>
    have hne : command ++ ' ' :: ';' :: w ≠ [] := by simp
    rw [← joined_append, ← ih hne, List.map_cons, generateFrom]
    simp [h, CommandScheduler.asString, except_ok_bind]

theorem generateCommand_joined (l : List Text) :
    systemMethodGenerateCommand (l.map .string) = .ok (joined (l.dropWhile List.isEmpty)) := by
  rw [systemMethodGenerateCommand]
  induction l with
  | nil => rfl
  | cons w l ih =>
    cases w with
    | nil => exact ih
    | cons c cs => exact generateFrom_joined (List.cons_ne_nil c cs) l

variable {l : List Text}

theorem length_le_joined {w : Text} (h : w ∈ l) : w.length ≤ (joined l).length := by
  induction l using joined.induct with
  | case1 => cases h
  | case2 v =>
    rw [List.mem_singleton.mp h]
    exact Nat.le_refl _
  | case3 v x l ih =>
    rw [joined, List.length_append]
    rcases List.mem_cons.mp h with rfl | h
    · omega
    · have := ih h
      simp only [List.length_cons]
      omega

section

variable {read : Text → List Command}

theorem joined_reads (l : List Text) (hr : ∀ w ∈ l, ReadsAs (read w) w)
    (he : ∀ w ∈ l.dropLast, EndsInCommand w) : ReadsAs (l.flatMap read) (joined l) := by
  induction l using joined.induct with
  | case1 => exact ⟨[], .refl, rfl⟩
  | case2 w =>
    rw [List.flatMap_singleton]
    exact hr w List.mem_cons_self
  | case3 w v l ih =>
    obtain ⟨b, hl, hb⟩ := hr w List.mem_cons_self
    obtain ⟨b', hl', hb'⟩ := ih (fun x hx => hr x (List.mem_cons_of_mem _ hx))
      fun x hx => he x (List.mem_cons_of_mem _ hx)
    have hw : EndsInCommand w := he w List.mem_cons_self
    rcases leads_joined (joined (v :: l)) hl hb with ⟨-, hj⟩ | ⟨hn, -⟩
    · exact ⟨b', hj.trans hl', hb'⟩
    · exact absurd hw hn

theorem joined_stops (l : List Text) (hr : ∀ w ∈ l, ReadsAs (read w) w)
    (he : ¬ ∀ w ∈ l.dropLast, EndsInCommand w) :
    ∃ commands more b u, l.flatMap read = commands ++ more ∧ skipCommandSpace b = ';' :: u ∧
      Leads commands (joined l) b := by
  induction l using joined.induct with
  | case1 => exact absurd (fun w hw => by cases hw) he
  | case2 w => exact absurd (fun w hw => by cases hw) he
  | case3 w v l ih =>
    obtain ⟨b, hl, hb⟩ := hr w List.mem_cons_self
    rw [List.flatMap_cons]
    rcases leads_joined (joined (v :: l)) hl hb with ⟨hw, hj⟩ | ⟨-, b', hb', hj⟩
    · have he' : ¬ ∀ x ∈ (v :: l).dropLast, EndsInCommand x := by
        intro hall
        apply he
        intro x hx
        rcases List.mem_cons.mp hx with rfl | hx
        · exact hw
        · exact hall x hx
      obtain ⟨commands, more, b', u, hmore, hb', hl'⟩ :=
        ih (fun x hx => hr x (List.mem_cons_of_mem _ hx)) he'
      exact ⟨read w ++ commands, more, b', u, by rw [hmore, List.append_assoc], hb', hj.trans hl'⟩
    · exact ⟨read w, _, b', _, rfl, hb', hj⟩

theorem flatMap_dropWhile (l : List Text) (hr : ∀ w ∈ l, ReadsAs (read w) w) :
    (l.dropWhile List.isEmpty).flatMap read = l.flatMap read := by
  induction l with
  | nil => rfl
  | cons w l ih =>
    cases w with
    | cons c cs => rfl
    | nil =>
      obtain ⟨b, hl, -⟩ := hr [] List.mem_cons_self
      rw [List.flatMap_cons, leads_nil hl]
      exact ih fun w hw => hr w (List.mem_cons_of_mem _ hw)

end

def logged (call : CallCommand σ τ) : CallCommand (σ × List (Text × Object × τ)) τ :=
  fun key args target s =>
    let r := call key args target s.1
    (r.1, (r.2, s.2 ++ [(key, args, target)]))

def Throws {α : Type} (r : Except Failure α) : Prop :=
  ∃ kind what, r = .error (.error kind what)

/-- The text makes the same calls as the strings one after the other, and throws exactly if they
do. -/
def SameCalls (text : Text) (l : List Text) : Prop :=
  ∀ (σ τ : Type) (call : CallCommand σ τ) (turns : ℕ) (target : τ) (s : σ), text.length < turns →
    let one := callObject (logged call) turns target (.string text) (s, [])
    let each := callObject (logged call) turns target (.list (l.map .string)) (s, [])
    one.2.2 = each.2.2 ∧ (Throws one.1 ↔ Throws each.1)

theorem throws_map (f : α → β) (r : Except Failure α) : Throws (r.map f) ↔ Throws r := by
  cases r with
  | ok a => simp [Throws, Except.map]
  | error e => simp [Throws, Except.map]

theorem effect_throws (x : CommandRun σ α) (s : σ) :
    Throws (Run.effect x s).1 ↔ Throws (x s).1 := by
  rw [Run.effect_apply]
  exact throws_map _ _

theorem not_throws_of_avoids (h : Avoids (fun _ => True) x) (s : σ) : ¬ Throws (x s).1 := by
  rintro ⟨kind, what, he⟩
  exact h s _ he trivial

theorem throws_bind_fail {kind : ErrorKind} {what : String} (h : Avoids (fun _ => True) x) (s : σ) :
    Throws ((x >>= fun _ => (Run.fail (.error kind what) : CommandRun σ β)) s).1 := by
  cases hs : x s with
  | mk r t =>
    cases r with
    | error e => exact (h s e (by rw [hs]) trivial).elim
    | ok a =>
      rw [Run.bind_of_ok hs]
      exact ⟨kind, what, rfl⟩

theorem runs_flatMap (l : List Text) (h : ∀ w ∈ l, Runs (read w)) : Runs (l.flatMap read) := by
  intro σ τ call target hc
  induction l with
  | nil => exact (avoids_compositional _).pure ()
  | cons w l ih =>
    rw [List.flatMap_cons, runAll_append]
    exact (avoids_compositional _).bind (h w List.mem_cons_self call target hc) fun _ =>
      ih fun w hw => h w (List.mem_cons_of_mem _ hw)

theorem length_lt_of_joined
    (h : (joined (l.dropWhile List.isEmpty)).length < turns) : ∀ w ∈ l, w.length < turns := by
  intro w hw
  rw [← List.takeWhile_append_dropWhile (p := List.isEmpty) (l := l)] at hw
  rcases List.mem_append.mp hw with hw | hw
  · rw [List.isEmpty_iff.mp (List.mem_takeWhile_imp hw)]
    exact Nat.zero_lt_of_lt h
  · exact Nat.lt_of_le_of_lt (length_le_joined hw) h

section

variable {read : Text → List Command} {l : List Text}

theorem callObject_list_effect (call : CallCommand σ τ) (target : τ) {turns : ℕ}
    (hr : ∀ w ∈ l, ReadsAs (read w) w)
    (ht : (joined (l.dropWhile List.isEmpty)).length < turns) :
    Run.effect (callObject call turns target (.list (l.map .string))) =
      runAll call target (l.flatMap read) := by
  rw [callObject]
  exact callItems_reads l hr (length_lt_of_joined ht) .none

theorem sameCalls_joined (hr : ∀ w ∈ l, ReadsAs (read w) w)
    (he : ∀ w ∈ (l.dropWhile List.isEmpty).dropLast, EndsInCommand w) :
    SameCalls (joined (l.dropWhile List.isEmpty)) l := by
  intro σ τ call turns target s ht
  have hjoined : ReadsAs (l.flatMap read) (joined (l.dropWhile List.isEmpty)) := by
    rw [← flatMap_dropWhile l hr]
    exact joined_reads _ (fun w hw => hr w ((List.dropWhile_sublist _).mem hw)) he
  have hone : Run.effect (callObject (logged call) turns target
      (.string (joined (l.dropWhile List.isEmpty)))) =
        runAll (logged call) target (l.flatMap read) := by
    rw [callObject]
    exact commandLoop_reads hjoined turns .none ht
  have hsame := congrFun (hone.trans (callObject_list_effect (logged call) target hr ht).symm)
    (s, [])
  constructor
  · have hstate := congrArg Prod.snd hsame
    rw [Run.effect_apply, Run.effect_apply] at hstate
    exact congrArg Prod.snd hstate
  · rw [← effect_throws, hsame, effect_throws]

theorem not_sameCalls_joined (hr : ∀ w ∈ l, ReadsAs (read w) w) (hruns : ∀ w ∈ l, Runs (read w))
    (he : ¬ ∀ w ∈ (l.dropWhile List.isEmpty).dropLast, EndsInCommand w) :
    ¬ SameCalls (joined (l.dropWhile List.isEmpty)) l := by
  intro hsame
  obtain ⟨commands, more, b, u, hmore, hb, hleads⟩ :=
    joined_stops _ (fun w hw => hr w ((List.dropWhile_sublist _).mem hw)) he
  rw [flatMap_dropWhile l hr] at hmore
  have hlt := Nat.lt_succ_self (joined (l.dropWhile List.isEmpty)).length
  obtain ⟨-, hthrows⟩ := hsame Unit Unit idle _ () () hlt
  have hc : ∀ key args, Avoids (fun _ => True)
      (logged (idle : CallCommand Unit Unit) key args ()) :=
    fun key args s e h => by cases h
  have hall : Avoids (fun _ => True) (runAll (logged idle) () (l.flatMap read)) :=
    runs_flatMap l hruns (logged idle) () hc
  apply not_throws_of_avoids hall ((), [])
  rw [← callObject_list_effect (logged idle) () hr hlt, effect_throws, ← hthrows, ← effect_throws,
    callObject, parseCommandMultiple, commandLoop_leads hleads
      (fun turns result => commandLoop_separator (logged idle) () hb turns result) _ _ hlt]
  rw [hmore, runAll_append] at hall
  exact throws_bind_fail (avoids_of_bind hall) _

end

/-- For strings that are accepted one by one, the generated command makes the same calls exactly
if, behind the empty ones at the front, every string but the last ends in a command. -/
theorem generated_sameCalls_iff (l : List Text) (hl : ∀ w ∈ l, Accepted w) :
    (∃ text, systemMethodGenerateCommand (l.map .string) = .ok text ∧ SameCalls text l) ↔
      ∀ w ∈ (l.dropWhile List.isEmpty).dropLast, EndsInCommand w := by
  choose! read hread using fun w hw => (hl w hw).reads
  have hr : ∀ w ∈ l, ReadsAs (read w) w := fun w hw => (hread w hw).1
  rw [generateCommand_joined]
  constructor
  · rintro ⟨text, ht, hsame⟩
    cases ht
    by_contra he
    exact not_sameCalls_joined hr (fun w hw => (hread w hw).2) he hsame
  · intro he
    exact ⟨_, rfl, sameCalls_joined hr he⟩

/-- The strings are empty, `a=1` and `b=2;`. -/
theorem generated_sameCalls_pair :
    (∀ w ∈ [[], ['a', '=', '1'], ['b', '=', '2', ';']], Accepted w) ∧
    ∃ text, systemMethodGenerateCommand
        ([[], ['a', '=', '1'], ['b', '=', '2', ';']].map .string) = .ok text ∧
      SameCalls text [[], ['a', '=', '1'], ['b', '=', '2', ';']] := by
  have hl : ∀ w ∈ [[], ['a', '=', '1'], ['b', '=', '2', ';']], Accepted w := by
    intro w hw
    simp only [List.mem_cons, List.not_mem_nil, or_false] at hw
    rcases hw with rfl | rfl | rfl
    · exact ⟨Unit, Unit, idle, 1, (), (), (), .none, rfl⟩
    · exact ⟨Unit, Unit, idle, 2, (), (), (), .none, rfl⟩
    · exact ⟨Unit, Unit, idle, 2, (), (), (), .none, rfl⟩
  refine ⟨hl, (generated_sameCalls_iff _ hl).mpr ?_⟩
  intro w hw
  obtain rfl : w = ['a', '=', '1'] := List.mem_singleton.mp hw
  exact .last rfl

/-- An empty string is accepted, but between `a=1` and `b=2` it gives `a=1 ; ;b=2`, which throws.
-/
theorem empty_string_refused :
    (∀ w ∈ [['a', '=', '1'], [], ['b', '=', '2']], Accepted w) ∧
    systemMethodGenerateCommand ([['a', '=', '1'], [], ['b', '=', '2']].map .string) =
      .ok ['a', '=', '1', ' ', ';', ' ', ';', 'b', '=', '2'] ∧
    callObject (logged (idle : CallCommand Unit Unit)) 11 ()
        (.string ['a', '=', '1', ' ', ';', ' ', ';', 'b', '=', '2']) ((), []) =
      (.error (.error .inputError "Invalid start of command name."),
        ((), [(['a'], .string ['1'], ())])) ∧
    callObject (logged (idle : CallCommand Unit Unit)) 11 ()
        (.list ([['a', '=', '1'], [], ['b', '=', '2']].map .string)) ((), []) =
      (.ok .none, ((), [(['a'], .string ['1'], ()), (['b'], .string ['2'], ())])) ∧
    ¬ SameCalls ['a', '=', '1', ' ', ';', ' ', ';', 'b', '=', '2']
      [['a', '=', '1'], [], ['b', '=', '2']] := by
  refine ⟨?_, rfl, rfl, rfl, ?_⟩
  · intro w hw
    simp only [List.mem_cons, List.not_mem_nil, or_false] at hw
    rcases hw with rfl | rfl | rfl
    · exact ⟨Unit, Unit, idle, 2, (), (), (), .none, rfl⟩
    · exact ⟨Unit, Unit, idle, 1, (), (), (), .none, rfl⟩
    · exact ⟨Unit, Unit, idle, 2, (), (), (), .none, rfl⟩
  · intro h
    obtain ⟨hlog, -⟩ := h Unit Unit idle 11 () () (by decide)
    cases hlog

end GeneratedCommands
