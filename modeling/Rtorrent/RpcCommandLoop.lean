import Mathlib.Logic.Relation
import Rtorrent.RpcCommandParser

/-! # The loop over the commands of a text

`parse_command` returns at the `#` of a comment without moving behind it, and
`parse_command_multiple` calls it again from there. -/
namespace RpcCommandLoop

open FallibleRuns RpcTextParser RpcCommandParser

variable {σ τ : Type}

def AtComment (text : Text) : Prop := ∃ rest, skipCommandSpace text = '#' :: rest

mutual

/-- Every text behind a `$` that `parse_command_execute` meets can be read. -/
def readable (read : Text → Bool) : Object → Bool
  | .list items => readableItems read items
  | .dictKey _ _ obj => readable read obj
  | .string ('$' :: text) => read text
  | _ => true

def readableItems (read : Text → Bool) : List Object → Bool
  | [] => true
  | item :: items => (item.isList || readable read item) && readableItems read items

end

def reads : ℕ → Text → Bool
  | 0, _ => false
  | depth + 1, text =>
    match splitCommand text with
    | .ok (some (_, args), _) => readable (reads depth) args
    | .ok (none, _) => true
    | .error _ => false

/-- A command or a comment can be read at the start of the text. -/
def Reads (text : Text) : Prop := reads (text.length + 1) text = true

/-- Reading one command after the other leads to a comment. -/
inductive ReachesComment : Text → Prop
  | here {text : Text} (h : AtComment text) : ReachesComment text
  | next {text : Text} {command : Text × Object} {rest : Text} (hr : Reads text)
      (hs : splitCommand text = .ok (some command, rest)) (h : ReachesComment rest) :
      ReachesComment text

section

variable {call : CallCommand σ τ} {expand : Text → CommandRun σ Object} {target : τ}
  {read : Text → Bool}

mutual

theorem readable_of_execute (he : ∀ text s r t, expand text s = (.ok r, t) → read text = true) :
    ∀ (obj : Object) {s t : σ} {o : Object},
      parseCommandExecute call expand target obj s = (.ok o, t) → readable read obj = true
  | .list items, s, t, o, h => by
    rw [parseCommandExecute] at h
    obtain ⟨items', u, hi, -⟩ := Run.bind_ok h
    rw [readable]
    exact readableItems_of_execute he items hi
  | .dictKey flag key obj, s, t, o, h => by
    rw [parseCommandExecute] at h
    obtain ⟨obj', u, hi, -⟩ := Run.bind_ok h
    rw [readable]
    exact readable_of_execute he obj hi
  | .string [], s, t, o, h => rfl
  | .string (c :: cs), s, t, o, h => by
    by_cases hc : c = '$'
    · subst hc
      rw [parseCommandExecute] at h
      rw [readable]
      exact he cs s o t h
    · unfold readable
      split <;> simp_all
  | .none, _, _, _, _ => rfl
  | .value _, _, _, _, _ => rfl
  | .rawString _, _, _, _, _ => rfl
  | .map _, _, _, _, _ => rfl

theorem readableItems_of_execute
    (he : ∀ text s r t, expand text s = (.ok r, t) → read text = true) :
    ∀ (items : List Object) {s t : σ} {os : List Object},
      parseCommandExecuteItems call expand target items s = (.ok os, t) →
      readableItems read items = true
  | [], _, _, _, _ => rfl
  | item :: items, s, t, os, h => by
    rw [parseCommandExecuteItems] at h
    obtain ⟨item', u, hi, h⟩ := Run.bind_ok h
    obtain ⟨items', v, his, -⟩ := Run.bind_ok h
    rw [readableItems, readableItems_of_execute he items his]
    split at hi
    · rename_i hl
      simp [hl]
    · simp [readable_of_execute he item hi]

end

theorem reads_of_parseNested (depth : ℕ) :
    ∀ {text rest : Text} {s t : σ} {o : Object},
      parseNested call depth target text s = (.ok (o, rest), t) →
      reads depth text = true ∧ ∃ command, splitCommand text = .ok (command, rest) := by
  induction depth with
  | zero => exact fun h => by cases h
  | succ depth ih =>
    intro text rest s t o h
    rw [parseNested] at h
    rw [reads]
    cases hs : splitCommand text with
    | error e =>
      rw [hs, Run.ofExcept_error_bind] at h
      cases h
    | ok split =>
      rcases split with ⟨command, rest⟩
      rw [hs, Run.ofExcept_ok_bind] at h
      cases command with
      | none =>
        cases h
        exact ⟨rfl, none, rfl⟩
      | some command =>
        rcases command with ⟨key, args⟩
        obtain ⟨args', u, he, h⟩ := Run.bind_ok h
        obtain ⟨result, v, -, h⟩ := Run.bind_ok h
        cases h
        refine ⟨readable_of_execute (fun text s r t hx => ?_) args he, some (key, args), rfl⟩
        obtain ⟨⟨o', rest'⟩, u', hn, -⟩ := Run.bind_ok hx
        exact (ih hn).1

end

section

variable {Q : ∀ {α : Type}, CommandRun σ α → Prop} {call : CallCommand σ τ}
  {expand : Text → CommandRun σ Object} {target : τ} {read : Text → Bool}

mutual

theorem readable_holds (hQ : Compositional (fun _ => False) Q)
    (hc : ∀ key args, Q (call key args target)) (he : ∀ text, read text = true → Q (expand text)) :
    ∀ obj : Object, readable read obj = true → Q (parseCommandExecute call expand target obj)
  | .list items, h => by
    rw [readable] at h
    rw [parseCommandExecute]
    exact hQ.bind (readableItems_holds hQ hc he items h) fun _ => hQ.pure _
  | .dictKey flag key obj, h => by
    rw [readable] at h
    rw [parseCommandExecute]
    apply hQ.bind (readable_holds hQ hc he obj h)
    intro obj
    split
    · exact hc _ _
    · exact hQ.pure _
  | .string [], _ => hQ.pure _
  | .string (c :: cs), h => by
    by_cases hd : c = '$'
    · subst hd
      rw [parseCommandExecute]
      rw [readable] at h
      exact he cs h
    · rw [execute_string_of_ne hd]
      exact hQ.pure _
  | .none, _ => hQ.pure _
  | .value _, _ => hQ.pure _
  | .rawString _, _ => hQ.pure _
  | .map _, _ => hQ.pure _

theorem readableItems_holds (hQ : Compositional (fun _ => False) Q)
    (hc : ∀ key args, Q (call key args target)) (he : ∀ text, read text = true → Q (expand text)) :
    ∀ items : List Object, readableItems read items = true →
      Q (parseCommandExecuteItems call expand target items)
  | [], _ => hQ.pure _
  | item :: items, h => by
    rw [readableItems, Bool.and_eq_true, Bool.or_eq_true] at h
    have his := readableItems_holds hQ hc he items h.2
    rw [parseCommandExecuteItems]
    refine hQ.bind ?_ fun _ => hQ.bind his fun _ => hQ.pure _
    split
    · exact hQ.pure _
    · rename_i hl
      exact readable_holds hQ hc he item (h.1.resolve_left hl)

end

theorem reads_holds (hQ : Compositional (fun _ => False) Q)
    (hc : ∀ key args, Q (call key args target)) (depth : ℕ) :
    ∀ {text : Text}, reads depth text = true → Q (parseNested call depth target text) := by
  induction depth with
  | zero => exact fun h => by cases h
  | succ depth ih =>
    intro text hr
    rw [reads] at hr
    rw [parseNested]
    cases hs : splitCommand text with
    | error e =>
      rw [hs] at hr
      cases hr
    | ok split =>
      rcases split with ⟨command, rest⟩
      rw [hs] at hr
      rw [Run.ofExcept_ok_bind]
      cases command with
      | none => exact hQ.pure _
      | some command =>
        rcases command with ⟨key, args⟩
        apply hQ.bind (readable_holds hQ hc (fun text ht => ?_) args hr) fun args => ?_
        · exact hQ.bind (ih ht) fun _ => hQ.pure _
        · exact hQ.bind (hc key args) fun _ => hQ.pure _

end

def idle : CallCommand σ τ := fun _ _ _ => pure .none

def Idles {α : Type} (x : CommandRun σ α) : Prop := ∀ s, ∃ a, x s = (.ok a, s)

theorem idles_compositional : Compositional (fun _ => False) (@Idles σ) where
  pure a _ := ⟨a, rfl⟩
  fail he := he.elim
  bind hx hf s := by
    obtain ⟨a, ha⟩ := hx s
    rw [Run.bind_of_ok ha]
    exact hf a s

variable {text rest : Text}

theorem parseCommand_idle (target : τ) {command : Option (Text × Object)}
    (hr : Reads text) (hs : splitCommand text = .ok (command, rest)) (s : σ) :
    ∃ o, parseCommand idle target text s = (.ok (o, rest), s) := by
  have hc : ∀ key args, Idles ((idle : CallCommand σ τ) key args target) :=
    fun _ _ => idles_compositional.pure _
  have hi : Idles (parseCommand idle target text) := reads_holds idles_compositional hc _ hr
  obtain ⟨⟨o, rest'⟩, ho⟩ := hi s
  obtain ⟨-, command', hs'⟩ := reads_of_parseNested _ ho
  rw [hs] at hs'
  cases hs'
  exact ⟨o, ho⟩

/-- Every command that is called comes to an end. -/
def Terminating (call : CallCommand σ τ) : Prop :=
  ∀ key args target, Avoids (· = Failure.outOfFuel) (call key args target)

/-- One turn of the loop of `parse_command_multiple` that does not throw. -/
def Turn (call : CallCommand σ τ) (target : τ) (x y : σ × Text) : Prop :=
  x.2 ≠ [] ∧ ∃ o, parseCommand call target x.2 x.1 = (.ok (o, y.2), y.1)

theorem splitCommand_none (h : splitCommand text = .ok (none, rest)) :
    (skipCommandSpace text = [] ∧ rest = []) ∨ AtComment text := by
  rw [splitCommand] at h
  split at h
  · rename_i hs
    cases h
    exact .inl ⟨hs, rfl⟩
  · rename_i rest' hc
    exact .inr ⟨rest', hc⟩
  · cases hk : readCommand (skipCommandSpace text) with
    | error e => rw [hk] at h; cases h
    | ok r => rw [hk] at h; cases h

theorem splitCommand_comment (h : skipCommandSpace text = '#' :: rest) :
    splitCommand text = .ok (none, '#' :: rest) := by
  simp [splitCommand, h]

section

variable {call : CallCommand σ τ} {target : τ} {text rest : Text} {s t : σ} {o : Object}

theorem parseCommand_moves (ha : ¬ AtComment text)
    (hn : text ≠ []) (h : parseCommand call target text s = (.ok (o, rest), t)) :
    rest.length < text.length := by
  obtain ⟨-, command, hs⟩ := reads_of_parseNested _ h
  cases command with
  | none =>
    rw [((splitCommand_none hs).resolve_right ha).2]
    exact List.length_pos_iff.mpr hn
  | some command =>
    have hw := splitCommand_within text
    rw [hs] at hw
    simp only [Within, splitMeasure] at hw
    omega

theorem not_reaches_nil : ¬ ReachesComment [] := by
  intro h
  cases h with
  | here h =>
    rcases h with ⟨rest, h⟩
    cases h
  | next hr hs => cases hs

theorem not_reaches_rest (ha : ¬ ReachesComment text)
    (h : parseCommand call target text s = (.ok (o, rest), t)) : ¬ ReachesComment rest := by
  obtain ⟨hr, command, hs⟩ := reads_of_parseNested _ h
  cases command with
  | none =>
    rw [((splitCommand_none hs).resolve_right fun hc => ha (.here hc)).2]
    exact not_reaches_nil
  | some command => exact fun hc => ha (.next hr hs hc)

theorem commandLoop_avoids (hc : Terminating call) (target : τ) (turns : ℕ) :
    ∀ (text : Text) (result : Object), ¬ ReachesComment text → text.length < turns →
      Avoids (· = Failure.outOfFuel) (commandLoop call target turns result text) := by
  induction turns with
  | zero => exact fun _ _ _ h => absurd h (Nat.not_lt_zero _)
  | succ turns ih =>
    intro text result ha ht
    cases text with
    | nil => exact (avoids_compositional _).pure _
    | cons c cs =>
      intro s e he
      rw [commandLoop, Run.bind_apply] at he
      have hp : Avoids (· = Failure.outOfFuel) (parseCommand call target (c :: cs)) :=
        parseCommand_holds (avoids_compositional _) (fun key args => hc key args target) _
      cases hr : parseCommand call target (c :: cs) s with
      | mk r t =>
        rw [hr] at he
        cases r with
        | error e' =>
          cases he
          exact hp s e (by rw [hr])
        | ok r =>
          rcases r with ⟨o, rest⟩
          have hm := parseCommand_moves (fun hc => ha (.here hc)) (by simp) hr
          exact ih rest o (not_reaches_rest ha hr) (by omega) t e he

end

variable {call : CallCommand σ τ} {target : τ}

theorem commandLoop_turn {s t : σ}
    {o : Object} (hn : text ≠ []) (h : parseCommand call target text s = (.ok (o, rest), t))
    (turns : ℕ) (result : Object) :
    commandLoop call target (turns + 1) result text s = commandLoop call target turns o rest t := by
  cases text with
  | nil => exact absurd rfl hn
  | cons c cs => rw [commandLoop, Run.bind_apply, h]

theorem parseCommand_comment (call : CallCommand σ τ) (target : τ)
    (h : skipCommandSpace text = '#' :: rest) (s : σ) :
    parseCommand call target text s = (.ok (.none, '#' :: rest), s) := by
  rw [parseCommand, parseNested, splitCommand_comment h]
  rfl

theorem commandLoop_comment (call : CallCommand σ τ) (target : τ) (s : σ) (turns : ℕ) :
    ∀ (text : Text) (result : Object), AtComment text →
      commandLoop call target turns result text s = (.error .outOfFuel, s) := by
  induction turns with
  | zero => exact fun _ _ _ => rfl
  | succ turns ih =>
    intro text result h
    obtain ⟨rest, hc⟩ := h
    have hn : text ≠ [] := by rintro rfl; cases hc
    rw [commandLoop_turn hn (parseCommand_comment call target hc s)]
    exact ih _ .none ⟨rest, rfl⟩

/-- With commands that do nothing the loop never ends once it reaches a comment. -/
theorem commandLoop_reaches (target : τ) (s : σ) (h : ReachesComment text) :
    ∀ (turns : ℕ) (result : Object),
      commandLoop idle target turns result text s = (.error .outOfFuel, s) := by
  induction h with
  | here h => exact fun turns result => commandLoop_comment idle target s turns _ result h
  | @next text command rest hr hs h ih =>
    intro turns result
    cases turns with
    | zero => rfl
    | succ turns =>
      have hn : text ≠ [] := by rintro rfl; cases hs
      obtain ⟨o, ho⟩ := parseCommand_idle target hr hs s
      rw [commandLoop_turn hn ho]
      exact ih turns o

theorem idle_terminating : Terminating (idle : CallCommand σ τ) :=
  fun _ _ _ => (avoids_compositional _).pure _

theorem turns_not_reaches {x y : σ × Text}
    (h : Relation.ReflTransGen (Turn call target) x y) (hx : ¬ ReachesComment x.2) :
    ¬ ReachesComment y.2 := by
  induction h with
  | refl => exact hx
  | tail _ ht ih =>
    rcases ht with ⟨-, o, ho⟩
    exact not_reaches_rest ih ho

/-- The loop ends for all commands that end, and each of its turns throws or moves forward,
exactly if reading the text does not lead to a comment. -/
theorem loop_progress_iff (text : Text) :
    (∀ (σ τ : Type) (call : CallCommand σ τ), Terminating call → ∀ (target : τ) (s : σ),
      (∃ turns, (parseCommandMultiple call turns target text s).1 ≠ .error .outOfFuel ∧
        (callObject call turns target (.string text) s).1 ≠ .error .outOfFuel) ∧
      ∀ x y, Relation.ReflTransGen (Turn call target) (s, text) x → Turn call target x y →
        y.2.length < x.2.length) ↔
    ¬ ReachesComment text := by
  constructor
  · intro h hr
    obtain ⟨⟨turns, ht, -⟩, -⟩ := h Unit Unit idle idle_terminating () ()
    rw [parseCommandMultiple, commandLoop_reaches () () hr] at ht
    exact ht rfl
  · intro hr σ τ call hc target s
    constructor
    · refine ⟨text.length + 1, ?_⟩
      have hl := commandLoop_avoids hc target (text.length + 1) text .none hr (Nat.lt_succ_self _)
      have he : (parseCommandMultiple call (text.length + 1) target text s).1 ≠ .error .outOfFuel :=
        fun he => hl s _ he rfl
      refine ⟨he, ?_⟩
      rwa [callObject]
    · intro x y hx hy
      rcases hy with ⟨hn, o, ho⟩
      exact parseCommand_moves (fun ha => turns_not_reaches hx hr (.here ha)) hn ho

/-- On the text `#` the loop takes turns for ever and does not move. -/
theorem comment_never_ends :
    Terminating (idle : CallCommand Unit Unit) ∧
    (∀ turns, (parseCommandMultiple (idle : CallCommand Unit Unit) turns () ['#'] ()).1 =
      .error .outOfFuel) ∧
    Turn (idle : CallCommand Unit Unit) () ((), ['#']) ((), ['#']) := by
  refine ⟨idle_terminating, ?_, by decide, .none, rfl⟩
  intro turns
  exact congrArg Prod.fst (commandLoop_comment idle () () turns ['#'] .none ⟨[], rfl⟩)

end RpcCommandLoop
