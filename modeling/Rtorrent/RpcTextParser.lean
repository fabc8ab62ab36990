import Mathlib.Data.Int.Notation
import Mathlib.Data.List.Basic

/-! # Objects and the text parser

A text is the bytes between `first` and `last`, one character each, and is followed by a nul byte,
which is what `parse_object` reads at its end. -/
namespace RpcTextParser

abbrev Text := List Char

/-- The flags of `mask_function`, which quote a function object. -/
inductive FunctionFlag where
  | none
  | function
  | functionQ1
  | functionQ2
  deriving DecidableEq, Repr

inductive Object where
  | none
  | value (v : ℤ)
  | string (s : Text)
  | rawString (s : Text)
  | list (items : List Object)
  | map (entries : List (Text × Object))
  | dictKey (flag : FunctionFlag) (key : Text) (obj : Object)
  deriving Repr

def Object.isList : Object → Bool
  | .list _ => true
  | _ => false

/-- `untrusted_error` is an `input_error` and `input_error` is a `local_error`. -/
inductive ErrorKind where
  | internalError
  | localError
  | inputError
  | untrustedError
  | rpcError (type : ℤ)
  deriving DecidableEq, Repr

inductive Failure where
  | error (kind : ErrorKind) (what : String)
  | outOfFuel
  deriving DecidableEq, Repr

def inputError {α : Type} (what : String) : Except Failure α := .error (.error .inputError what)

def parseIsQuote (c : Char) : Bool := c == '"'
def parseIsEscape (c : Char) : Bool := c == '\\'
def parseIsSeperator (c : Char) : Bool := c == ','
def parseIsSpace (c : Char) : Bool := c == ' ' || c == '\t'

/-- `std::isspace` in the C locale. -/
def isSpace (c : Char) : Bool :=
  c == ' ' || c == '\t' || c == '\n' || c == '\x0b' || c == '\x0c' || c == '\r'

def parseIsDelimCommand (c : Char) : Bool := parseIsSeperator c || c == ';' || isSpace c
def parseIsDelimBlock (c : Char) : Bool := parseIsSeperator c || c == '}'
def parseIsDelimFunc (c : Char) : Bool := parseIsSeperator c || c == ')'

def parseSkipWspace (text : Text) : Text := text.dropWhile parseIsSpace

def push (c : Char) (r : Text × Text) : Text × Text := (c :: r.1, r.2)

/-- The loop of `parse_string` behind an opening quote. -/
def parseQuoted : Text → Except Failure (Text × Text)
  | [] => inputError "Missing closing quote."
  | c :: cs =>
    if parseIsQuote c then .ok ([], cs)
    else if parseIsEscape c then
      match cs with
      | [] => inputError "Escape character at end of input."
      | e :: cs => (parseQuoted cs).map (push e)
    else (parseQuoted cs).map (push c)

/-- The loop of `parse_string` without quotes. -/
def parseUnquoted (delim : Char → Bool) : Text → Except Failure (Text × Text)
  | [] => .ok ([], [])
  | c :: cs =>
    if delim c then .ok ([], c :: cs)
    else if parseIsEscape c then
      match cs with
      | [] => inputError "Escape character at end of input."
      | e :: cs => (parseUnquoted delim cs).map (push e)
    else (parseUnquoted delim cs).map (push c)

def parseString (delim : Char → Bool) : Text → Except Failure (Text × Text)
  | [] => .ok ([], [])
  | c :: cs => if parseIsQuote c then parseQuoted cs else parseUnquoted delim (c :: cs)

/-- The loop of `parse_list` around `parse_object`. Every turn but the last takes a
separator, so one turn more than there are characters is enough. -/
def parseItems (parseObject : Text → Except Failure (Object × Text)) :
    ℕ → Text → Except Failure (List Object × Text)
  | 0, _ => .error .outOfFuel
  | turns + 1, text => do
    let (item, text) ← parseObject (parseSkipWspace text)
    match parseSkipWspace text with
    | [] => .ok ([item], [])
    | c :: cs =>
      if parseIsSeperator c then
        let (items, text) ← parseItems parseObject turns cs
        .ok (item :: items, text)
      else .ok ([item], c :: cs)

def closeParentheses : ℕ → Text → Except Failure Text
  | 0, text => .ok text
  | n + 1, ')' :: text => closeParentheses n text
  | _ + 1, _ => inputError "Parentheses mismatch."

/-- `flag_function << (parentheses - 1)`. -/
def functionFlag : ℕ → Except Failure FunctionFlag
  | 1 => .ok .function
  | 2 => .ok .functionQ1
  | 3 => .ok .functionQ2
  | _ => inputError "Max 3 parentheses per object allowed."

/-- `parse_object` behind a `{`. -/
def parseBlock (parse : (Char → Bool) → Text → Except Failure (Object × Text)) (text : Text) :
    Except Failure (Object × Text) := do
  let (items, text) ← parseItems (parse parseIsDelimBlock) (text.length + 1) text
  match parseSkipWspace text with
  | '}' :: text => .ok (.list items, text)
  | _ => inputError "Could not find closing '\x7d'."

/-- `parse_object` behind a `(`. -/
def parseFunction (parse : (Char → Bool) → Text → Except Failure (Object × Text)) (text : Text) :
    Except Failure (Object × Text) := do
  let inner := text.dropWhile (· == '(')
  let parentheses := text.length - inner.length + 1
  let flag ← functionFlag parentheses
  let (key, text) ← parseString parseIsDelimFunc inner
  match parseSkipWspace text with
  | ',' :: text =>
    let (items, text) ← parseItems (parse parseIsDelimFunc) (text.length + 1) text
    let text ← closeParentheses parentheses (parseSkipWspace text)
    .ok (.dictKey flag key (.list items), text)
  | ')' :: text =>
    let text ← closeParentheses parentheses (')' :: text)
    .ok (.dictKey flag key .none, text)
  | _ => inputError "Could not find closing ')'."

/-- The first argument is how many levels are left below `max_parse_depth`. -/
def parseObject : ℕ → (Char → Bool) → Text → Except Failure (Object × Text)
  | 0, _, _ => inputError "Max parse depth reached."
  | depth + 1, delim, text =>
    match text with
    | '{' :: text => parseBlock (parseObject depth) text
    | '(' :: text => parseFunction (parseObject depth) text
    | text => (parseString delim text).map fun r => (.string r.1, r.2)

def maxParseDepth : ℕ := 1024

def parseList (delim : Char → Bool) (text : Text) : Except Failure (List Object × Text) :=
  parseItems (parseObject (maxParseDepth - 1) delim) (text.length + 1) text

def parseWholeList (delim : Char → Bool) (text : Text) : Except Failure (Object × Text) := do
  let (item, text) ← parseObject (maxParseDepth - 1) delim (parseSkipWspace text)
  match parseSkipWspace text with
  | [] => .ok (item, [])
  | c :: cs =>
    if parseIsSeperator c then
      let (items, text) ← parseList delim cs
      .ok (.list (item :: items), text)
    else .ok (item, c :: cs)

mutual

def Object.textLength : Object → ℕ
  | .string s => s.length
  | .list items => Object.textLengths items
  | .dictKey _ _ obj => obj.textLength
  | _ => 0

def Object.textLengths : List Object → ℕ
  | [] => 0
  | item :: items => item.textLength + Object.textLengths items

end

mutual

/-- A list or a map is one level above its items, and a function is where its arguments are. -/
def Object.depth : Object → ℕ
  | .list items => Object.depths items + 1
  | .map entries => Object.entryDepths entries + 1
  | .dictKey _ _ obj => obj.depth
  | _ => 0

def Object.depths : List Object → ℕ
  | [] => 0
  | item :: items => max item.depth (Object.depths items)

def Object.entryDepths : List (Text × Object) → ℕ
  | [] => 0
  | (_, obj) :: entries => max obj.depth (Object.entryDepths entries)

end

/-- The parser comes to an end, and what it returns measures at most `n`. -/
def Within {α : Type} (m : α → ℕ) (n : ℕ) : Except Failure α → Prop
  | .ok a => m a ≤ n
  | .error e => e ≠ .outOfFuel

theorem within_bind {α β : Type} {m : α → ℕ} {m' : β → ℕ} {n n' : ℕ} {x : Except Failure α}
    {f : α → Except Failure β} (hx : Within m n x) (hf : ∀ a, m a ≤ n → Within m' n' (f a)) :
    Within m' n' (x >>= f) := by
  cases x with
  | ok a => exact hf a hx
  | error e => exact hx

theorem within_map {α β : Type} {m : α → ℕ} {m' : β → ℕ} {n n' : ℕ} {x : Except Failure α}
    {f : α → β} (hx : Within m n x) (hf : ∀ a, m a ≤ n → m' (f a) ≤ n') :
    Within m' n' (x.map f) := by
  cases x with
  | ok a => exact hf a hx
  | error e => exact hx

theorem within_inputError {α : Type} (m : α → ℕ) (n : ℕ) (what : String) :
    Within m n (inputError what) := by
  simp [Within, inputError]

def stringMeasure (r : Text × Text) : ℕ := r.1.length + r.2.length
def objectMeasure (r : Object × Text) : ℕ := r.1.textLength + r.2.length
def itemsMeasure (r : List Object × Text) : ℕ := Object.textLengths r.1 + r.2.length

/-- A parser that ends does so with a result of this kind or with an `input_error`. -/
def Yields {α : Type} (P : α → Prop) : Except Failure α → Prop
  | .ok a => P a
  | .error (.error kind _) => kind = .inputError
  | .error .outOfFuel => False

section

variable {α β : Type} {P : α → Prop} {Q : β → Prop} {x : Except Failure α}

theorem Yields.bind {f : α → Except Failure β} (hx : Yields P x) (hf : ∀ a, P a → Yields Q (f a)) :
    Yields Q (x >>= f) := by
  cases x with
  | error e => cases e <;> exact hx
  | ok a => exact hf a hx

theorem Yields.map {f : α → β} (hx : Yields P x) (hf : ∀ a, P a → Q (f a)) :
    Yields Q (x.map f) := by
  cases x with
  | error e => cases e <;> exact hx
  | ok a => exact hf a hx

theorem Yields.mono {P' : α → Prop} (hx : Yields P x) (h : ∀ a, P a → P' a) : Yields P' x := by
  cases x with
  | error e => cases e <;> exact hx
  | ok a => exact h a hx

theorem Yields.within {m : α → ℕ} {n : ℕ} (hx : Yields (fun a => m a ≤ n) x) : Within m n x := by
  cases x with
  | ok a => exact hx
  | error e =>
    rintro rfl
    exact hx

theorem yields_inputError {what : String} : Yields P (inputError what) := rfl

end

variable (n : ℕ) (delim : Char → Bool) (text : Text)

theorem skipWspace_length : (parseSkipWspace text).length ≤ text.length :=
  (List.dropWhile_suffix _).length_le

theorem push_yields {c : Char} {n : ℕ} {x : Except Failure (Text × Text)}
    (hx : Yields (fun r => stringMeasure r ≤ n) x) :
    Yields (fun r => stringMeasure r ≤ n + 1) (x.map (push c)) := by
  refine hx.map fun r hr => ?_
  simp only [stringMeasure, push, List.length_cons] at *
  omega

theorem parseUnquoted_yields :
    Yields (fun r => stringMeasure r ≤ text.length) (parseUnquoted delim text) := by
  induction text using parseUnquoted.induct delim with
  | case1 => exact Nat.le_refl 0
  | case2 c cs hd =>
    unfold parseUnquoted
    rw [if_pos hd]
    simp [Yields, stringMeasure]
  | case3 c hd he =>
    rw [parseUnquoted]
    rw [if_neg hd, if_pos he]
    exact yields_inputError
  | case4 c hd he e cs ih =>
    rw [parseUnquoted]
    rw [if_neg hd, if_pos he]
    exact (push_yields ih).mono fun r hr => Nat.le_succ_of_le hr
  | case5 c cs hd he ih =>
    unfold parseUnquoted
    rw [if_neg hd, if_neg he]
    exact push_yields ih

/-- What is done behind the text of a quoted string. -/
def closeQuote (r : Text × Text) : Except Failure (Text × Text) :=
  match r.2 with
  | [] => inputError "Missing closing quote."
  | _ :: cs => .ok (r.1, cs)

theorem map_push_bind_closeQuote (c : Char) (x : Except Failure (Text × Text)) :
    (x.map (push c) >>= closeQuote) = (x >>= closeQuote).map (push c) := by
  rcases x with e | ⟨s, _ | ⟨d, cs⟩⟩
  · rfl
  · rfl
  · rfl

/-- A quoted string is one whose only delimiter is the quote, and the quote is taken. -/
theorem parseQuoted_eq : parseQuoted text = parseUnquoted parseIsQuote text >>= closeQuote := by
  induction text using parseQuoted.induct with
  | case1 => rfl
  | case2 c cs hq =>
    unfold parseQuoted parseUnquoted
    rw [if_pos hq, if_pos hq]
    rfl
  | case3 c hq he =>
    rw [parseQuoted, parseUnquoted]
    rw [if_neg hq, if_pos he, if_neg hq, if_pos he]
    rfl
  | case4 c hq he e cs ih =>
    rw [parseQuoted, parseUnquoted]
    rw [if_neg hq, if_pos he, if_neg hq, if_pos he, map_push_bind_closeQuote, ih]
  | case5 c cs hq he ih =>
    unfold parseQuoted parseUnquoted
    rw [if_neg hq, if_neg he, if_neg hq, if_neg he, map_push_bind_closeQuote, ih]

theorem parseQuoted_yields :
    Yields (fun r => stringMeasure r ≤ text.length) (parseQuoted text) := by
  rw [parseQuoted_eq]
  refine (parseUnquoted_yields parseIsQuote text).bind fun r hr => ?_
  rcases r with ⟨s, _ | ⟨c, cs⟩⟩
  · exact yields_inputError
  · exact Nat.le_of_succ_le hr

theorem parseString_yields :
    Yields (fun r => stringMeasure r ≤ text.length) (parseString delim text) := by
  cases text with
  | nil => exact Nat.le_refl 0
  | cons c cs =>
    simp only [parseString]
    split
    · exact (parseQuoted_yields cs).mono fun r hr => Nat.le_succ_of_le hr
    · exact parseUnquoted_yields delim (c :: cs)

/-- The strings of the object and the text that is left are together no longer than the given
text, and the object is less than `n` levels deep. -/
def Measured (n : ℕ) (text : Text) (r : Object × Text) : Prop :=
  objectMeasure r ≤ text.length ∧ r.1.depth < n

/-- A list parser ends if its turns exceed the text and its object parser takes nothing
back. -/
theorem parseItems_yields {n : ℕ} {parse : Text → Except Failure (Object × Text)}
    (hp : ∀ text, Yields (Measured n text) (parse text)) (turns : ℕ) :
    ∀ text : Text, text.length < turns →
      Yields (fun r => itemsMeasure r ≤ text.length ∧ Object.depths r.1 < n)
        (parseItems parse turns text) := by
  induction turns with
  | zero => exact fun text h => absurd h (Nat.not_lt_zero _)
  | succ turns ih =>
    intro text ht
    rw [parseItems]
    apply (hp _).bind
    rintro ⟨item, rest⟩ ⟨hr, hdepth⟩
    have hs := skipWspace_length text
    have hs' := skipWspace_length rest
    simp only [objectMeasure] at hr hdepth ⊢
    cases hc : parseSkipWspace rest with
    | nil =>
      simp only [Yields, itemsMeasure, Object.textLengths, Object.depths, List.length_nil]
      omega
    | cons c cs =>
      rw [hc] at hs'
      simp only [List.length_cons] at hs' ⊢
      split
      · apply (ih cs (by omega)).bind
        rintro ⟨items, rest'⟩ hi
        simp only [Yields, itemsMeasure, Object.textLengths, Object.depths] at hi ⊢
        omega
      · simp only [Yields, itemsMeasure, Object.textLengths, Object.depths, List.length_cons]
        omega

theorem closeParentheses_yields :
    Yields (fun rest => rest.length ≤ text.length) (closeParentheses n text) := by
  induction n, text using closeParentheses.induct with
  | case1 text => exact Nat.le_refl _
  | case2 n text ih => exact ih.mono fun rest h => Nat.le_succ_of_le h
  | case3 n text h =>
    rw [closeParentheses]
    · exact yields_inputError
    · exact h

theorem functionFlag_yields : Yields (fun _ => True) (functionFlag n) := by
  simp only [functionFlag]
  split
  · trivial
  · trivial
  · trivial
  · exact yields_inputError

section

variable {n : ℕ} {parse : (Char → Bool) → Text → Except Failure (Object × Text)}
  (hp : ∀ delim text, Yields (Measured n text) (parse delim text))
include hp

theorem parseBlock_yields : Yields (Measured (n + 1) text) (parseBlock parse text) := by
  rw [parseBlock]
  apply (parseItems_yields (hp _) _ text (Nat.lt_succ_self _)).bind
  rintro ⟨items, rest⟩ hi
  have hs := skipWspace_length rest
  dsimp only
  split
  · rename_i rest' hc
    rw [hc, List.length_cons] at hs
    simp only [Yields, Measured, objectMeasure, itemsMeasure, Object.textLength,
      Object.depth] at hi ⊢
    omega
  · exact yields_inputError

theorem parseFunction_yields : Yields (Measured (n + 1) text) (parseFunction parse text) := by
  have hd : (text.dropWhile (· == '(')).length ≤ text.length := (List.dropWhile_suffix _).length_le
  rw [parseFunction]
  apply (functionFlag_yields _).bind
  intro flag _
  apply (parseString_yields _ _).bind
  rintro ⟨key, rest⟩ hk
  have hs := skipWspace_length rest
  simp only [stringMeasure] at hk
  dsimp only
  split
  · rename_i rest' hc
    rw [hc, List.length_cons] at hs
    apply (parseItems_yields (hp _) _ rest' (Nat.lt_succ_self _)).bind
    rintro ⟨items, rest''⟩ hi
    dsimp only
    apply (closeParentheses_yields _ _).bind
    intro left hl
    have hs' := skipWspace_length rest''
    simp only [Yields, Measured, objectMeasure, itemsMeasure, Object.textLength,
      Object.depth] at hi ⊢
    omega
  · rename_i rest' hc
    rw [hc] at hs
    apply (closeParentheses_yields _ _).bind
    intro left hl
    simp only [Yields, Measured, objectMeasure, Object.textLength, Object.depth]
    omega
  · exact yields_inputError

end

/-- `parse_object` ends, and with `n` levels left its object is less than `n` levels deep. -/
theorem parseObject_yields : ∀ (delim : Char → Bool) (text : Text),
    Yields (Measured n text) (parseObject n delim text) := by
  induction n with
  | zero => exact fun _ _ => yields_inputError
  | succ n ih =>
    intro delim text
    simp only [parseObject]
    split
    · exact (parseBlock_yields _ ih).mono fun r hr => ⟨Nat.le_succ_of_le hr.1, hr.2⟩
    · exact (parseFunction_yields _ ih).mono fun r hr => ⟨Nat.le_succ_of_le hr.1, hr.2⟩
    · apply (parseString_yields delim text).map
      intro r hr
      exact ⟨hr, Nat.succ_pos n⟩

/-- The list around several objects is one level more. -/
theorem parseWholeList_yields :
    Yields (Measured maxParseDepth text) (parseWholeList delim text) := by
  rw [parseWholeList]
  apply (parseObject_yields _ _ _).bind
  rintro ⟨item, rest⟩ ⟨hr, hdepth⟩
  have hs := skipWspace_length text
  have hs' := skipWspace_length rest
  simp only [objectMeasure, maxParseDepth] at hr hdepth
  dsimp only
  cases hc : parseSkipWspace rest with
  | nil =>
    simp only [Yields, Measured, objectMeasure, List.length_nil, maxParseDepth]
    omega
  | cons c cs =>
    rw [hc] at hs'
    simp only [List.length_cons] at hs' ⊢
    split
    · apply (parseItems_yields (parseObject_yields _ _) _ cs (Nat.lt_succ_self _)).bind
      rintro ⟨items, rest'⟩ hi
      simp only [Yields, Measured, objectMeasure, itemsMeasure, Object.textLength,
        Object.textLengths, Object.depth, Object.depths, maxParseDepth] at hi ⊢
      omega
    · simp only [Yields, Measured, objectMeasure, List.length_cons, maxParseDepth]
      omega

theorem parseWholeList_within : Within objectMeasure text.length (parseWholeList delim text) :=
  ((parseWholeList_yields delim text).mono fun _ hr => hr.1).within

end RpcTextParser
