import Rtorrent.Occurrences
import Rtorrent.RpcValueParser
import Rtorrent.Segments

/-! # The string commands

A character is a byte with the continuation bytes behind it, and the commands that count characters
work on a table of their offsets. -/
namespace StringCommands

open RpcTextParser RpcValueParser Occurrences Segments

def isContinuation (c : Char) : Bool := c.toNat &&& 0xC0 == 0x80

/-- The loop of `utf8_offsets` from byte `i` on. -/
def utf8OffsetsLoop : ℕ → Text → List ℕ
  | i, [] => [i]
  | i, c :: text =>
    if i = 0 ∨ ¬isContinuation c then i :: utf8OffsetsLoop (i + 1) text
    else utf8OffsetsLoop (i + 1) text

def utf8Offsets (text : Text) : List ℕ := utf8OffsetsLoop 0 text

def utf8LengthLoop : ℕ → ℕ → Text → ℕ
  | _, result, [] => result
  | i, result, c :: text =>
    utf8LengthLoop (i + 1) (if i = 0 ∨ ¬isContinuation c then result + 1 else result) text

def utf8Length (text : Text) : ℕ := utf8LengthLoop 0 0 text

def utf8Substr (text : Text) (offsets : List ℕ) (first last : ℕ) : Text :=
  (text.drop (offsets.getD first 0)).take (offsets.getD last 0 - offsets.getD first 0)

/-- A set; only its members matter. -/
def utf8CharacterSet (text : Text) : List Text :=
  (List.range ((utf8Offsets text).length - 1)).map fun i =>
    utf8Substr text (utf8Offsets text) i (i + 1)

/-- A `max_count` of zero is no limit. -/
def verifyArgumentCount (name : String) (args : List Object) (minCount maxCount : ℕ) :
    Except Failure Unit :=
  if args.length < minCount ∨ maxCount ≠ 0 ∧ maxCount < args.length then
    inputError (name ++ ": invalid number of arguments.")
  else .ok ()

def argumentAt (args : List Object) (index : ℕ) : Object := args.getD index .none

mutual

def flattenArgument : Object → Except Failure (List Text)
  | .list items => flattenArguments items
  | arg => do
    let text ← convertToString arg
    .ok [text]

def flattenArguments : List Object → Except Failure (List Text)
  | [] => .ok []
  | arg :: args => do
    let parts ← flattenArgument arg
    let rest ← flattenArguments args
    .ok (parts ++ rest)

end

def argumentToPair (name : String) : Object → Except Failure (Text × Text)
  | .list [first, second] => do
    let old ← convertToString first
    let new ← convertToString second
    .ok (old, new)
  | _ => inputError (name ++ ": arguments after the text must be \x7bold, new\x7d pairs.")

def applyStringLength (args : List Object) : Except Failure Object := do
  verifyArgumentCount "string.length" args 1 1
  let text ← convertToString (argumentAt args 0)
  .ok (.value (utf8Length text))

/-- Negative positions are relative to the end. -/
def substrPosition (textLength position : ℤ) : ℤ :=
  if position < 0 then position + textLength else position

def substrLast (textLength position count : ℤ) : ℤ :=
  min textLength (position + min count textLength)

def applyStringSubstr (args : List Object) : Except Failure Object := do
  verifyArgumentCount "string.substr" args 1 4
  let text ← convertToString (argumentAt args 0)
  let offsets := utf8Offsets text
  let textLength : ℤ := (offsets.length - 1 : ℕ)
  let position ← if 1 < args.length then convertToValue (argumentAt args 1) else .ok 0
  let fallback ← if 3 < args.length then convertToString (argumentAt args 3) else .ok []
  let position := substrPosition textLength position
  if position < 0 ∨ textLength < position then .ok (.string fallback)
  else if 2 < args.length then do
    let count ← convertToValue (argumentAt args 2)
    if count < 0 then inputError "string.substr: the character count cannot be negative."
    else
      let last := substrLast textLength position count
      .ok (.string (utf8Substr text offsets position.toNat last.toNat))
  else .ok (.string (utf8Substr text offsets position.toNat textLength.toNat))

def maxStringPadSize : ℤ := 2 ^ 14

/-- The loop that repeats the padding. -/
def padCharacters (padding : Text) (count : ℕ) : Text :=
  let offsets := utf8Offsets padding
  (List.range count).foldl (fun result i =>
    let index := i % (offsets.length - 1)
    result ++ utf8Substr padding offsets index (index + 1)) []

def applyStringPad (name : String) (padStart : Bool) (args : List Object) :
    Except Failure Object := do
  verifyArgumentCount name args 2 3
  let text ← convertToString (argumentAt args 0)
  let padSize ← convertToValue (argumentAt args 1)
  let padding ← if 2 < args.length then convertToString (argumentAt args 2) else .ok [' ']
  let textLength : ℤ := utf8Length text
  if padSize ≤ textLength ∨ padding = [] then .ok (.string text)
  else if maxStringPadSize < padSize - textLength then
    inputError (name ++ ": padding is too large.")
  else
    let result := padCharacters padding (padSize - textLength).toNat
    .ok (.string (if padStart then result ++ text else text ++ result))

def stringLpad : List Object → Except Failure Object := applyStringPad "string.lpad" true
def stringRpad : List Object → Except Failure Object := applyStringPad "string.rpad" false

def whitespaceCharacters : Text := [' ', '\t', '\n', '\r', '\x0c', '\x0b']

/-- The loop at the start; `left` is the distance between `first` and `last`. -/
def stripStartLoop (strips : ℕ → Bool) : ℕ → ℕ → ℕ
  | 0, first => first
  | left + 1, first => if strips first then stripStartLoop strips left (first + 1) else first

def stripEndLoop (strips : ℕ → Bool) : ℕ → ℕ → ℕ
  | 0, last => last
  | left + 1, last => if strips (last - 1) then stripEndLoop strips left (last - 1) else last

def convertAll : List Object → Except Failure Text
  | [] => .ok []
  | arg :: args => do
    let text ← convertToString arg
    let rest ← convertAll args
    .ok (text ++ rest)

/-- The text between the two positions that the loops reach. -/
def stripText (stripStart stripEnd : Bool) (strippable text : Text) : Text :=
  let characters := utf8CharacterSet strippable
  let offsets := utf8Offsets text
  let strips := fun i => characters.contains (utf8Substr text offsets i (i + 1))
  let last := offsets.length - 1
  let first := if stripStart then stripStartLoop strips last 0 else 0
  let last := if stripEnd then stripEndLoop strips (last - first) last else last
  utf8Substr text offsets first last

def applyStringStrip (name : String) (stripStart stripEnd : Bool) (args : List Object) :
    Except Failure Object := do
  verifyArgumentCount name args 1 0
  let text ← convertToString (argumentAt args 0)
  let strippable ← convertAll args.tail
  let strippable := if args.length = 1 then whitespaceCharacters else strippable
  .ok (.string (stripText stripStart stripEnd strippable text))

def stringStrip : List Object → Except Failure Object := applyStringStrip "string.strip" true true
def stringLstrip : List Object → Except Failure Object :=
  applyStringStrip "string.lstrip" true false
def stringRstrip : List Object → Except Failure Object :=
  applyStringStrip "string.rstrip" false true

/-- The loop of `apply_string_split`, which has no bound of its own. -/
def splitLoop (text delim : Text) : ℕ → ℕ → List Text → Except Failure (List Text)
  | 0, _, _ => .error .outOfFuel
  | turns + 1, first, result =>
    match findFrom delim text first with
    | none => .ok (result ++ [text.drop first])
    | some pos =>
      splitLoop text delim turns (pos + delim.length)
        (result ++ [(text.drop first).take (pos - first)])

def applyStringSplit (args : List Object) : Except Failure Object := do
  verifyArgumentCount "string.split" args 2 2
  let text ← convertToString (argumentAt args 0)
  let delim ← convertToString (argumentAt args 1)
  if delim = [] then
    let offsets := utf8Offsets text
    .ok (.list ((List.range (offsets.length - 1)).map fun i =>
      .string (utf8Substr text offsets i (i + 1))))
  else do
    let parts ← splitLoop text delim (text.length + 1) 0 []
    .ok (.list (parts.map .string))

def joinLoop (delim : Text) : Bool → Text → List Text → Text
  | _, result, [] => result
  | begin, result, part :: parts =>
    joinLoop delim false ((if begin then result else result ++ delim) ++ part) parts

def applyStringJoin (args : List Object) : Except Failure Object := do
  verifyArgumentCount "string.join" args 1 0
  let delim ← convertToString (argumentAt args 0)
  let parts ← flattenArguments args.tail
  .ok (.string (joinLoop delim true [] parts))

/-- The loop of one pair, from the position that the last search returned. -/
def replaceLoop (old new : Text) : ℕ → Text → Option ℕ → Except Failure Text
  | _, text, none => .ok text
  | 0, _, some _ => .error .outOfFuel
  | turns + 1, text, some pos =>
    let text := text.take pos ++ (new ++ text.drop (pos + old.length))
    replaceLoop old new turns text (findFrom old text (pos + new.length))

def replacePairs : Text → List Object → Except Failure Text
  | text, [] => .ok text
  | text, arg :: args => do
    let (old, new) ← argumentToPair "string.replace" arg
    if old = [] then inputError "string.replace: the replaced text cannot be empty."
    else do
      let text ← replaceLoop old new text.length text (findFrom old text 0)
      replacePairs text args

def applyStringReplace (args : List Object) : Except Failure Object := do
  verifyArgumentCount "string.replace" args 2 0
  let text ← convertToString (argumentAt args 0)
  let text ← replacePairs text args.tail
  .ok (.string text)

def characters (text : Text) : List Text := segments isContinuation text

theorem utf8OffsetsLoop_succ (i : ℕ) (c : Char) (text : Text) :
    i :: utf8OffsetsLoop (i + 1) text = boundaries i (characters (c :: text)) := by
  induction text generalizing i c with
  | nil => rfl
  | cons d text ih =>
    obtain ⟨s, ss, hss⟩ := @segments_cons_ne_nil Char isContinuation d text
    have hih : (i + 1) :: utf8OffsetsLoop (i + 1 + 1) text = boundaries (i + 1) ((d :: s) :: ss) :=
      (ih (i + 1) d).trans (congrArg _ hss)
    have hrest := (List.cons.inj hih).2
    cases hd : isContinuation d
    · simpa [utf8OffsetsLoop, characters, segments_cons c, hd, hss, boundaries] using hrest
    · have hlen : i + 1 + (d :: s).length = i + (c :: d :: s).length := by
        simp only [List.length_cons]
        omega
      rw [hlen] at hrest
      simpa [utf8OffsetsLoop, characters, segments_cons c, hd, hss, boundaries, consHead]
        using hrest

variable (text : Text)

theorem utf8Offsets_eq : utf8Offsets text = boundaries 0 (characters text) := by
  cases text with
  | nil => rfl
  | cons c text => simpa [utf8Offsets, utf8OffsetsLoop] using utf8OffsetsLoop_succ 0 c text

@[simp] theorem flatten_characters : (characters text).flatten = text :=
  flatten_segments text

@[simp] theorem length_utf8Offsets : (utf8Offsets text).length = (characters text).length + 1 := by
  simp [utf8Offsets_eq]

theorem utf8LengthLoop_succ (i result : ℕ) (text : Text) : utf8LengthLoop (i + 1) result text =
    result + text.countP (fun c => !isContinuation c) := by
  induction text generalizing i result with
  | nil => rfl
  | cons c text ih =>
    cases hc : isContinuation c <;> simp [utf8LengthLoop, ih, hc]
    omega

theorem utf8Length_eq : utf8Length text = (characters text).length := by
  rw [characters, length_segments]
  cases text with
  | nil => rfl
  | cons c text =>
    have h := utf8LengthLoop_succ 0 1 text
    cases hc : isContinuation c <;> simp [utf8Length, utf8LengthLoop, h, hc] <;> omega

theorem utf8Substr_eq {first last : ℕ} (hle : first ≤ last)
    (hlast : last ≤ (characters text).length) :
    utf8Substr text (utf8Offsets text) first last =
      (((characters text).drop first).take (last - first)).flatten := by
  have h := slice_boundaries (characters text) hle hlast
  rwa [flatten_characters, ← utf8Offsets_eq] at h

theorem utf8Substr_succ {i : ℕ} (hi : i < (characters text).length) :
    utf8Substr text (utf8Offsets text) i (i + 1) = (characters text).get ⟨i, hi⟩ := by
  have hone : i + 1 - i = 1 := by omega
  rw [utf8Substr_eq text (Nat.le_succ i) hi, List.drop_eq_getElem_cons hi, hone]
  exact List.append_nil _

theorem utf8CharacterSet_eq : utf8CharacterSet text = characters text := by
  apply List.ext_getElem
  · simp [utf8CharacterSet]
  · intro i h₁ h₂
    simpa [utf8CharacterSet] using utf8Substr_succ text h₂

theorem characters_flatten_of_slice {text : Text} {cs : List Text} (h : cs <:+: characters text) :
    characters cs.flatten = cs := by
  obtain ⟨p, q, hpq⟩ := h
  have hslice := @segments_slice Char isContinuation text p.length cs.length
  have hcs : ((segments isContinuation text).drop p.length).take cs.length = cs := by
    rw [← characters, ← hpq]
    simp
  rwa [hcs] at hslice

@[simp] theorem convertToString_string (s : Text) : convertToString (.string s) = .ok s := rfl

theorem verifyArgumentCount_unlimited (name : String) {args : List Object} {minCount : ℕ}
    (h : minCount ≤ args.length) : verifyArgumentCount name args minCount 0 = .ok () :=
  if_neg fun hcount => hcount.elim (Nat.not_lt.mpr h) fun hmax => hmax.1 rfl

theorem flattenArguments_map_string (parts : List Text) :
    flattenArguments (parts.map .string) = .ok parts := by
  induction parts with
  | nil => rfl
  | cons part parts ih =>
    simp only [List.map_cons, flattenArguments, ih, flattenArgument, convertToString_string]
    rfl

theorem convertAll_map_string (texts : List Text) :
    convertAll (texts.map .string) = .ok texts.flatten := by
  induction texts with
  | nil => rfl
  | cons text texts ih =>
    simp only [List.map_cons, convertAll, ih, convertToString_string, List.flatten_cons]
    rfl

end StringCommands
