import Mathlib.Algebra.Group.Int.Defs
import Mathlib.Algebra.Group.Nat.Defs
import Rtorrent.RpcCommandParser

/-! # Numbers written as text

`strtoll` and what `parse_value` and the conversions of an object make of it. A pointer
into the text is the text behind it. -/
namespace RpcValueParser

open RpcTextParser RpcCommandParser

def digitValue (c : Char) : Option ℕ :=
  if c.isDigit then some (c.toNat - 48)
  else if c.isLower then some (c.toNat - 87)
  else if c.isUpper then some (c.toNat - 55)
  else none

def isDigitOf (base : ℕ) (c : Char) : Bool := (digitValue c).any (· < base)

def digitsValue (base : ℕ) (digits : Text) : ℕ :=
  digits.foldl (fun v c => v * base + (digitValue c).getD 0) 0

def readSign : Text → Bool × Text
  | '-' :: text => (true, text)
  | '+' :: text => (false, text)
  | text => (false, text)

/-- The base the digits are read in, and the text from the first digit on. -/
def readBase (base : ℕ) : Text → ℕ × Text
  | '0' :: x :: d :: text =>
    if (base = 0 ∨ base = 16) ∧ (x = 'x' ∨ x = 'X') ∧ isDigitOf 16 d then (16, d :: text)
    else (if base = 0 then 8 else base, '0' :: x :: d :: text)
  | '0' :: text => (if base = 0 then 8 else base, '0' :: text)
  | text => (if base = 0 then 10 else base, text)

def int64Max : ℤ := 2 ^ 63 - 1
def int64Min : ℤ := -2 ^ 63

def saturate (v : ℤ) : ℤ := max int64Min (min int64Max v)

/-- There is no result when no digit is read, where `last` is `src`. -/
def strtoll (base : ℕ) (src : Text) : Option (ℤ × Text) :=
  let (negative, text) := readSign (src.dropWhile isSpace)
  let (base, text) := readBase base text
  let digits := text.takeWhile (isDigitOf base)
  if digits.isEmpty then none
  else
    let value : ℤ := digitsValue base digits
    some (saturate (if negative then -value else value), text.drop digits.length)

theorem readBase_ten (text : Text) : readBase 10 text = (10, text) := by
  unfold readBase
  split
  · simp
  · rfl
  · rfl

theorem readSign_plain {c : Char} {text : Text} (hminus : c ≠ '-') (hplus : c ≠ '+') :
    readSign (c :: text) = (false, c :: text) := by
  unfold readSign
  split
  · rename_i h
    exact absurd (List.cons.inj h).1 hminus
  · rename_i h
    exact absurd (List.cons.inj h).1 hplus
  · rfl

theorem digit_plain {c : Char} (h : isDigitOf 10 c = true) :
    isSpace c = false ∧ c ≠ '-' ∧ c ≠ '+' ∧ c ≠ '\x00' := by
  refine ⟨?_, ?_, ?_, ?_⟩
  · rw [Bool.eq_false_iff]
    intro hspace
    simp only [isSpace, Bool.or_eq_true, beq_iff_eq] at hspace
    rcases hspace with ((((rfl | rfl) | rfl) | rfl) | rfl) | rfl <;> revert h <;> decide
  all_goals
    rintro rfl
    revert h
    decide

/-- `strcasecmp` with a name in lower case. -/
def isWord (word : String) (src : Text) : Bool := (cString src).map Char.toLower == word.toList

def wordValue (src : Text) : Option (ℤ × Text) :=
  if isWord "no" src then some (0, src.drop 2)
  else if isWord "yes" src then some (1, src.drop 3)
  else if isWord "true" src then some (1, src.drop 4)
  else if isWord "false" src then some (0, src.drop 5)
  else none

/-- Only a value that is too large is refused. -/
def shiftValue (limit value : ℤ) (bits : ℕ) (text : Text) : Option (ℤ × Text) :=
  if limit < value then none else some (Int.bmod (value * 2 ^ bits) (2 ^ 64), text)

def scaleValue (unit value : ℤ) (text : Text) : Option (ℤ × Text) :=
  if int64Max / unit < value ∨ value < Int.tdiv int64Min unit then none
  else some (value * unit, text)

def suffixValue (unit value : ℤ) : Text → Option (ℤ × Text)
  | 'b' :: text | 'B' :: text => some (value, text)
  | 'k' :: text | 'K' :: text => shiftValue 0x1FFFFFFFFFFFFF value 10 text
  | 'm' :: text | 'M' :: text => shiftValue 0x7FFFFFFFFFF value 20 text
  | 'g' :: text | 'G' :: text => shiftValue 0x1FFFFFFFF value 30 text
  | text => scaleValue unit value text

/-- There is no result when the source is returned as it is. -/
def parseValueNothrow (base : ℕ) (unit : ℤ) (src : Text) : Except Failure (Option (ℤ × Text)) :=
  if unit ≤ 0 then inputError "Command::string_to_value_unit(...) received unit <= 0."
  else
    match strtoll base src with
    | none => .ok (wordValue src)
    | some (value, text) => .ok (suffixValue unit value text)

def parseValue (base : ℕ) (unit : ℤ) (src : Text) : Except Failure (ℤ × Text) := do
  match ← parseValueNothrow base unit src with
  | none => inputError "Could not convert string to value."
  | some r => .ok r

/-- The only element of a list with one element. -/
def convertToSingleArgument : Object → Object
  | .list [item] => item
  | obj => obj

/-- A value with nothing but blanks behind it. -/
def wholeValue (base : ℕ) (unit : ℤ) (text : Text) : Except Failure (Option ℤ) := do
  let (value, rest) ← parseValue base unit text
  .ok (if (parseSkipWspace rest).isEmpty then some value else none)

/-- A raw string is read from the object itself, also where the type is that of its only
element. -/
def convertToValueNothrow (base : ℕ) (unit : ℤ) (src : Object) : Except Failure (Option ℤ) :=
  match convertToSingleArgument src with
  | .value v => .ok (some v)
  | .string s => wholeValue base unit s
  | .rawString _ =>
    match src with
    | .rawString s => wholeValue base unit s
    | _ => inputError "Wrong object type."
  | .none => .ok (some 0)
  | _ => .ok none

/-- The defaults are base 0 and unit 1. -/
def convertToValue (src : Object) : Except Failure ℤ := do
  match ← convertToValueNothrow 0 1 src with
  | none => inputError "Not convertible to a value."
  | some value => .ok value

def convertToString (src : Object) : Except Failure Text :=
  match convertToSingleArgument src with
  | .value v => .ok (toString v).toList
  | .string s => .ok s
  | .none => .ok []
  | _ => inputError "Not a string."

end RpcValueParser
