import Rtorrent.RpcRequests

/-! # The text of a JSON value

`dump` writes a value without blanks and throws when a text or key is not UTF-8. -/
namespace JsonDump

open RpcTextParser RpcRequests FallibleRuns

/-- The states of the table `utf8d`, where 0 accepts and 1 rejects. -/
inductive Utf8State where
  | accept | reject | s2 | s3 | s4 | s5 | s6 | s7 | s8
  deriving DecidableEq

/-- The first part of `utf8d`. -/
def utf8Type (byte : ℕ) : ℕ :=
  if byte < 0x80 then 0
  else if byte < 0x90 then 1
  else if byte < 0xA0 then 9
  else if byte < 0xC0 then 7
  else if byte < 0xC2 then 8
  else if byte < 0xE0 then 2
  else if byte = 0xE0 then 10
  else if byte = 0xED then 4
  else if byte < 0xF0 then 3
  else if byte = 0xF0 then 11
  else if byte < 0xF4 then 6
  else if byte = 0xF4 then 5
  else 8

/-- The second part of `utf8d`, by state and type. -/
def nextState : Utf8State → ℕ → Utf8State
  | .accept, 0 => .accept
  | .accept, 2 => .s2
  | .accept, 3 => .s3
  | .accept, 10 => .s4
  | .accept, 4 => .s5
  | .accept, 11 => .s6
  | .accept, 6 => .s7
  | .accept, 5 => .s8
  | .s2, 1 | .s2, 7 | .s2, 9 => .accept
  | .s3, 1 | .s3, 7 | .s3, 9 | .s4, 7 | .s5, 1 | .s5, 9 => .s2
  | .s6, 7 | .s6, 9 | .s7, 1 | .s7, 7 | .s7, 9 | .s8, 1 => .s3
  | _, _ => .reject

def decode (state : Utf8State) (c : Char) : Utf8State := nextState state (utf8Type c.toNat)

/-- What is written for a byte that completes a code point. Only code points of one byte are
escaped. -/
def escape (c : Char) : Text :=
  if c.toNat = 0x08 then ['\\', 'b']
  else if c = '\t' then ['\\', 't']
  else if c = '\n' then ['\\', 'n']
  else if c.toNat = 0x0C then ['\\', 'f']
  else if c = '\r' then ['\\', 'r']
  else if c = '"' then ['\\', '"']
  else if c = '\\' then ['\\', '\\']
  else if c.toNat ≤ 0x1F then
    ['\\', 'u', '0', '0', Nat.digitChar (c.toNat / 16), Nat.digitChar (c.toNat % 16)]
  else [c]

def hexBytes (c : Char) : String :=
  String.ofList [(Nat.digitChar (c.toNat / 16)).toUpper, (Nat.digitChar (c.toNat % 16)).toUpper]

def typeError {α : Type} (what : String) : Except String α :=
  .error ("[json.exception.type_error.316] " ++ what)

/-- From the byte at `i` on, behind the byte `last`. -/
def dumpFrom : ℕ → Utf8State → Char → Text → Except String Text
  | _, .accept, _, [] => .ok []
  | _, _, last, [] => typeError ("incomplete UTF-8 string; last byte: 0x" ++ hexBytes last)
  | i, state, _, c :: rest =>
    match decode state c with
    | .accept => (dumpFrom (i + 1) .accept c rest).map (escape c ++ ·)
    | .reject => typeError ("invalid UTF-8 byte at index " ++ toString i ++ ": 0x" ++ hexBytes c)
    | next => (dumpFrom (i + 1) next c rest).map (c :: ·)

def dumpEscaped (s : Text) : Except String Text := dumpFrom 0 .accept '\x00' s

def dumpString (s : Text) : Except String Text :=
  (dumpEscaped s).map fun text => '"' :: text ++ ['"']

def commaSeparated (texts : List Text) : Text := [','].intercalate texts

mutual

def dump : Json → Except String Text
  | .null => .ok "null".toList
  | .boolean b => .ok (toString b).toList
  | .number v => .ok (toString v).toList
  | .float text => .ok text
  | .string s => dumpString s
  | .array items => do
    let texts ← dumpItems items
    .ok ('[' :: commaSeparated texts ++ [']'])
  | .object entries => do
    let texts ← dumpEntries entries
    .ok ('{' :: commaSeparated texts ++ ['}'])

def dumpItems : List Json → Except String (List Text)
  | [] => .ok []
  | item :: items => do
    let text ← dump item
    let texts ← dumpItems items
    .ok (text :: texts)

def dumpEntries : List (Text × Json) → Except String (List Text)
  | [] => .ok []
  | (key, value) :: entries => do
    let key ← dumpString key
    let text ← dump value
    let texts ← dumpEntries entries
    .ok ((key ++ ':' :: text) :: texts)

end

def isUtf8 (s : Text) : Bool := s.foldl decode .accept == .accept

mutual

def hasUtf8 : Json → Bool
  | .string s => isUtf8 s
  | .array items => itemsHaveUtf8 items
  | .object entries => entriesHaveUtf8 entries
  | _ => true

def itemsHaveUtf8 : List Json → Bool
  | [] => true
  | item :: items => hasUtf8 item && itemsHaveUtf8 items

def entriesHaveUtf8 : List (Text × Json) → Bool
  | [] => true
  | (key, value) :: entries => isUtf8 key && hasUtf8 value && entriesHaveUtf8 entries

end

theorem decode_reject (s : Text) : s.foldl decode .reject = .reject := by
  induction s with
  | nil => rfl
  | cons c s ih => exact ih

theorem dumpFrom_iff : ∀ (s : Text) (i : ℕ) (state : Utf8State) (last : Char),
    (∃ text, dumpFrom i state last s = .ok text) ↔ s.foldl decode state = .accept
  | [], i, state, last => by cases state <;> simp [dumpFrom, typeError]
  | c :: rest, i, state, last => by
    rw [dumpFrom.eq_def, List.foldl_cons]
    cases hd : decode state c with
    | accept => simp [hd, except_map_ok, ← dumpFrom_iff rest (i + 1) _ c]
    | reject => simp [hd, typeError, decode_reject]
    | _ => simp [hd, except_map_ok, ← dumpFrom_iff rest (i + 1) _ c]

theorem dumpString_iff {s : Text} : (∃ text, dumpString s = .ok text) ↔ isUtf8 s = true := by
  rw [isUtf8, beq_iff_eq, ← dumpFrom_iff s 0 .accept '\x00', dumpString, dumpEscaped]
  simp [except_map_ok]

mutual

/-- A value can be written when its texts and keys are UTF-8. -/
theorem dump_iff : ∀ {v : Json}, (∃ text, dump v = .ok text) ↔ hasUtf8 v = true
  | .null | .boolean _ | .number _ | .float _ => by simp [dump, hasUtf8]
  | .string s => by rw [dump, hasUtf8, dumpString_iff]
  | .array items => by simp [dump, hasUtf8, ← dumpItems_iff, except_bind_ok]
  | .object entries => by simp [dump, hasUtf8, ← dumpEntries_iff, except_bind_ok]

theorem dumpItems_iff : ∀ {items : List Json},
    (∃ texts, dumpItems items = .ok texts) ↔ itemsHaveUtf8 items = true
  | [] => by simp [dumpItems, itemsHaveUtf8]
  | item :: items => by
    simp [dumpItems, itemsHaveUtf8, ← dump_iff, ← dumpItems_iff, except_bind_ok]

theorem dumpEntries_iff : ∀ {entries : List (Text × Json)},
    (∃ texts, dumpEntries entries = .ok texts) ↔ entriesHaveUtf8 entries = true
  | [] => by simp [dumpEntries, entriesHaveUtf8]
  | (key, value) :: entries => by
    simp [dumpEntries, entriesHaveUtf8, ← dumpString_iff, ← dump_iff, ← dumpEntries_iff,
      except_bind_ok, and_assoc]

end

end JsonDump
