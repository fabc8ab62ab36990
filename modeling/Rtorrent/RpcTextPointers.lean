import Mathlib.Algebra.Group.Nat.Defs
import Rtorrent.FallibleRuns
import Rtorrent.RpcTextParser

/-! # The text parser on pointers

The parser moves a pointer through a buffer that ends with a nul byte at `last`, and compares
it with `last` before most of its reads; `parse_object` relies on the nul byte. Here every
read and step of the pointer is the one of the source. -/
namespace RpcTextPointers

open RpcTextParser
open FallibleRuns (except_ok_bind)

/-- What is in memory, up to a nul byte and behind it. -/
structure Buffer where
  byte : ℕ → Char
  last : ℕ
  nul : byte last = '\x00'

inductive Fault where
  | failure (f : Failure)
  | outOfBounds
  deriving DecidableEq, Repr

def inputFault {α : Type} (what : String) : Except Fault α :=
  .error (.failure (.error .inputError what))

def outOfTurns {α : Type} : Except Fault α := .error (.failure .outOfFuel)

def liftFailure {α : Type} : Except Failure α → Except Fault α
  | .ok a => .ok a
  | .error f => .error (.failure f)

section

variable (b : Buffer)

/-- `*p`, where nothing behind the nul byte may be read. -/
def read (p : ℕ) : Except Fault Char :=
  if p ≤ b.last then .ok (b.byte p) else .error .outOfBounds

/-- The turns that a loop can make from here before it is at `last`, and one more. -/
def turnsFrom (first : ℕ) : ℕ := b.last - first + 1

def skipLoop : ℕ → ℕ → Except Fault ℕ
  | 0, _ => outOfTurns
  | turns + 1, first =>
    if first = b.last then .ok first
    else do
      let c ← read b first
      if parseIsSpace c then skipLoop turns (first + 1) else .ok first

def skipWspace (first : ℕ) : Except Fault ℕ := skipLoop b (turnsFrom b first) first

def quotedLoop : ℕ → ℕ → Except Fault (Text × ℕ)
  | 0, _ => outOfTurns
  | turns + 1, first =>
    if first = b.last then inputFault "Missing closing quote."
    else do
      let c ← read b first
      if parseIsQuote c then .ok ([], first + 1)
      else if parseIsEscape c then
        if first + 1 = b.last then inputFault "Escape character at end of input."
        else do
          let e ← read b (first + 1)
          let (s, p) ← quotedLoop turns (first + 2)
          .ok (e :: s, p)
      else do
        let (s, p) ← quotedLoop turns (first + 1)
        .ok (c :: s, p)

def unquotedLoop (delim : Char → Bool) : ℕ → ℕ → Except Fault (Text × ℕ)
  | 0, _ => outOfTurns
  | turns + 1, first =>
    if first = b.last then .ok ([], first)
    else do
      let c ← read b first
      if delim c then .ok ([], first)
      else if parseIsEscape c then
        if first + 1 = b.last then inputFault "Escape character at end of input."
        else do
          let e ← read b (first + 1)
          let (s, p) ← unquotedLoop delim turns (first + 2)
          .ok (e :: s, p)
      else do
        let (s, p) ← unquotedLoop delim turns (first + 1)
        .ok (c :: s, p)

def parseString (delim : Char → Bool) (first : ℕ) : Except Fault (Text × ℕ) :=
  if first = b.last then .ok ([], first)
  else do
    let c ← read b first
    if parseIsQuote c then quotedLoop b (turnsFrom b (first + 1)) (first + 1)
    else unquotedLoop b delim (turnsFrom b first) first

/-- The loop of `parse_list`. -/
def itemsLoop (parseObject : ℕ → Except Fault (Object × ℕ)) :
    ℕ → ℕ → Except Fault (List Object × ℕ)
  | 0, _ => outOfTurns
  | turns + 1, first => do
    let first ← skipWspace b first
    let (item, first) ← parseObject first
    let first ← skipWspace b first
    if first = b.last then .ok ([item], first)
    else do
      let c ← read b first
      if parseIsSeperator c then do
        let (items, p) ← itemsLoop parseObject turns (first + 1)
        .ok (item :: items, p)
      else .ok ([item], first)

/-- The loop that counts opening parentheses looks one byte ahead. -/
def openLoop : ℕ → ℕ → ℕ → Except Fault (ℕ × ℕ)
  | 0, _, _ => outOfTurns
  | turns + 1, first, parentheses =>
    if first + 1 = b.last then .ok (parentheses, first)
    else do
      let c ← read b (first + 1)
      if c = '(' then openLoop turns (first + 1) (parentheses + 1) else .ok (parentheses, first)

def closeLoop : ℕ → ℕ → Except Fault (ℕ × ℕ)
  | 0, first => .ok (0, first)
  | parentheses + 1, first =>
    if first = b.last then .ok (parentheses + 1, first)
    else do
      let c ← read b first
      if c = ')' then closeLoop parentheses (first + 1) else .ok (parentheses + 1, first)

/-- `parse_object` at a `{`. -/
def parseBlock (parse : (Char → Bool) → ℕ → Except Fault (Object × ℕ)) (first : ℕ) :
    Except Fault (Object × ℕ) := do
  let (items, first) ←
    itemsLoop b (parse parseIsDelimBlock) (turnsFrom b (first + 1)) (first + 1)
  let first ← skipWspace b first
  if first = b.last then inputFault "Could not find closing '\x7d'."
  else do
    let c ← read b first
    if c = '}' then .ok (.list items, first + 1)
    else inputFault "Could not find closing '\x7d'."

/-- The arguments of a function, at the byte behind its name. -/
def parseArguments (parse : (Char → Bool) → ℕ → Except Fault (Object × ℕ)) (c : Char)
    (first : ℕ) : Except Fault (Object × ℕ) :=
  if c = ',' then do
    let (items, first) ←
      itemsLoop b (parse parseIsDelimFunc) (turnsFrom b (first + 1)) (first + 1)
    let first ← skipWspace b first
    .ok (.list items, first)
  else .ok (.none, first)

/-- `parse_object` at a `(`. -/
def parseFunction (parse : (Char → Bool) → ℕ → Except Fault (Object × ℕ)) (first : ℕ) :
    Except Fault (Object × ℕ) := do
  let (parentheses, first) ← openLoop b (turnsFrom b first) first 1
  let flag ← liftFailure (functionFlag parentheses)
  let (key, first) ← parseString b parseIsDelimFunc (first + 1)
  let first ← skipWspace b first
  if first = b.last then inputFault "Could not find closing ')'."
  else do
    let c ← read b first
    if parseIsDelimFunc c then do
      let (obj, first) ← parseArguments b parse c first
      let (parentheses, first) ← closeLoop b parentheses first
      if parentheses ≠ 0 then inputFault "Parentheses mismatch."
      else .ok (.dictKey flag key obj, first)
    else inputFault "Could not find closing ')'."

/-- The first byte is read without a comparison with `last`. -/
def parseObject : ℕ → (Char → Bool) → ℕ → Except Fault (Object × ℕ)
  | 0, _, _ => inputFault "Max parse depth reached."
  | depth + 1, delim, first => do
    let c ← read b first
    if c = '{' then parseBlock b (parseObject depth) first
    else if c = '(' then parseFunction b (parseObject depth) first
    else do
      let (s, p) ← parseString b delim first
      .ok (.string s, p)

def parseWholeList (delim : Char → Bool) (first : ℕ) : Except Fault (Object × ℕ) := do
  let first ← skipWspace b first
  let (item, first) ← parseObject b (maxParseDepth - 1) delim first
  let first ← skipWspace b first
  if first = b.last then .ok (item, first)
  else do
    let c ← read b first
    if parseIsSeperator c then do
      let (items, p) ← itemsLoop b (parseObject b (maxParseDepth - 1) delim)
        (turnsFrom b (first + 1)) (first + 1)
      .ok (.list (item :: items), p)
    else .ok (item, first)

end

/-- The text between a pointer and `last`. -/
def text (b : Buffer) (first : ℕ) : Text :=
  (List.range (b.last - first)).map fun i => b.byte (first + i)

section

variable {b : Buffer} {first p : ℕ} {α β : Type}

theorem text_last : text b b.last = [] := by
  rw [text, Nat.sub_self]
  rfl

theorem length_text : (text b first).length = b.last - first := by
  rw [text, List.length_map, List.length_range]

theorem text_of_lt (h : first < b.last) : text b first = b.byte first :: text b (first + 1) := by
  have hn : b.last - first = b.last - (first + 1) + 1 := by omega
  rw [text, text, hn, List.range_succ_eq_map, List.map_cons, List.map_map, Nat.add_zero]
  congr 1
  apply List.map_congr_left
  intro i _
  simp only [Function.comp_apply]
  congr 1
  omega

theorem turnsFrom_eq : turnsFrom b first = (text b first).length + 1 := by
  rw [turnsFrom, length_text]

theorem read_bind (h : first ≤ b.last) (f : Char → Except Fault α) :
    (read b first >>= f) = f (b.byte first) := by
  rw [read, if_pos h]
  rfl

/-- A parser on pointers that started at `first` ends as one on texts does, at a place between
`first` and `last` where the text is what the other one leaves. -/
def Follows (b : Buffer) (first : ℕ) : Except Fault (α × ℕ) → Except Failure (α × Text) → Prop
  | .ok (a, p), y => first ≤ p ∧ p ≤ b.last ∧ y = .ok (a, text b p)
  | .error f, y => ∃ g, f = .failure g ∧ y = .error g

variable {a : α}

theorem follows_ok (h : first ≤ p) (hp : p ≤ b.last) :
    Follows b first (.ok (a, p)) (.ok (a, text b p)) := ⟨h, hp, rfl⟩

theorem follows_last (h : first ≤ b.last) : Follows b first (.ok (a, b.last)) (.ok (a, [])) := by
  rw [← @text_last b]
  exact follows_ok h (Nat.le_refl _)

theorem follows_inputFault {what : String} :
    Follows (α := α) b first (inputFault what) (inputError what) := ⟨_, rfl, rfl⟩

variable {x : Except Fault (α × ℕ)} {y : Except Failure (α × Text)}

theorem Follows.bind {f : α × ℕ → Except Fault (β × ℕ)} {g : α × Text → Except Failure (β × Text)}
    (h : Follows b first x y)
    (hf : ∀ a p, first ≤ p → p ≤ b.last → Follows b first (f (a, p)) (g (a, text b p))) :
    Follows b first (x >>= f) (y >>= g) := by
  cases x with
  | error e =>
    obtain ⟨d, rfl, rfl⟩ := h
    exact ⟨d, rfl, rfl⟩
  | ok r =>
    obtain ⟨h1, h2, rfl⟩ := h
    exact hf r.1 r.2 h1 h2

theorem follows_lift {γ : Type} {x : Except Failure γ} {f : γ → Except Fault (β × ℕ)}
    {g : γ → Except Failure (β × Text)} (h : ∀ c, Follows b first (f c) (g c)) :
    Follows b first (liftFailure x >>= f) (x >>= g) := by
  cases x with
  | error e => exact ⟨e, rfl, rfl⟩
  | ok c => exact h c

theorem Follows.mono {q : ℕ} (h : Follows b p x y) (hq : q ≤ p) : Follows b q x y := by
  cases x with
  | error e => exact h
  | ok r =>
    obtain ⟨h1, h2, h3⟩ := h
    exact ⟨Nat.le_trans hq h1, h2, h3⟩

variable (delim : Char → Bool) (turns : ℕ)

theorem skipLoop_ok : ∀ first, first ≤ b.last → b.last - first < turns →
    ∃ p, skipLoop b turns first = .ok p ∧ first ≤ p ∧ p ≤ b.last ∧
      text b p = parseSkipWspace (text b first) := by
  induction turns with
  | zero => exact fun first _ h => absurd h (Nat.not_lt_zero _)
  | succ turns ih =>
    intro first hle ht
    rw [skipLoop]
    by_cases he : first = b.last
    · rw [if_pos he, he, text_last]
      exact ⟨b.last, rfl, Nat.le_refl _, Nat.le_refl _, text_last⟩
    · have hlt : first < b.last := by omega
      rw [if_neg he, read_bind hle, text_of_lt hlt, parseSkipWspace, List.dropWhile_cons]
      by_cases hs : parseIsSpace (b.byte first) = true
      · obtain ⟨p, hp, h1, h2, h3⟩ := ih (first + 1) (by omega) (by omega)
        rw [if_pos hs, if_pos hs]
        exact ⟨p, hp, by omega, h2, h3⟩
      · rw [if_neg hs, if_neg hs]
        exact ⟨first, rfl, Nat.le_refl _, hle, text_of_lt hlt⟩

theorem skipWspace_bind (h : first ≤ b.last) :
    ∃ p, first ≤ p ∧ p ≤ b.last ∧ text b p = parseSkipWspace (text b first) ∧
      ∀ {γ : Type} (f : ℕ → Except Fault γ), (skipWspace b first >>= f) = f p := by
  obtain ⟨p, hp, h1, h2, h3⟩ := skipLoop_ok (turnsFrom b first) first h (Nat.lt_succ_self _)
  refine ⟨p, h1, h2, h3, ?_⟩
  intro γ f
  rw [skipWspace, hp]
  rfl

theorem Follows.map {f : α → β} (h : Follows b first x y) :
    Follows b first (x >>= fun r => .ok (f r.1, r.2)) (y.map fun r => (f r.1, r.2)) := by
  cases x with
  | error e =>
    obtain ⟨g, rfl, rfl⟩ := h
    exact ⟨g, rfl, rfl⟩
  | ok r =>
    obtain ⟨h1, h2, rfl⟩ := h
    exact ⟨h1, h2, rfl⟩

theorem quotedLoop_follows : ∀ first, first ≤ b.last → b.last - first < turns →
    Follows b first (quotedLoop b turns first) (parseQuoted (text b first)) := by
  induction turns with
  | zero => exact fun first _ h => absurd h (Nat.not_lt_zero _)
  | succ turns ih =>
    intro first hle ht
    rw [quotedLoop]
    by_cases he : first = b.last
    · rw [if_pos he, he, text_last]
      exact follows_inputFault
    · have hlt : first < b.last := by omega
      rw [if_neg he, read_bind hle, text_of_lt hlt]
      by_cases hq : parseIsQuote (b.byte first) = true
      · rw [if_pos hq, parseQuoted.eq_def]
        simp only [hq, ↓reduceIte]
        exact follows_ok (by omega) hlt
      · rw [if_neg hq]
        by_cases hx : parseIsEscape (b.byte first) = true
        · rw [if_pos hx]
          by_cases hl : first + 1 = b.last
          · rw [if_pos hl, hl, text_last, parseQuoted.eq_def]
            simp only [hq, hx, Bool.false_eq_true, ↓reduceIte]
            exact follows_inputFault
          · have hlt' : first + 1 < b.last := by omega
            rw [if_neg hl, read_bind (Nat.le_of_lt hlt'), text_of_lt hlt', parseQuoted.eq_def]
            simp only [hq, hx, Bool.false_eq_true, ↓reduceIte]
            exact ((ih (first + 2) hlt' (by omega)).mono (by omega)).map
        · rw [if_neg hx, parseQuoted.eq_def]
          simp only [hq, hx, Bool.false_eq_true, ↓reduceIte]
          exact ((ih (first + 1) hlt (by omega)).mono (by omega)).map

theorem unquotedLoop_follows :
    ∀ first, first ≤ b.last → b.last - first < turns →
      Follows b first (unquotedLoop b delim turns first) (parseUnquoted delim (text b first)) := by
  induction turns with
  | zero => exact fun first _ h => absurd h (Nat.not_lt_zero _)
  | succ turns ih =>
    intro first hle ht
    rw [unquotedLoop]
    by_cases he : first = b.last
    · rw [if_pos he, he, text_last]
      exact follows_last (Nat.le_refl _)
    · have hlt : first < b.last := by omega
      rw [if_neg he, read_bind hle, text_of_lt hlt]
      by_cases hq : delim (b.byte first) = true
      · rw [if_pos hq, parseUnquoted.eq_def]
        simp only [hq, ↓reduceIte]
        rw [← text_of_lt hlt]
        exact follows_ok (Nat.le_refl _) hle
      · rw [if_neg hq]
        by_cases hx : parseIsEscape (b.byte first) = true
        · rw [if_pos hx]
          by_cases hl : first + 1 = b.last
          · rw [if_pos hl, hl, text_last, parseUnquoted.eq_def]
            simp only [hq, hx, Bool.false_eq_true, ↓reduceIte]
            exact follows_inputFault
          · have hlt' : first + 1 < b.last := by omega
            rw [if_neg hl, read_bind (Nat.le_of_lt hlt'), text_of_lt hlt', parseUnquoted.eq_def]
            simp only [hq, hx, Bool.false_eq_true, ↓reduceIte]
            exact ((ih (first + 2) hlt' (by omega)).mono (by omega)).map
        · rw [if_neg hx, parseUnquoted.eq_def]
          simp only [hq, hx, Bool.false_eq_true, ↓reduceIte]
          exact ((ih (first + 1) hlt (by omega)).mono (by omega)).map

theorem parseString_follows (h : first ≤ b.last) :
    Follows b first (parseString b delim first)
      (RpcTextParser.parseString delim (text b first)) := by
  rw [parseString]
  by_cases he : first = b.last
  · rw [if_pos he, he, text_last]
    exact follows_last (Nat.le_refl _)
  · have hlt : first < b.last := by omega
    rw [if_neg he, read_bind h, text_of_lt hlt, RpcTextParser.parseString]
    by_cases hq : parseIsQuote (b.byte first) = true
    · rw [if_pos hq, if_pos hq]
      exact (quotedLoop_follows _ (first + 1) hlt (Nat.lt_succ_self _)).mono (by omega)
    · rw [if_neg hq, if_neg hq, ← text_of_lt hlt]
      exact unquotedLoop_follows delim _ first h (Nat.lt_succ_self _)

theorem itemsLoop_follows {parse : ℕ → Except Fault (Object × ℕ)}
    {parse' : Text → Except Failure (Object × Text)}
    (hp : ∀ first, first ≤ b.last → Follows b first (parse first) (parse' (text b first)))
    (turns : ℕ) : ∀ first, first ≤ b.last →
      Follows b first (itemsLoop b parse turns first) (parseItems parse' turns (text b first)) := by
  induction turns with
  | zero => exact fun first _ => ⟨_, rfl, rfl⟩
  | succ turns ih =>
    intro first hle
    obtain ⟨p, hfp, hpl, ht, hbind⟩ := skipWspace_bind hle
    rw [itemsLoop, parseItems, hbind, ← ht]
    apply ((hp p hpl).mono hfp).bind
    intro item q hq hql
    obtain ⟨r, hqr, hrl, htr, hbind'⟩ := skipWspace_bind hql
    dsimp only
    rw [hbind', ← htr]
    by_cases he : r = b.last
    · rw [if_pos he, he, text_last]
      exact follows_last (by omega)
    · have hlt : r < b.last := by omega
      rw [if_neg he, read_bind hrl, text_of_lt hlt]
      dsimp only
      by_cases hs : parseIsSeperator (b.byte r) = true
      · rw [if_pos hs, if_pos hs]
        apply ((ih (r + 1) hlt).mono (by omega)).bind
        intro items p' hp' hpl'
        exact follows_ok hp' hpl'
      · rw [if_neg hs, if_neg hs, ← text_of_lt hlt]
        exact follows_ok (by omega) hrl

theorem openLoop_ok : ∀ first n, first < b.last → b.last - first ≤ turns →
    ∃ p, openLoop b turns first n = .ok (n + (p - first), p) ∧ first ≤ p ∧ p < b.last ∧
      text b (p + 1) = (text b (first + 1)).dropWhile (· == '(') := by
  induction turns with
  | zero =>
    intro first n hlt ht
    omega
  | succ turns ih =>
    intro first n hlt ht
    rw [openLoop]
    by_cases he : first + 1 = b.last
    · rw [if_pos he, he, text_last]
      refine ⟨first, ?_, Nat.le_refl _, hlt, ?_⟩
      · rw [Nat.sub_self, Nat.add_zero]
      · rw [he, text_last]
        rfl
    · have hlt' : first + 1 < b.last := by omega
      rw [if_neg he, read_bind (Nat.le_of_lt hlt'), text_of_lt hlt', List.dropWhile_cons]
      by_cases hc : b.byte (first + 1) = '('
      · obtain ⟨p, hp, h1, h2, h3⟩ := ih (first + 1) (n + 1) hlt' (by omega)
        have hn : n + 1 + (p - (first + 1)) = n + (p - first) := by omega
        rw [if_pos hc, if_pos (by simpa using hc), hp, hn]
        exact ⟨p, rfl, by omega, h2, h3⟩
      · rw [if_neg hc, if_neg (by simpa using hc)]
        refine ⟨first, ?_, Nat.le_refl _, hlt, text_of_lt hlt'⟩
        rw [Nat.sub_self, Nat.add_zero]

/-- The `int32_t` that counts them does not overflow in a text below 2 GiB. -/
theorem openLoop_int32 {parentheses : ℕ} (h : first < b.last) (hsize : b.last < 2 ^ 31)
    (hopen : openLoop b (turnsFrom b first) first 1 = .ok (parentheses, p)) :
    parentheses < 2 ^ 31 := by
  obtain ⟨q, hq, -, hql, -⟩ := openLoop_ok (turnsFrom b first) first 1 h (by
    rw [turnsFrom]
    omega)
  rw [hopen] at hq
  cases hq
  omega

theorem closeLoop_ok (n : ℕ) : ∀ first, first ≤ b.last →
    ∃ left p, closeLoop b n first = .ok (left, p) ∧ first ≤ p ∧ p ≤ b.last ∧
      closeParentheses n (text b first) =
        if left = 0 then .ok (text b p) else inputError "Parentheses mismatch." := by
  induction n with
  | zero => exact fun first h => ⟨0, first, rfl, Nat.le_refl _, h, rfl⟩
  | succ n ih =>
    intro first hle
    rw [closeLoop]
    by_cases he : first = b.last
    · rw [if_pos he]
      refine ⟨n + 1, first, rfl, Nat.le_refl _, hle, ?_⟩
      rw [he, text_last]
      rfl
    · have hlt : first < b.last := by omega
      rw [if_neg he, read_bind hle, text_of_lt hlt]
      by_cases hc : b.byte first = ')'
      · obtain ⟨left, p, hp, h1, h2, h3⟩ := ih (first + 1) hlt
        rw [if_pos hc, hc]
        exact ⟨left, p, hp, by omega, h2, h3⟩
      · rw [if_neg hc]
        refine ⟨n + 1, first, rfl, Nat.le_refl _, hle, ?_⟩
        rw [closeParentheses]
        · rfl
        · intro cs hcs
          exact hc (List.cons.inj hcs).1

theorem closeLoop_follows (n : ℕ) (obj : Object) (hp : first ≤ p) (hl : p ≤ b.last) :
    Follows b first
      (closeLoop b n p >>= fun r =>
        if r.1 ≠ 0 then inputFault "Parentheses mismatch." else .ok (obj, r.2))
      (closeParentheses n (text b p) >>= fun rest => .ok (obj, rest)) := by
  obtain ⟨left, q, hq, h1, h2, h3⟩ := closeLoop_ok n p hl
  rw [hq, h3]
  by_cases h0 : left = 0
  · rw [if_pos h0, except_ok_bind, except_ok_bind, if_neg (not_not.mpr h0)]
    exact follows_ok (by omega) h2
  · rw [if_neg h0, except_ok_bind, if_pos h0]
    exact follows_inputFault

section

variable {parse : (Char → Bool) → ℕ → Except Fault (Object × ℕ)}
  {parse' : (Char → Bool) → Text → Except Failure (Object × Text)}
  (hp : ∀ delim first, first ≤ b.last →
    Follows b first (parse delim first) (parse' delim (text b first)))
include hp

theorem parseBlock_follows (h : first < b.last) :
    Follows b first (parseBlock b parse first)
      (RpcTextParser.parseBlock parse' (text b (first + 1))) := by
  rw [parseBlock, RpcTextParser.parseBlock, turnsFrom_eq]
  apply ((itemsLoop_follows (hp _) _ (first + 1) h).mono (by omega)).bind
  intro items q hq hql
  obtain ⟨r, hqr, hrl, htr, hbind⟩ := skipWspace_bind hql
  dsimp only
  rw [hbind, ← htr]
  by_cases he : r = b.last
  · rw [if_pos he, he, text_last]
    exact follows_inputFault
  · have hlt : r < b.last := by omega
    rw [if_neg he, read_bind hrl, text_of_lt hlt]
    by_cases hc : b.byte r = '}'
    · rw [if_pos hc, hc]
      exact follows_ok (by omega) hlt
    · rw [if_neg hc]
      split
      · rename_i hcs
        exact absurd (List.cons.inj hcs).1 hc
      · exact follows_inputFault

theorem parseFunction_follows (h : first < b.last) :
    Follows b first (parseFunction b parse first)
      (RpcTextParser.parseFunction parse' (text b (first + 1))) := by
  obtain ⟨p, hopen, hfp, hpl, htp⟩ := openLoop_ok (turnsFrom b first) first 1 h (by
    rw [turnsFrom]
    omega)
  have hcount : (text b (first + 1)).length - (text b (p + 1)).length + 1 = 1 + (p - first) := by
    rw [length_text, length_text]
    omega
  rw [parseFunction, RpcTextParser.parseFunction, hopen, except_ok_bind, ← htp]
  simp only [hcount]
  apply follows_lift
  intro flag
  apply ((parseString_follows parseIsDelimFunc hpl).mono (by omega)).bind
  intro key q hq hql
  obtain ⟨r, hqr, hrl, htr, hbind⟩ := skipWspace_bind hql
  dsimp only
  rw [hbind, ← htr]
  by_cases he : r = b.last
  · rw [if_pos he, he, text_last]
    exact follows_inputFault
  · have hlt : r < b.last := by omega
    rw [if_neg he, read_bind hrl, text_of_lt hlt]
    by_cases hcomma : b.byte r = ','
    · rw [hcomma, if_pos (by decide), parseArguments, if_pos rfl, turnsFrom_eq, bind_assoc]
      apply ((itemsLoop_follows (hp _) _ (r + 1) hlt).mono (by omega)).bind
      intro items q' hq' hql'
      obtain ⟨r', hqr', hrl', htr', hbind'⟩ := skipWspace_bind hql'
      dsimp only
      rw [bind_assoc, hbind', except_ok_bind, ← htr']
      exact closeLoop_follows _ _ (by omega) hrl'
    · by_cases hclose : b.byte r = ')'
      · have hfr : first ≤ r := by omega
        have hend := closeLoop_follows (1 + (p - first)) (.dictKey flag key .none) hfr hrl
        rw [text_of_lt hlt, hclose] at hend
        rw [hclose, if_pos (by decide), parseArguments, if_neg (by decide), except_ok_bind]
        exact hend
      · have hd : parseIsDelimFunc (b.byte r) = false := by
          simp [parseIsDelimFunc, parseIsSeperator, hcomma, hclose]
        rw [hd, if_neg (by decide)]
        split
        · rename_i hcs
          exact absurd (List.cons.inj hcs).1 hcomma
        · rename_i hcs
          exact absurd (List.cons.inj hcs).1 hclose
        · exact follows_inputFault

end

/-- At `last` the nul byte is neither of the two brackets, and a string that starts there is
empty. -/
theorem parseObject_follows (depth : ℕ) : ∀ (delim : Char → Bool) (first : ℕ), first ≤ b.last →
    Follows b first (parseObject b depth delim first)
      (RpcTextParser.parseObject depth delim (text b first)) := by
  induction depth with
  | zero => exact fun delim first _ => follows_inputFault
  | succ depth ih =>
    intro delim first hle
    have hstring := @Follows.map b first _ _ _ _ Object.string (parseString_follows delim hle)
    rw [parseObject, read_bind hle]
    by_cases he : first = b.last
    · have hnul := b.nul
      subst he
      rw [hnul, if_neg (by decide), if_neg (by decide)]
      rw [text_last] at hstring ⊢
      exact hstring
    · have hlt : first < b.last := by omega
      rw [text_of_lt hlt] at hstring ⊢
      by_cases hb : b.byte first = '{'
      · rw [if_pos hb, hb]
        exact parseBlock_follows ih hlt
      · rw [if_neg hb]
        by_cases hf : b.byte first = '('
        · rw [if_pos hf, hf]
          exact parseFunction_follows ih hlt
        · rw [if_neg hf, RpcTextParser.parseObject]
          · exact hstring
          · intro cs hcs
            exact hb (List.cons.inj hcs).1
          · intro cs hcs
            exact hf (List.cons.inj hcs).1

/-- The parser on pointers does what the parser on texts does with the text before `last`. -/
theorem parseWholeList_follows (hle : first ≤ b.last) :
    Follows b first (parseWholeList b delim first)
      (RpcTextParser.parseWholeList delim (text b first)) := by
  obtain ⟨p, hfp, hpl, ht, hbind⟩ := skipWspace_bind hle
  rw [parseWholeList, RpcTextParser.parseWholeList, hbind, ← ht]
  apply ((parseObject_follows _ delim p hpl).mono hfp).bind
  intro item q hq hql
  obtain ⟨r, hqr, hrl, htr, hbind'⟩ := skipWspace_bind hql
  dsimp only
  rw [hbind', ← htr]
  by_cases he : r = b.last
  · rw [if_pos he, he, text_last]
    exact follows_last (by omega)
  · have hlt : r < b.last := by omega
    rw [if_neg he, read_bind hrl, text_of_lt hlt]
    dsimp only
    by_cases hs : parseIsSeperator (b.byte r) = true
    · rw [if_pos hs, if_pos hs, turnsFrom_eq, parseList]
      apply ((itemsLoop_follows (parseObject_follows _ delim) _ (r + 1) hlt).mono (by omega)).bind
      intro items p' hp' hpl'
      exact follows_ok hp' hpl'
    · rw [if_neg hs, if_neg hs, ← text_of_lt hlt]
      exact follows_ok (by omega) hrl

end

def locate {α : Type} (last : ℕ) : Except Failure (α × Text) → Except Fault (α × ℕ)
  | .ok r => .ok (r.1, last - r.2.length)
  | .error f => .error (.failure f)

theorem Follows.locate {α : Type} {b : Buffer} {first : ℕ} {x : Except Fault (α × ℕ)}
    {y : Except Failure (α × Text)} (h : Follows b first x y) :
    x = RpcTextPointers.locate b.last y := by
  cases x with
  | error f =>
    obtain ⟨g, rfl, rfl⟩ := h
    rfl
  | ok r =>
    obtain ⟨-, hle, rfl⟩ := h
    have hp : b.last - (text b r.2).length = r.2 := by
      rw [length_text]
      omega
    simp only [RpcTextPointers.locate, hp]

/-- The parser ends with an `input_error`, or at a place between `first` and `last` with an object
at most 1023 levels deep, and nothing from `last` on has a part in it. -/
theorem parseWholeList_bounded (b : Buffer) (delim : Char → Bool) (first : ℕ)
    (h : first ≤ b.last) :
    ((∃ what, parseWholeList b delim first = inputFault what) ∨
      ∃ obj p, parseWholeList b delim first = .ok (obj, p) ∧ first ≤ p ∧ p ≤ b.last ∧
        obj.depth ≤ 1023) ∧
    ∀ b' : Buffer, b'.last = b.last →
      (∀ i, first ≤ i → i < b.last → b'.byte i = b.byte i) →
      parseWholeList b' delim first = parseWholeList b delim first := by
  have hfollows := parseWholeList_follows delim h
  constructor
  · have hyields := parseWholeList_yields delim (text b first)
    cases hx : parseWholeList b delim first with
    | error f =>
      rw [hx] at hfollows
      obtain ⟨g, rfl, hy⟩ := hfollows
      rw [hy] at hyields
      cases g with
      | error kind what =>
        have hk : kind = .inputError := hyields
        rw [hk]
        exact .inl ⟨what, rfl⟩
      | outOfFuel => exact hyields.elim
    | ok r =>
      rw [hx] at hfollows
      obtain ⟨h1, h2, hy⟩ := hfollows
      rw [hy] at hyields
      exact .inr ⟨r.1, r.2, rfl, h1, h2, Nat.le_of_lt_succ hyields.2⟩
  · intro b' hlast hbytes
    have htext : text b' first = text b first := by
      rw [text, text, hlast]
      apply List.map_congr_left
      intro i hi
      have hlt := List.mem_range.mp hi
      exact hbytes _ (by omega) (by omega)
    have hfollows' := parseWholeList_follows delim (hlast ▸ h : first ≤ b'.last)
    rw [hfollows.locate, hfollows'.locate, htext, hlast]

def bufferOf (s : Text) : Buffer where
  byte i := s.getD i '\x00'
  last := s.length
  nul := by simp

theorem short_parse_bounded :
    ((∃ what, parseWholeList (bufferOf "(a,b".toList) parseIsDelimCommand 0 = inputFault what) ∨
      ∃ obj p, parseWholeList (bufferOf "(a,b".toList) parseIsDelimCommand 0 = .ok (obj, p) ∧
        0 ≤ p ∧ p ≤ 4 ∧ obj.depth ≤ 1023) :=
  (parseWholeList_bounded (bufferOf "(a,b".toList) parseIsDelimCommand 0 (Nat.zero_le _)).1

end RpcTextPointers
