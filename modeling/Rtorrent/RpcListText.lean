import Rtorrent.RpcTextParser

/-! # Lists written as text

`convert_list_to_string` puts quotes around every string of a list and escapes what a quoted
string cannot hold. -/
namespace RpcListText

open RpcTextParser

/-- The loop over `quoteItr`. A character that needs a backslash is passed together with it, so
each turn leaves one character less behind `quoteItr`. -/
def escapeLoop (dest : Text) (quoteItr : ℕ) : Text :=
  if h : quoteItr < dest.length then
    if dest[quoteItr] = '"' ∨ dest[quoteItr] = '\\' then
      escapeLoop (dest.insertIdx quoteItr '\\') (quoteItr + 2)
    else escapeLoop dest (quoteItr + 1)
  else dest
termination_by dest.length - quoteItr
decreasing_by
  · rw [List.length_insertIdx_of_le_length (Nat.le_of_lt h)]
    omega
  · omega

/-- One turn of the loop over the list for each item. -/
def convertFrom (dest : Text) : List Object → Except Failure Text
  | [] => .ok dest
  | .string s :: items =>
    let dest := dest ++ if dest.isEmpty then ['"'] else [',', '"']
    convertFrom (escapeLoop (dest ++ s) dest.length ++ ['"']) items
  | _ :: _ => inputError "Could not convert non-string list element to string."

def convertListToString : Object → Except Failure Text
  | .list items => convertFrom [] items
  | _ => .error (.error .internalError "convert_list_to_string(...) !src->is_list().")

def escaped : Text → Text
  | [] => []
  | c :: cs => if c = '"' ∨ c = '\\' then '\\' :: c :: escaped cs else c :: escaped cs

def quoted (s : Text) : Text := '"' :: (escaped s ++ ['"'])

theorem insertIdx_append_length (a : Text) (c : Char) (cs : Text) :
    (a ++ cs).insertIdx a.length c = a ++ c :: cs := by
  induction a with
  | nil => rfl
  | cons d a ih => rw [List.cons_append, List.length_cons, List.insertIdx_succ_cons, ih,
      List.cons_append]

variable (depth : ℕ) (delim : Char → Bool) (s : Text) (l : List Text)

theorem escapeLoop_eq : ∀ a : Text, escapeLoop (a ++ s) a.length = a ++ escaped s := by
  induction s with
  | nil =>
    intro a
    rw [escapeLoop]
    simp [escaped]
  | cons c cs ih =>
    intro a
    have hl : a.length < (a ++ c :: cs).length := by simp
    have hc : (a ++ c :: cs)[a.length] = c := by simp
    rw [escapeLoop, dif_pos hl, hc, escaped]
    split
    · have := ih (a ++ ['\\', c])
      rw [insertIdx_append_length]
      simpa using this
    · have := ih (a ++ [c])
      simpa using this

theorem convertFrom_eq : ∀ dest : Text, dest ≠ [] →
    convertFrom dest (l.map .string) = .ok (dest ++ l.flatMap fun s => ',' :: quoted s) := by
  induction l with
  | nil => simp [convertFrom]
  | cons s l ih =>
    intro dest hd
    have he : dest.isEmpty = false := by simpa using hd
    rw [List.map_cons, convertFrom]
    simp only [he, Bool.false_eq_true, ↓reduceIte, escapeLoop_eq]
    rw [ih _ (by simp)]
    simp [quoted]

theorem convertListToString_cons :
    convertListToString (.list ((s :: l).map .string)) =
      .ok (quoted s ++ l.flatMap fun s => ',' :: quoted s) := by
  rw [List.map_cons, convertListToString, convertFrom]
  simp only [List.isEmpty_nil, ↓reduceIte, List.nil_append, escapeLoop_eq]
  rw [convertFrom_eq l _ (by simp)]
  simp [quoted]

section

variable {parse : Text → Except Failure (Object × Text)} {turns : ℕ} {text rest rest' cs : Text}
  {item : Object} {items : List Object} {c : Char}

theorem parseItems_end (hp : parse (parseSkipWspace text) = .ok (item, rest))
    (hr : parseSkipWspace rest = []) : parseItems parse (turns + 1) text = .ok ([item], []) := by
  rw [parseItems, hp]
  dsimp only [bind, Except.bind]
  rw [hr]

theorem parseItems_next (hp : parse (parseSkipWspace text) = .ok (item, rest))
    (hr : parseSkipWspace rest = ',' :: cs) (hi : parseItems parse turns cs = .ok (items, rest')) :
    parseItems parse (turns + 1) text = .ok (item :: items, rest') := by
  rw [parseItems, hp]
  dsimp only [bind, Except.bind]
  rw [hr]
  dsimp only
  rw [if_pos (by rfl), hi]

end

theorem parseQuoted_escaped (rest : Text) :
    parseQuoted (escaped s ++ '"' :: rest) = .ok (s, rest) := by
  induction s with
  | nil =>
    rw [escaped, List.nil_append, parseQuoted.eq_def]
    simp [parseIsQuote]
  | cons c cs ih =>
    rw [escaped]
    split
    · rw [List.cons_append, List.cons_append, parseQuoted]
      simp only [parseIsQuote, parseIsEscape, Char.reduceBEq, Bool.false_eq_true, ↓reduceIte, ih]
      rfl
    · rename_i hc
      rw [not_or] at hc
      rw [List.cons_append, parseQuoted.eq_def]
      simp only [parseIsQuote, parseIsEscape, beq_iff_eq, hc.1, hc.2, ↓reduceIte, ih]
      rfl

theorem parseObject_quoted (rest : Text) :
    parseObject (depth + 1) delim (quoted s ++ rest) = .ok (.string s, rest) := by
  have hq : quoted s ++ rest = '"' :: (escaped s ++ '"' :: rest) := by simp [quoted]
  rw [hq, parseObject, parseString]
  · rw [if_pos (by rfl), parseQuoted_escaped]
    rfl
  · simp
  · simp

theorem skipWspace_quoted (rest : Text) :
    parseSkipWspace (quoted s ++ rest) = quoted s ++ rest := by
  rfl

theorem parseItems_quoted :
    ∀ (turns : ℕ) (s : Text), l.length < turns →
      parseItems (parseObject (depth + 1) delim) turns
        (quoted s ++ l.flatMap fun s => ',' :: quoted s) = .ok ((s :: l).map .string, []) := by
  induction l with
  | nil =>
    intro turns s ht
    cases turns with
    | zero => cases ht
    | succ turns =>
      apply parseItems_end
      · rw [skipWspace_quoted]
        exact parseObject_quoted depth delim s _
      · rfl
  | cons s' l ih =>
    intro turns s ht
    cases turns with
    | zero => cases ht
    | succ turns =>
      apply parseItems_next
      · rw [skipWspace_quoted]
        exact parseObject_quoted depth delim s _
      · rfl
      · exact ih turns s' (Nat.lt_of_succ_lt_succ ht)

theorem length_flatMap_quoted : l.length ≤ (l.flatMap fun s => ',' :: quoted s).length := by
  induction l with
  | nil => exact Nat.le_refl _
  | cons s l ih =>
    simp only [List.flatMap_cons, List.length_append, List.length_cons]
    omega

theorem parseList_quoted :
    parseList delim (quoted s ++ l.flatMap fun s => ',' :: quoted s) =
      .ok ((s :: l).map .string, []) := by
  have hn := length_flatMap_quoted l
  apply parseItems_quoted
  rw [List.length_append]
  omega

theorem parseWholeList_quoted (s' : Text) (l : List Text) :
    parseWholeList delim (quoted s ++ (s' :: l).flatMap fun s => ',' :: quoted s) =
      .ok (.list ((s :: s' :: l).map .string), []) := by
  have ho := parseObject_quoted 1022 delim s ((s' :: l).flatMap fun s => ',' :: quoted s)
  have hs : parseSkipWspace ((s' :: l).flatMap fun s => ',' :: quoted s) =
    ',' :: (quoted s' ++ l.flatMap fun s => ',' :: quoted s) := rfl
  rw [parseWholeList, skipWspace_quoted, maxParseDepth, ho]
  dsimp only [bind, Except.bind]
  rw [hs]
  dsimp only
  rw [if_pos (by rfl), parseList_quoted]
  rfl

theorem parseWholeList_single : parseWholeList delim (quoted s) = .ok (.string s, []) := by
  have ho := parseObject_quoted 1022 delim s []
  have hs := skipWspace_quoted s []
  rw [List.append_nil] at ho hs
  rw [parseWholeList, hs, maxParseDepth, ho]
  rfl

/-- A list of strings is read back from the text it is written as. Without a separator behind it,
`parse_whole_list` leaves the first string as it is. -/
theorem parse_convertListToString {l : List Text} (hl : l ≠ []) (delim : Char → Bool) :
    ∃ text, convertListToString (.list (l.map .string)) = .ok text ∧
      parseList delim text = .ok (l.map .string, []) ∧
      (2 ≤ l.length → parseWholeList delim text = .ok (.list (l.map .string), [])) ∧
      ∀ s, l = [s] → parseWholeList delim text = .ok (.string s, []) := by
  obtain ⟨s, l, rfl⟩ := List.exists_cons_of_ne_nil hl
  refine ⟨_, convertListToString_cons s l, parseList_quoted delim s l, ?_, ?_⟩
  · intro h
    cases l with
    | nil => simp at h
    | cons s' l => exact parseWholeList_quoted delim s s' l
  · intro s' hs
    cases hs
    rw [List.flatMap_nil, List.append_nil]
    exact parseWholeList_single delim s

/-- A quote, a backslash, a separator and an empty string are all read back. -/
theorem parse_convertListToString_escapes :
    ∃ text, convertListToString (.list ([['"', '\\'], [','], []].map .string)) = .ok text ∧
      parseList parseIsDelimBlock text = .ok ([['"', '\\'], [','], []].map .string, []) := by
  obtain ⟨text, hc, hp, -⟩ :=
    parse_convertListToString (l := [['"', '\\'], [','], []]) (by decide) parseIsDelimBlock
  exact ⟨text, hc, hp⟩

end RpcListText
