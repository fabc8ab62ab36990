import Rtorrent.FallibleRuns
import Rtorrent.RpcTextParser

/-! # Text behind a text that has been read

What is read from a text is also read from the text with ` ;` and more behind it, unless an
open string would take the tail in. -/
namespace RpcTextTails

open RpcTextParser FallibleRuns

/-- The separator that `system_method_generate_command` puts in, with what follows it, and the
same behind its blank. -/
def Tail (t : Text) : Prop := ∃ u, t = ' ' :: ';' :: u ∨ t = ';' :: u

def Open (delim : Char → Bool) : Prop := delim ' ' = true ∧ delim ';' = true

/-- `parse` reads the same from a text with a tail. -/
def Extends {α : Type} (delim : Char → Bool) (parse : Text → Except Failure (α × Text)) : Prop :=
  ∀ {text rest : Text} {x : α}, parse text = .ok (x, rest) → ∀ t, Tail t →
    rest ≠ [] ∨ Open delim → parse (text ++ t) = .ok (x, rest ++ t)

variable {t : Text}

theorem Tail.head (h : Tail t) : ∃ c cs, t = c :: cs ∧ (c = ' ' ∨ c = ';') := by
  obtain ⟨u, rfl | rfl⟩ := h
  · exact ⟨_, _, rfl, .inl rfl⟩
  · exact ⟨_, _, rfl, .inr rfl⟩

theorem Tail.skip (h : Tail t) : ∃ u, parseSkipWspace t = ';' :: u := by
  obtain ⟨u, rfl | rfl⟩ := h
  · exact ⟨u, rfl⟩
  · exact ⟨u, rfl⟩

theorem tail_semicolon (u : Text) : Tail (';' :: u) := ⟨u, .inr rfl⟩

variable {text : Text}

theorem skipWspace_append (t : Text) (h : parseSkipWspace text ≠ []) :
    parseSkipWspace (text ++ t) = parseSkipWspace text ++ t := by
  rw [parseSkipWspace, List.dropWhile_append, if_neg (by simpa [parseSkipWspace] using h)]
  rfl

theorem skipWspace_append_cons {cs : Text} {c : Char} (h : parseSkipWspace text = c :: cs)
    (t : Text) : parseSkipWspace (text ++ t) = c :: (cs ++ t) := by
  rw [skipWspace_append t (by rw [h]; exact List.cons_ne_nil c cs), h, List.cons_append]

theorem ne_nil_of_skipWspace (h : parseSkipWspace text ≠ []) : text ≠ [] := by
  rintro rfl
  exact h rfl

theorem skipWspace_blank (t : Text) (h : parseSkipWspace text = []) :
    parseSkipWspace (text ++ t) = parseSkipWspace t := by
  rw [parseSkipWspace, List.dropWhile_append, if_pos (by simpa [parseSkipWspace] using h)]
  rfl

theorem skipWspace_head {cs : Text} {c : Char} (h : parseSkipWspace text = c :: cs) :
    parseIsSpace c = false := by
  induction text with
  | nil => cases h
  | cons d text ih =>
    rw [parseSkipWspace, List.dropWhile_cons] at h
    split at h
    · exact ih h
    · rename_i hd
      cases h
      exact Bool.of_not_eq_true hd

theorem skipWspace_cons {c : Char} (h : parseIsSpace c = false) (cs : Text) :
    parseSkipWspace (c :: cs) = c :: cs := by
  rw [parseSkipWspace, List.dropWhile_cons, if_neg (by simp [h])]

theorem skipWspace_idem (text : Text) :
    parseSkipWspace (parseSkipWspace text) = parseSkipWspace text := by
  cases h : parseSkipWspace text with
  | nil => rfl
  | cons c cs => exact skipWspace_cons (skipWspace_head h) cs

theorem skip_skip_append (text t : Text) :
    parseSkipWspace (parseSkipWspace text ++ t) = parseSkipWspace (text ++ t) := by
  by_cases hs : parseSkipWspace text = []
  · rw [hs, skipWspace_blank t hs, List.nil_append]
  · rw [skipWspace_append t hs, skipWspace_append t (by rwa [skipWspace_idem]), skipWspace_idem]

variable {delim : Char → Bool}

theorem parseUnquoted_tail (hd : Open delim) (ht : Tail t) :
    parseUnquoted delim t = .ok ([], t) := by
  obtain ⟨c, cs, rfl, hc⟩ := ht.head
  have hdc : delim c = true := by
    rcases hc with rfl | rfl
    · exact hd.1
    · exact hd.2
  rw [parseUnquoted.eq_def]
  dsimp only
  rw [if_pos hdc]

theorem parseUnquoted_extends (delim : Char → Bool) : Extends delim (parseUnquoted delim) := by
  intro text rest s h t ht ho
  induction text using parseUnquoted.induct delim generalizing s rest with
  | case1 =>
    cases h
    exact parseUnquoted_tail (ho.resolve_left fun hn => hn rfl) ht
  | case2 c cs hd =>
    unfold parseUnquoted at h
    rw [if_pos hd] at h
    cases h
    rw [List.cons_append, parseUnquoted.eq_def]
    dsimp only
    rw [if_pos hd]
  | case3 c hd he =>
    rw [parseUnquoted] at h
    rw [if_neg hd, if_pos he] at h
    cases h
  | case4 c hd he e cs ih =>
    rw [parseUnquoted] at h
    rw [if_neg hd, if_pos he] at h
    obtain ⟨r, hr, hp⟩ := except_map_ok.mp h
    cases hp
    rw [List.cons_append, List.cons_append, parseUnquoted]
    rw [if_neg hd, if_pos he, ih hr ho]
    rfl
  | case5 c cs hd he ih =>
    unfold parseUnquoted at h
    rw [if_neg hd, if_neg he] at h
    obtain ⟨r, hr, hp⟩ := except_map_ok.mp h
    cases hp
    rw [List.cons_append, parseUnquoted.eq_def]
    dsimp only
    rw [if_neg hd, if_neg he, ih hr ho]
    rfl

theorem parseQuoted_extends (delim : Char → Bool) : Extends delim parseQuoted := by
  intro text rest s h t ht _
  rw [parseQuoted_eq] at h ⊢
  obtain ⟨⟨s', left⟩, hs, h⟩ := except_bind_ok.mp h
  cases left with
  | nil => cases h
  | cons c cs =>
    cases h
    rw [parseUnquoted_extends parseIsQuote hs t ht (.inl (List.cons_ne_nil _ _))]
    rfl

theorem parseString_extends (delim : Char → Bool) : Extends delim (parseString delim) := by
  intro text rest s h t ht ho
  cases text with
  | nil =>
    cases h
    obtain ⟨c, cs, rfl, hc⟩ := id ht.head
    have hq : parseIsQuote c = false := by
      rcases hc with rfl | rfl <;> rfl
    rw [List.nil_append, parseString, if_neg (by simp [hq])]
    exact parseUnquoted_tail (ho.resolve_left fun hn => hn rfl) ht
  | cons c cs =>
    rw [List.cons_append, parseString]
    rw [parseString] at h
    split at h
    · rename_i hq
      rw [if_pos hq]
      exact parseQuoted_extends delim h t ht ho
    · rename_i hq
      rw [if_neg hq]
      exact parseUnquoted_extends delim h t ht ho

def EndsAtEnd {α : Type} (parse : Text → Except Failure (α × Text)) : Prop :=
  ∀ {x : α} {rest : Text}, parse [] = .ok (x, rest) → rest = []

theorem parse_skip_append {α : Type}
    {parse : Text → Except Failure (α × Text)} (hp : Extends delim parse) (hn : EndsAtEnd parse)
    {rest : Text} {x : α} (ht : Tail t) (h : parse (parseSkipWspace text) = .ok (x, rest))
    (ho : rest ≠ [] ∨ Open delim) :
    ∃ left, parse (parseSkipWspace (text ++ t)) = .ok (x, left) ∧
      parseSkipWspace left = parseSkipWspace (rest ++ t) := by
  by_cases hs : parseSkipWspace text = []
  · rw [hs] at h
    obtain rfl := hn h
    obtain ⟨u, hu⟩ := ht.skip
    refine ⟨';' :: u, ?_, by rw [List.nil_append, hu]; rfl⟩
    rw [skipWspace_blank t hs, hu]
    exact hp h (';' :: u) (tail_semicolon u) ho
  · refine ⟨rest ++ t, ?_, rfl⟩
    rw [skipWspace_append t hs]
    exact hp h t ht ho

theorem parseItems_append {parse : Text → Except Failure (Object × Text)}
    (hp : Extends delim parse) (hn : EndsAtEnd parse) (ht : Tail t) (turns : ℕ) :
    ∀ {text rest : Text} {items : List Object} {more : ℕ}, turns ≤ more →
      parseItems parse turns text = .ok (items, rest) → rest ≠ [] ∨ Open delim →
      parseItems parse more (text ++ t) = .ok (items, parseSkipWspace (rest ++ t)) := by
  induction turns with
  | zero =>
    intro text rest items more _ h
    cases h
  | succ turns ih =>
    intro text rest items more hm h ho
    obtain ⟨more, rfl⟩ : ∃ n, more = n + 1 := ⟨more - 1, by omega⟩
    rw [parseItems] at h
    obtain ⟨⟨item, left⟩, hi, h⟩ := except_bind_ok.mp h
    dsimp only at h
    rw [parseItems]
    cases hs : parseSkipWspace left with
    | nil =>
      rw [hs] at h
      cases h
      have hopen := ho.resolve_left fun hne => hne rfl
      obtain ⟨left', hi', hl⟩ := parse_skip_append hp hn ht hi (.inr hopen)
      obtain ⟨u, hu⟩ := ht.skip
      rw [hi', except_ok_bind]
      dsimp only
      rw [hl, skipWspace_blank t hs, List.nil_append, hu]
      rfl
    | cons c cs =>
      rw [hs] at h
      have hne : left ≠ [] := ne_nil_of_skipWspace (by rw [hs]; exact List.cons_ne_nil c cs)
      obtain ⟨left', hi', hl⟩ := parse_skip_append hp hn ht hi (.inl hne)
      rw [hi', except_ok_bind]
      dsimp only at h ⊢
      rw [hl, skipWspace_append_cons hs]
      dsimp only
      split at h
      · rename_i hc
        obtain ⟨⟨items', rest'⟩, his, h⟩ := except_bind_ok.mp h
        cases h
        rw [if_pos hc, ih (by omega) his ho]
        rfl
      · rename_i hc
        cases h
        rw [if_neg hc, List.cons_append, skipWspace_cons (skipWspace_head hs)]

theorem closeParentheses_append (t : Text) (n : ℕ) (text : Text) : ∀ {rest : Text},
    closeParentheses n text = .ok rest → closeParentheses n (text ++ t) = .ok (rest ++ t) := by
  induction n, text using closeParentheses.induct with
  | case1 text =>
    intro rest h
    cases h
    rfl
  | case2 n text ih =>
    intro rest h
    exact ih h
  | case3 n text hne =>
    intro rest h
    rw [closeParentheses] at h
    · cases h
    · exact hne

section

variable {parse : (Char → Bool) → Text → Except Failure (Object × Text)}

theorem parseBlock_extends (hp : ∀ delim, Extends delim (parse delim))
    (hn : ∀ delim, EndsAtEnd (parse delim)) (delim : Char → Bool) :
    Extends delim (parseBlock parse) := by
  intro text rest x h t ht _
  rw [parseBlock] at h
  obtain ⟨⟨items, left⟩, hi, h⟩ := except_bind_ok.mp h
  dsimp only at h
  split at h
  · rename_i rest' hs
    cases h
    have hne : left ≠ [] := ne_nil_of_skipWspace (by rw [hs]; exact List.cons_ne_nil _ _)
    have hle : text.length + 1 ≤ (text ++ t).length + 1 := by simp
    rw [parseBlock, parseItems_append (hp _) (hn _) ht _ hle hi (.inl hne),
      except_ok_bind]
    dsimp only
    rw [skipWspace_idem, skipWspace_append_cons hs]
    rfl
  · cases h

theorem dropWhile_open_append {text : Text} (t : Text) (h : text.dropWhile (· == '(') ≠ []) :
    (text ++ t).dropWhile (· == '(') = text.dropWhile (· == '(') ++ t := by
  rw [List.dropWhile_append, if_neg (by simpa using h)]

theorem parentheses_append {text inner : Text} (t : Text) :
    (text ++ t).length - (inner ++ t).length + 1 = text.length - inner.length + 1 := by
  simp only [List.length_append]
  omega

theorem parseFunction_extends (hp : ∀ delim, Extends delim (parse delim))
    (hn : ∀ delim, EndsAtEnd (parse delim)) (delim : Char → Bool) :
    Extends delim (parseFunction parse) := by
  intro text rest x h t ht _
  rw [parseFunction] at h
  obtain ⟨flag, hf, h⟩ := except_bind_ok.mp h
  obtain ⟨⟨key, left⟩, hk, h⟩ := except_bind_ok.mp h
  have hinner : text.dropWhile (· == '(') ≠ [] := by
    intro he
    rw [he] at hk
    cases hk
    cases h
  dsimp only at h
  rw [parseFunction]
  dsimp only
  rw [dropWhile_open_append t hinner, parentheses_append, hf, except_ok_bind]
  -- The key ends inside of the text, or there would be nothing behind it.
  have hkey : parseSkipWspace left ≠ [] →
      parseString parseIsDelimFunc (text.dropWhile (· == '(') ++ t) = .ok (key, left ++ t) :=
    fun hs => parseString_extends _ hk t ht (.inl (ne_nil_of_skipWspace hs))
  split at h
  · rename_i rest' hs
    have hk' := hkey (by rw [hs]; exact List.cons_ne_nil _ _)
    obtain ⟨⟨items, left'⟩, hi, h⟩ := except_bind_ok.mp h
    obtain ⟨close, hc, h⟩ := except_bind_ok.mp h
    cases h
    have hs' : parseSkipWspace left' ≠ [] := by
      intro he
      rw [he] at hc
      cases hc
    have hle : rest'.length + 1 ≤ (rest' ++ t).length + 1 := by simp
    have hi' := parseItems_append (hp _) (hn _) ht _ hle hi (.inl (ne_nil_of_skipWspace hs'))
    have hc' := closeParentheses_append t _ _ hc
    rw [← skipWspace_append t hs', ← skipWspace_idem] at hc'
    simp only [hk', except_ok_bind, skipWspace_append_cons hs, hi', hc']
  · rename_i rest' hs
    have hk' := hkey (by rw [hs]; exact List.cons_ne_nil _ _)
    obtain ⟨close, hc, h⟩ := except_bind_ok.mp h
    cases h
    have hc' := closeParentheses_append t _ _ hc
    rw [List.cons_append] at hc'
    simp only [hk', except_ok_bind, skipWspace_append_cons hs, hc']
  · cases h

end

theorem parseObject_endsAtEnd (depth : ℕ) (delim : Char → Bool) :
    EndsAtEnd (parseObject depth delim) := by
  intro x rest h
  cases depth with
  | zero => cases h
  | succ depth =>
    cases h
    rfl

theorem parseObject_string (depth : ℕ) (delim : Char → Bool)
    (hb : text.head? ≠ some '{') (hf : text.head? ≠ some '(') :
    parseObject (depth + 1) delim text =
      (parseString delim text).map fun r => (.string r.1, r.2) := by
  rw [parseObject]
  · rintro cs rfl
    exact hb rfl
  · rintro cs rfl
    exact hf rfl

theorem parseObject_extends (depth : ℕ) :
    ∀ delim : Char → Bool, Extends delim (parseObject depth delim) := by
  induction depth with
  | zero =>
    intro delim text rest x h
    cases h
  | succ depth ih =>
    intro delim text rest x h t ht ho
    have hn := parseObject_endsAtEnd depth
    by_cases hb : text.head? = some '{'
    · obtain ⟨cs, rfl⟩ := List.head?_eq_some_iff.mp hb
      exact parseBlock_extends ih hn delim h t ht ho
    by_cases hf : text.head? = some '('
    · obtain ⟨cs, rfl⟩ := List.head?_eq_some_iff.mp hf
      exact parseFunction_extends ih hn delim h t ht ho
    rw [parseObject_string depth delim hb hf] at h
    obtain ⟨⟨s, left⟩, hs, hx⟩ := except_map_ok.mp h
    cases hx
    -- A tail alone is not the start of a list or a function either.
    have hhead : (text ++ t).head? ≠ some '{' ∧ (text ++ t).head? ≠ some '(' := by
      cases text with
      | nil =>
        obtain ⟨c, cs, rfl, rfl | rfl⟩ := ht.head <;> simp
      | cons c cs => exact ⟨hb, hf⟩
    rw [parseObject_string depth delim hhead.1 hhead.2, parseString_extends delim hs t ht ho]
    rfl

/-- What `parse_whole_list` reads with the delimiters of a command, it reads in front of a tail,
where it stops if it stopped at the end. -/
theorem parseWholeList_append (hd : Open delim) {rest : Text}
    {x : Object} (ht : Tail t) (h : parseWholeList delim text = .ok (x, rest)) :
    parseWholeList delim (text ++ t) = .ok (x, parseSkipWspace (rest ++ t)) := by
  have hp : Extends delim (parseObject (maxParseDepth - 1) delim) := parseObject_extends _ delim
  have hn : EndsAtEnd (parseObject (maxParseDepth - 1) delim) := parseObject_endsAtEnd _ delim
  rw [parseWholeList] at h
  obtain ⟨⟨item, left⟩, hi, h⟩ := except_bind_ok.mp h
  obtain ⟨left', hi', hl⟩ := parse_skip_append hp hn ht hi (.inr hd)
  dsimp only at h
  rw [parseWholeList, hi', except_ok_bind]
  dsimp only
  rw [hl]
  cases hs : parseSkipWspace left with
  | nil =>
    rw [hs] at h
    cases h
    obtain ⟨u, hu⟩ := ht.skip
    rw [skipWspace_blank t hs, List.nil_append, hu]
    rfl
  | cons c cs =>
    rw [hs] at h
    rw [skipWspace_append_cons hs]
    dsimp only at h ⊢
    split at h
    · rename_i hc
      obtain ⟨⟨items, rest'⟩, his, h⟩ := except_bind_ok.mp h
      cases h
      have hle : cs.length + 1 ≤ (cs ++ t).length + 1 := by simp
      rw [if_pos hc, parseList, parseItems_append hp hn ht _ hle his (.inr hd)]
      rfl
    · rename_i hc
      cases h
      rw [if_neg hc, List.cons_append, skipWspace_cons (skipWspace_head hs)]

theorem open_command : Open parseIsDelimCommand := ⟨rfl, rfl⟩

end RpcTextTails
