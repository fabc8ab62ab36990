import Rtorrent.StringCommands

/-! # Splitting, joining and replacing

All three meet the same occurrences: `string.split` searches a text that stays as it is, and
`string.replace` one of which the part behind the position is still the original. -/
namespace StringSplitting

open FallibleRuns RpcTextParser RpcValueParser Occurrences StringCommands

theorem findFrom_length (needle done rest : Text) :
    findFrom needle (done ++ rest) done.length = (find needle rest).map (done.length + ·) := by
  simp [findFrom]

variable {delim rest : Text} {ps : List Text} {turns : ℕ}

theorem splitLoop_eq (h : Splits delim rest ps) (done : Text)
    (result : List Text) (hturns : ps.length ≤ turns) :
    splitLoop (done ++ rest) delim turns done.length result = .ok (result ++ ps) := by
  induction h generalizing done result turns with
  | @last rest hnot =>
    obtain ⟨turns, rfl⟩ := Nat.exists_eq_add_of_le' hturns
    simp [splitLoop, findFrom_length, find_of_absent hnot]
  | @cut p rest ps hclear _ ih =>
    obtain ⟨turns, rfl⟩ := Nat.exists_eq_add_of_le' (Nat.le_of_add_left_le hturns)
    have hnext := ih (done ++ (p ++ delim)) (result ++ [p]) (Nat.le_of_succ_le_succ hturns)
    simpa [splitLoop, findFrom_length, find_of_clear hclear, Nat.add_assoc] using hnext

variable {old new : Text}

/-- What lies before the position is not looked at again, whatever the new text contains. -/
theorem replaceLoop_eq (h : Splits old rest ps) (done : Text) (hturns : ps.length ≤ turns + 1) :
    replaceLoop old new turns (done ++ rest) (findFrom old (done ++ rest) done.length) =
      .ok (done ++ new.intercalate ps) := by
  induction h generalizing done turns with
  | @last rest hnot =>
    simp [findFrom_length, find_of_absent hnot, replaceLoop, List.intercalate]
  | @cut p rest ps hclear hrest ih =>
    have hpos : 0 < ps.length := List.length_pos_of_ne_nil hrest.ne_nil
    obtain ⟨turns, rfl⟩ :=
      Nat.exists_eq_add_of_le' (Nat.lt_of_lt_of_le hpos (Nat.le_of_succ_le_succ hturns))
    have hnext := ih (done ++ (p ++ new)) (Nat.le_of_succ_le_succ hturns)
    have hdrop : (done ++ (p ++ (old ++ rest))).drop (done.length + (p.length + old.length)) =
        rest := by
      simp
    have htake : (done ++ (p ++ (old ++ rest))).take (done.length + p.length) = done ++ p := by
      rw [← List.append_assoc, ← List.length_append]
      exact List.take_left
    rw [intercalate_cons_of_ne_nil _ _ hrest.ne_nil]
    simpa [findFrom_length, find_of_clear hclear, replaceLoop, hdrop, htake, Nat.add_assoc]
      using hnext

theorem joinLoop_false (delim result : Text) (parts : List Text) :
    joinLoop delim false result parts = result ++ (parts.map (delim ++ ·)).flatten := by
  induction parts generalizing result with
  | nil => simp [joinLoop]
  | cons part parts ih => simp [joinLoop, ih]

theorem joinLoop_eq (delim : Text) (parts : List Text) :
    joinLoop delim true [] parts = delim.intercalate parts := by
  cases parts with
  | nil => simp [joinLoop, List.intercalate]
  | cons part parts =>
    simp only [joinLoop, joinLoop_false]
    induction parts generalizing part with
    | nil => simp [List.intercalate]
    | cons q qs ih =>
      rw [intercalate_cons_of_ne_nil _ _ (List.cons_ne_nil q qs), ← ih q]
      simp

theorem applyStringJoin_eq (delim : Text) (parts : List Text) :
    applyStringJoin [.string delim, .list (parts.map .string)] =
      .ok (.string (delim.intercalate parts)) := by
  have hflat : flattenArguments [.list (parts.map .string)] = .ok parts := by
    simp only [flattenArguments, flattenArgument, flattenArguments_map_string]
    exact congrArg Except.ok (List.append_nil parts)
  have hargs : applyStringJoin [.string delim, .list (parts.map .string)] =
      flattenArguments [.list (parts.map .string)] >>= fun parts =>
        .ok (.string (joinLoop delim true [] parts)) := rfl
  rw [hargs, hflat, ← joinLoop_eq]
  rfl

theorem applyStringSplit_empty (text : Text) :
    applyStringSplit [.string text, .string []] = .ok (.list ((characters text).map .string)) := by
  have hargs : applyStringSplit [.string text, .string []] =
      .ok (.list ((List.range ((utf8Offsets text).length - 1)).map fun i =>
        .string (utf8Substr text (utf8Offsets text) i (i + 1)))) := rfl
  rw [hargs, ← utf8CharacterSet_eq, utf8CharacterSet, List.map_map]
  rfl

variable {text : Text}

theorem applyStringSplit_eq (hne : delim ≠ []) (h : Splits delim text ps) :
    applyStringSplit [.string text, .string delim] = .ok (.list (ps.map .string)) := by
  have hargs : applyStringSplit [.string text, .string delim] =
      if delim = [] then
        .ok (.list ((List.range ((utf8Offsets text).length - 1)).map fun i =>
          .string (utf8Substr text (utf8Offsets text) i (i + 1))))
      else splitLoop text delim (text.length + 1) 0 [] >>= fun parts =>
        .ok (.list (parts.map .string)) := rfl
  have hloop := splitLoop_eq h [] [] (h.length_le hne)
  rw [List.nil_append, List.length_nil, List.nil_append] at hloop
  rw [hargs, if_neg hne, hloop]
  rfl

theorem replacePairs_eq (hne : old ≠ []) (h : Splits old text ps) (args : List Object) :
    replacePairs text (.list [.string old, .string new] :: args) =
      replacePairs (new.intercalate ps) args := by
  have hargs : replacePairs text (.list [.string old, .string new] :: args) =
      if old = [] then inputError "string.replace: the replaced text cannot be empty."
      else replaceLoop old new text.length text (findFrom old text 0) >>= fun text =>
        replacePairs text args := rfl
  have hloop := @replaceLoop_eq text ps text.length old new h [] (h.length_le hne)
  rw [List.nil_append, List.length_nil, List.nil_append] at hloop
  rw [hargs, if_neg hne, hloop]
  rfl

/-- A text is put together again from its parts. With a delimiter the parts are what lies between
its occurrences, without one they are the characters. -/
theorem join_split (text delim : Text) : ∃ parts : List Text,
    applyStringSplit [.string text, .string delim] = .ok (.list (parts.map .string)) ∧
    applyStringJoin [.string delim, .list (parts.map .string)] = .ok (.string text) ∧
    (delim ≠ [] → (∀ part ∈ parts, ¬delim <:+: part) ∧
      parts.length = occurrences delim text + 1) ∧
    (delim = [] → ∀ part ∈ parts, part ≠ []) := by
  by_cases hdelim : delim = []
  · subst hdelim
    refine ⟨characters text, applyStringSplit_empty text, ?_, fun h => absurd rfl h, ?_⟩
    · have hflat : ([] : Text).intercalate (characters text) = text := by
        rw [nil_intercalate, flatten_characters]
      rw [applyStringJoin_eq, hflat]
    · intro _ part hpart
      exact (Segments.isSegments_segments text).nonempty part hpart
  · obtain ⟨ps, hps⟩ := exists_splits hdelim text
    refine ⟨ps, applyStringSplit_eq hdelim hps, ?_, ?_, fun h => absurd h hdelim⟩
    · rw [applyStringJoin_eq, hps.intercalate_eq]
    · exact fun _ => ⟨hps.absent hdelim, hps.length_eq hdelim⟩

theorem replacePairs_cons (text : Text) (pair : Object) (pairs : List Object) :
    replacePairs text (pair :: pairs) =
      replacePairs text [pair] >>= fun text => replacePairs text pairs := by
  simp only [replacePairs]
  cases argumentToPair "string.replace" pair with
  | error e => rfl
  | ok p =>
    by_cases hold : p.1 = []
    · simp [hold, bind, Except.bind, inputError]
    · cases hloop : replaceLoop p.1 p.2 text.length text (findFrom p.1 text 0) with
      | error e => simp [hold, hloop, bind, Except.bind]
      | ok r => simp [hold, hloop, bind, Except.bind]

theorem applyStringReplace_cons (start pair : Object) (pairs : List Object) :
    applyStringReplace (start :: pair :: pairs) = convertToString start >>= fun text =>
      replacePairs text (pair :: pairs) >>= fun text => .ok (.string text) := by
  have hcount : verifyArgumentCount "string.replace" (start :: pair :: pairs) 2 0 = .ok () :=
    verifyArgumentCount_unlimited _ (by simp)
  unfold applyStringReplace
  rw [hcount]
  rfl

/-- Replacing is joining with the new text what splitting at the old one leaves, and several pairs
go one after another. -/
theorem replace_eq_join_split (text old new : Text) (hold : old ≠ []) :
    (∃ result parts : Object,
      applyStringReplace [.string text, .list [.string old, .string new]] = .ok result ∧
      applyStringSplit [.string text, .string old] = .ok parts ∧
      applyStringJoin [.string new, parts] = .ok result) ∧
    ∀ (start pair : Object) (pairs : List Object), pairs ≠ [] →
      applyStringReplace (start :: pair :: pairs) =
        applyStringReplace [start, pair] >>= fun result =>
          applyStringReplace (result :: pairs) := by
  refine ⟨?_, ?_⟩
  · obtain ⟨ps, hps⟩ := exists_splits hold text
    refine ⟨.string (new.intercalate ps), .list (ps.map .string), ?_, applyStringSplit_eq hold hps,
      applyStringJoin_eq new ps⟩
    rw [applyStringReplace_cons, convertToString_string, except_ok_bind, replacePairs_eq hold hps]
    rfl
  · intro start pair pairs hpairs
    obtain ⟨next, pairs, rfl⟩ := List.exists_cons_of_ne_nil hpairs
    simp only [applyStringReplace_cons, bind_assoc, convertToString_string, except_ok_bind]
    simp only [replacePairs_cons _ pair (next :: pairs), bind_assoc]

theorem replace_eq_join_split_overlapping :
    (['a'] : Text) ≠ [] ∧
      ((∃ result parts : Object,
        applyStringReplace [.string ['a', 'b'], .list [.string ['a'], .string ['a', 'a']]] =
          .ok result ∧
        applyStringSplit [.string ['a', 'b'], .string ['a']] = .ok parts ∧
        applyStringJoin [.string ['a', 'a'], parts] = .ok result) ∧
      ∀ (start pair : Object) (pairs : List Object), pairs ≠ [] →
        applyStringReplace (start :: pair :: pairs) =
          applyStringReplace [start, pair] >>= fun result =>
            applyStringReplace (result :: pairs)) :=
  ⟨by decide, replace_eq_join_split ['a', 'b'] ['a'] ['a', 'a'] (by decide)⟩

end StringSplitting
