import Rtorrent.MethodCommands

/-! # The option texts that are accepted

`parse_option_flags` and `parse_option_for_each` read tokens between `|` and look each one up. Here
the calls of the lookup are recorded. -/
namespace OptionTokens

open RpcTextParser MethodCommands

section Loop

variable {σ : Type}

/-- The loop of both functions on the rest of the option: the calls of the lookup, and the
result. -/
def optionLoop (option : Text) (visit : σ → Text → Except Failure σ) :
    ℕ → Text → σ → List Text × Except Failure σ
  | 0, _, _ => ([], .error .outOfFuel)
  | turns + 1, rest, state =>
    let first := skipSpace rest
    if first.isEmpty then ([], .ok state)
    else
      let name := first.takeWhile isOptionChar
      if name.isEmpty then ([], inputError (String.ofList option))
      else
        match visit state name with
        | .error e => ([name], .error e)
        | .ok state =>
          match skipSpace (first.dropWhile isOptionChar) with
          | [] => ([name], .ok state)
          | c :: next =>
            if c ≠ '|' ∨ next.isEmpty then ([name], inputError (String.ofList option))
            else
              let later := optionLoop option visit turns next state
              (name :: later.1, later.2)

end Loop

abbrev Lookup := Text → Except Failure (BitVec 32)

def flagVisit (ftor : Lookup) (flags : BitVec 32) (name : Text) : Except Failure (BitVec 32) :=
  addFlag flags <$> ftor name

def eachVisit (ftor : Lookup) (_ : Unit) (name : Text) : Except Failure Unit :=
  (fun _ => ()) <$> ftor name

def parseOptionFlagsCalls (option : Text) (ftor : Lookup) (flags : BitVec 32) :
    List Text × Except Failure (BitVec 32) :=
  optionLoop option (flagVisit ftor) (option.length + 1) option flags

def parseOptionForEach (option : Text) (ftor : Lookup) : List Text × Except Failure Unit :=
  optionLoop option (eachVisit ftor) (option.length + 1) option ()

theorem optionLoop_flags (option : Text) (ftor : Lookup) (turns : ℕ) (rest : Text)
    (flags : BitVec 32) :
    (optionLoop option (flagVisit ftor) turns rest flags).2 =
      optionFlags option ftor turns rest flags := by
  induction turns generalizing rest flags with
  | zero => rfl
  | succ turns ih =>
    rw [optionLoop, optionFlags]
    split
    · rfl
    simp only
    split
    · rfl
    rw [flagVisit]
    cases ftor ((skipSpace rest).takeWhile isOptionChar) with
    | error e => rfl
    | ok f =>
      dsimp only [Functor.map, Except.map, Bind.bind, Except.bind]
      cases skipSpace ((skipSpace rest).dropWhile isOptionChar) with
      | nil => rfl
      | cons c next =>
        dsimp only
        split
        · rfl
        · exact ih next (addFlag flags f)

theorem parseOptionFlagsCalls_result (option : Text) (ftor : Lookup) (flags : BitVec 32) :
    (parseOptionFlagsCalls option ftor flags).2 = parseOptionFlags option ftor flags :=
  optionLoop_flags option ftor (option.length + 1) option flags

def token (field : Text) : Text := (skipSpace field).takeWhile isOptionChar

def behind (field : Text) : Text := skipSpace ((skipSpace field).dropWhile isOptionChar)

def Blank (text : Text) : Prop := ∀ c ∈ text, isSpace c = true

/-- A token with optional whitespace around it. -/
def IsField (field name : Text) : Prop :=
  ∃ before after, field = before ++ name ++ after ∧ Blank before ∧ Blank after ∧ name ≠ [] ∧
    ∀ c ∈ name, isOptionChar c = true

theorem not_optionChar_of_space {c : Char} (h : isSpace c = true) : isOptionChar c = false := by
  simp only [isSpace, Bool.or_eq_true, beq_iff_eq] at h
  rcases h with ((((rfl | rfl) | rfl) | rfl) | rfl) | rfl <;> decide

/-- The character, if there is one, at which a search for the end of `p` stops. -/
def StopsAt (p : Char → Bool) (tail : Text) : Prop := ∀ c ∈ tail.head?, p c = false

section Stops

variable {p : Char → Bool} {tail : Text}

theorem StopsAt.dropWhile (h : StopsAt p tail) : tail.dropWhile p = tail := by
  cases tail with
  | nil => rfl
  | cons c tail => exact List.dropWhile_cons_of_neg (by simp [h c rfl])

theorem StopsAt.takeWhile (h : StopsAt p tail) : tail.takeWhile p = [] := by
  cases tail with
  | nil => rfl
  | cons c tail => exact List.takeWhile_cons_of_neg (by simp [h c rfl])

theorem dropWhile_append_tail (h : StopsAt p tail) (text : Text) :
    (text ++ tail).dropWhile p = text.dropWhile p ++ tail := by
  rw [List.dropWhile_append, h.dropWhile]
  split
  · next hall => rw [List.isEmpty_iff.mp hall, List.nil_append]
  · rfl

theorem takeWhile_append_tail (h : StopsAt p tail) (text : Text) :
    (text ++ tail).takeWhile p = text.takeWhile p := by
  rw [List.takeWhile_append, h.takeWhile, List.append_nil]
  split
  · next hall => exact ((List.takeWhile_prefix p).eq_of_length hall).symm
  · rfl

end Stops

theorem skipSpace_eq_nil {text : Text} : skipSpace text = [] ↔ Blank text :=
  List.dropWhile_eq_nil_iff

theorem Blank.stopsAt {text : Text} (h : Blank text) : StopsAt isOptionChar text := fun c hc =>
  not_optionChar_of_space (h c (List.mem_of_head? hc))

theorem stopsAt_of_optionChars {name : Text} (h : ∀ c ∈ name, isOptionChar c = true)
    (hne : name ≠ [])
    (rest : Text) : StopsAt isSpace (name ++ rest) := by
  cases name with
  | nil => exact absurd rfl hne
  | cons d name =>
    intro c hc
    cases hc
    by_contra hspace
    rw [Bool.not_eq_false] at hspace
    have hchar := h d List.mem_cons_self
    rw [not_optionChar_of_space hspace] at hchar
    cases hchar

variable {field : Text}

theorem isField_iff {name : Text} :
    IsField field name ↔ token field = name ∧ name ≠ [] ∧ behind field = [] := by
  constructor
  · rintro ⟨before, after, rfl, hbefore, hafter, hne, hchars⟩
    have hskip : skipSpace (before ++ name ++ after) = name ++ after := by
      rw [List.append_assoc, skipSpace,
        dropWhile_append_tail (stopsAt_of_optionChars hchars hne after),
        ← skipSpace, skipSpace_eq_nil.mpr hbefore, List.nil_append]
    refine ⟨?_, hne, ?_⟩
    · rw [token, hskip, takeWhile_append_tail hafter.stopsAt]
      exact List.takeWhile_eq_self_iff.mpr hchars
    · rw [behind, hskip, dropWhile_append_tail hafter.stopsAt, List.dropWhile_eq_nil_iff.mpr hchars,
        List.nil_append]
      exact skipSpace_eq_nil.mpr hafter
  · rintro ⟨rfl, hne, hbehind⟩
    refine ⟨field.takeWhile isSpace, (skipSpace field).dropWhile isOptionChar, ?_, ?_,
      skipSpace_eq_nil.mp hbehind, hne, ?_⟩
    · rw [List.append_assoc, token, List.takeWhile_append_dropWhile, skipSpace,
        List.takeWhile_append_dropWhile]
    · intro c hc
      exact List.mem_takeWhile_imp hc
    · intro c hc
      exact List.mem_takeWhile_imp hc

/-- The tokens up to the first error: a field without a token or with something behind it, or a
token that the lookup does not accept. -/
def tokensRead (ftor : Lookup) : List Text → List Text
  | [] => []
  | field :: fields =>
    if token field = [] then []
    else
      token field ::
        if behind field = [] ∧ (ftor (token field)).isOk then tokensRead ftor fields else []

def Good (ftor : Lookup) (field : Text) : Prop :=
  ∃ name, IsField field name ∧ (ftor name).isOk = true

variable {ftor : Lookup}

theorem good_iff :
    Good ftor field ↔ token field ≠ [] ∧ behind field = [] ∧ (ftor (token field)).isOk = true := by
  constructor
  · rintro ⟨name, hfield, hok⟩
    obtain ⟨rfl, hne, hbehind⟩ := isField_iff.mp hfield
    exact ⟨hne, hbehind, hok⟩
  · rintro ⟨hne, hbehind, hok⟩
    exact ⟨token field, isField_iff.mpr ⟨rfl, hne, hbehind⟩, hok⟩

def Passes (ftor : Lookup) : List Text → Prop
  | [] => False
  | [field] => Blank field ∨ Good ftor field
  | field :: next :: fields =>
    Good ftor field ∧ (next :: fields ≠ [[]]) ∧ Passes ftor (next :: fields)

section Steps

variable {σ : Type} {option : Text} {visit : σ → Text → Except Failure σ} {ftor : Lookup}
  {turns : ℕ} {rest name : Text} {state : σ}

theorem turn_blank (h : skipSpace rest = []) :
    optionLoop option visit (turns + 1) rest state = ([], .ok state) := by
  rw [optionLoop, h]
  rfl

theorem turn_no_token (h : skipSpace rest ≠ []) (hname : token rest = []) :
    optionLoop option visit (turns + 1) rest state = ([], inputError (String.ofList option)) := by
  rw [token] at hname
  simp only [optionLoop, hname, List.isEmpty_iff, if_neg h, if_true]

theorem skipSpace_ne_nil (h : token rest ≠ []) : skipSpace rest ≠ [] := by
  intro hskip
  rw [token, hskip] at h
  exact h rfl

theorem turn_rejected (h : token rest ≠ []) {e : Failure}
    (hvisit : visit state (token rest) = .error e) :
    optionLoop option visit (turns + 1) rest state = ([token rest], .error e) := by
  have hskip := skipSpace_ne_nil h
  rw [token] at h hvisit
  simp only [optionLoop, List.isEmpty_iff, if_neg h, if_neg hskip, hvisit, token]

variable {after : σ}

theorem turn_end (h : token rest ≠ []) (hvisit : visit state (token rest) = .ok after)
    (hbehind : behind rest = []) :
    optionLoop option visit (turns + 1) rest state = ([token rest], .ok after) := by
  have hskip := skipSpace_ne_nil h
  rw [token] at h hvisit
  rw [behind] at hbehind
  simp only [optionLoop, List.isEmpty_iff, if_neg h, if_neg hskip, hvisit, hbehind, token]

theorem turn_bad (h : token rest ≠ []) (hvisit : visit state (token rest) = .ok after)
    {c : Char} {next : Text} (hbehind : behind rest = c :: next) (hbad : c ≠ '|' ∨ next = []) :
    optionLoop option visit (turns + 1) rest state =
      ([token rest], inputError (String.ofList option)) := by
  have hskip := skipSpace_ne_nil h
  rw [token] at h hvisit
  rw [behind] at hbehind
  simp only [optionLoop, List.isEmpty_iff, if_neg h, if_neg hskip, hvisit, hbehind, if_pos hbad,
    token]

theorem turn_next (h : token rest ≠ []) (hvisit : visit state (token rest) = .ok after)
    {next : Text} (hbehind : behind rest = '|' :: next) (hnext : next ≠ []) :
    optionLoop option visit (turns + 1) rest state =
      (token rest :: (optionLoop option visit turns next after).1,
        (optionLoop option visit turns next after).2) := by
  have hskip := skipSpace_ne_nil h
  have hgood : ¬('|' ≠ '|' ∨ next = []) := by simp [hnext]
  rw [token] at h hvisit
  rw [behind] at hbehind
  simp only [optionLoop, List.isEmpty_iff, if_neg h, if_neg hskip, hvisit, hbehind, if_neg hgood,
    token]

theorem skipSpace_tail (field next : Text) :
    skipSpace (field ++ '|' :: next) = skipSpace field ++ '|' :: next :=
  dropWhile_append_tail (fun c hc => by cases hc; decide) field

theorem token_tail (field next : Text) : token (field ++ '|' :: next) = token field := by
  rw [token, skipSpace_tail, takeWhile_append_tail (fun c hc => by cases hc; decide), token]

theorem behind_tail (field next : Text) :
    behind (field ++ '|' :: next) = behind field ++ '|' :: next := by
  rw [behind, skipSpace_tail, dropWhile_append_tail (fun c hc => by cases hc; decide),
    skipSpace_tail, behind]

variable {field : Text}

theorem ne_separator_of_behind {c : Char} (hfield : '|' ∉ field)
    (h : behind field = c :: rest) : c ≠ '|' := by
  rintro rfl
  apply hfield
  have hmem : '|' ∈ behind field := h ▸ List.mem_cons_self
  have hdrop := (List.dropWhile_sublist _).subset hmem
  have hskip := (List.dropWhile_sublist _).subset hdrop
  exact (List.dropWhile_sublist _).subset hskip

theorem token_of_blank (h : Blank field) : token field = [] := by
  rw [token, skipSpace_eq_nil.mpr h, List.takeWhile_nil]

theorem turn_not_good (option : Text) (turns : ℕ) (state : σ)
    (hvisit : ∀ state name, (visit state name).isOk = (ftor name).isOk) {tail : Text}
    (hfield : '|' ∉ field) (htail : tail = [] ∨ ∃ next, tail = '|' :: next)
    (hbad : ¬Good ftor field) (hblank : Blank field → tail ≠ []) (fields : List Text) :
    (optionLoop option visit (turns + 1) (field ++ tail) state).1 =
        tokensRead ftor (field :: fields) ∧
      (optionLoop option visit (turns + 1) (field ++ tail) state).2.isOk = false := by
  have htoken : token (field ++ tail) = token field := by
    rcases htail with rfl | ⟨next, rfl⟩
    · rw [List.append_nil]
    · exact token_tail field next
  have hbehind : behind (field ++ tail) = behind field ++ tail := by
    rcases htail with rfl | ⟨next, rfl⟩
    · rw [List.append_nil, List.append_nil]
    · exact behind_tail field next
  rw [tokensRead]
  by_cases hname : token field = []
  · have hskip : skipSpace (field ++ tail) ≠ [] := by
      intro hnil
      have hall := skipSpace_eq_nil.mp hnil
      have htailNe := hblank fun c hc => hall c (List.mem_append_left _ hc)
      obtain ⟨next, rfl⟩ := htail.resolve_left htailNe
      exact absurd (hall '|' (List.mem_append_right _ List.mem_cons_self)) (by decide)
    rw [turn_no_token hskip (htoken.trans hname), if_pos hname]
    exact ⟨rfl, rfl⟩
  rw [← htoken] at hname
  rw [if_neg (htoken ▸ hname)]
  have hread : ¬(behind field = [] ∧ (ftor (token field)).isOk = true) := by
    rintro ⟨hend, hok⟩
    exact hbad (good_iff.mpr ⟨htoken ▸ hname, hend, hok⟩)
  rw [if_neg hread]
  cases hlookup : visit state (token (field ++ tail)) with
  | error e =>
    rw [turn_rejected hname hlookup, htoken]
    exact ⟨rfl, rfl⟩
  | ok after =>
    have hok := hvisit state (token (field ++ tail))
    rw [hlookup, htoken] at hok
    cases hend : behind field with
    | nil => exact absurd ⟨hend, hok.symm⟩ hread
    | cons c next =>
      have hc := ne_separator_of_behind hfield hend
      rw [hend, List.cons_append] at hbehind
      rw [turn_bad hname hlookup hbehind (.inl hc), htoken]
      exact ⟨rfl, rfl⟩

theorem exists_visit (hvisit : ∀ state name, (visit state name).isOk = (ftor name).isOk)
    (h : (ftor name).isOk = true) (state : σ) : ∃ after, visit state name = .ok after := by
  have hok := (hvisit state name).trans h
  cases hresult : visit state name with
  | ok after => exact ⟨after, rfl⟩
  | error e =>
    rw [hresult] at hok
    cases hok

theorem tokensRead_of_good (h : Good ftor field) (fields : List Text) :
    tokensRead ftor (field :: fields) = token field :: tokensRead ftor fields := by
  obtain ⟨hname, hbehind, hok⟩ := good_iff.mp h
  rw [tokensRead, if_neg hname, if_pos ⟨hbehind, hok⟩]

/-- The loop calls the lookup for the tokens up to the first error and ends without one just when
the fields pass. The induction is on the turns. -/
theorem optionLoop_spec (hvisit : ∀ state name, (visit state name).isOk = (ftor name).isOk)
    (h : rest.length < turns) (state : σ) :
    (optionLoop option visit turns rest state).1 = tokensRead ftor (rest.splitOn '|') ∧
      ((optionLoop option visit turns rest state).2.isOk = true ↔
        Passes ftor (rest.splitOn '|')) := by
  induction turns generalizing rest state with
  | zero => omega
  | succ turns ih =>
    by_cases hsep : '|' ∈ rest
    · obtain ⟨field, next, rfl, hfield⟩ := List.eq_append_cons_of_mem hsep
      obtain ⟨first, fields, hfields⟩ := List.exists_cons_of_ne_nil (List.splitOn_ne_nil '|' next)
      rw [List.splitOn_append_cons_self_of_not_mem hfield, hfields]
      by_cases hgood : Good ftor field
      · obtain ⟨hname, hbehind, hok⟩ := good_iff.mp hgood
        obtain ⟨after, hafter⟩ := exists_visit hvisit hok state
        rw [← token_tail field next] at hname hafter
        have hrest : behind (field ++ '|' :: next) = '|' :: next := by
          rw [behind_tail, hbehind, List.nil_append]
        rw [tokensRead_of_good hgood, Passes]
        by_cases hnext : next = []
        · rw [turn_bad hname hafter hrest (.inr hnext), token_tail]
          cases hnext
          cases hfields
          exact ⟨rfl, iff_of_false Bool.false_ne_true fun hpass => hpass.2.1 rfl⟩
        · have hshorter : next.length < turns := by
            simp only [List.length_append, List.length_cons] at h
            omega
          have hlater := ih hshorter after
          rw [hfields] at hlater
          have hmore : first :: fields ≠ [[]] := by
            intro hempty
            have hjoin : ['|'].intercalate (next.splitOn '|') = next := List.intercalate_splitOn '|'
            rw [hfields, hempty] at hjoin
            exact hnext hjoin.symm
          rw [turn_next hname hafter hrest hnext, token_tail, hlater.1]
          refine ⟨rfl, hlater.2.trans ?_⟩
          exact ⟨fun hpass => ⟨hgood, hmore, hpass⟩, fun hpass => hpass.2.2⟩
      · obtain ⟨hcalls, hfails⟩ := turn_not_good option turns state hvisit hfield
          (.inr ⟨next, rfl⟩) hgood (fun _ => List.cons_ne_nil _ _) (first :: fields)
        rw [hcalls, hfails, Passes]
        exact ⟨rfl, iff_of_false Bool.false_ne_true fun hpass => hgood hpass.1⟩
    · rw [List.splitOn_eq_singleton hsep, Passes]
      by_cases hblank : Blank rest
      · rw [turn_blank (skipSpace_eq_nil.mpr hblank), tokensRead, if_pos (token_of_blank hblank)]
        exact ⟨rfl, iff_of_true rfl (.inl hblank)⟩
      by_cases hgood : Good ftor rest
      · obtain ⟨hname, hbehind, hok⟩ := good_iff.mp hgood
        obtain ⟨after, hafter⟩ := exists_visit hvisit hok state
        rw [turn_end hname hafter hbehind, tokensRead_of_good hgood]
        exact ⟨rfl, iff_of_true rfl (.inr hgood)⟩
      · have hturn := turn_not_good option turns state hvisit hsep (.inl rfl) hgood
          (fun hb => absurd hb hblank) []
        rw [List.append_nil] at hturn
        rw [hturn.1, hturn.2]
        exact ⟨rfl, iff_of_false Bool.false_ne_true fun hpass => hpass.elim hblank hgood⟩

end Steps

/-- A blank text, or tokens that the lookup accepts, with single `|` between and whitespace around
them. -/
def Accepted (ftor : Lookup) (option : Text) : Prop :=
  Blank option ∨ ∀ field ∈ option.splitOn '|', Good ftor field

/-- Accepted tokens with a separator behind the last and then only whitespace, at least one. -/
def TrailingSeparator (ftor : Lookup) (option : Text) : Prop :=
  ∃ fields last, option.splitOn '|' = fields ++ [last] ∧ fields ≠ [] ∧
    (∀ field ∈ fields, Good ftor field) ∧ last ≠ [] ∧ Blank last

theorem not_good_of_blank (h : Blank field) : ¬Good ftor field :=
  fun hgood => (good_iff.mp hgood).1 (token_of_blank h)

theorem good_ne_nil (h : Good ftor field) : field ≠ [] := by
  rintro rfl
  exact (good_iff.mp h).1 rfl

theorem passes_concat (ftor : Lookup) (init : List Text) (last : Text) :
    Passes ftor (init ++ [last]) ↔
      (∀ field ∈ init, Good ftor field) ∧
        (Good ftor last ∨ Blank last ∧ (init ≠ [] → last ≠ [])) := by
  induction init with
  | nil =>
    simp only [List.nil_append, Passes]
    constructor
    · rintro (hblank | hgood)
      · exact ⟨by simp, .inr ⟨hblank, fun h => absurd rfl h⟩⟩
      · exact ⟨by simp, .inl hgood⟩
    · rintro ⟨-, hgood | hblank⟩
      · exact .inr hgood
      · exact .inl hblank.1
  | cons field init ih =>
    cases init with
    | nil =>
      simp only [List.nil_append, List.cons_append, Passes, List.mem_singleton, forall_eq]
      constructor
      · rintro ⟨hfield, hne, hblank | hgood⟩
        · exact ⟨hfield, .inr ⟨hblank, fun _ hnil => hne (by rw [hnil])⟩⟩
        · exact ⟨hfield, .inl hgood⟩
      · rintro ⟨hfield, hgood | ⟨hblank, hne⟩⟩
        · exact ⟨hfield, fun hnil => good_ne_nil hgood (List.cons.inj hnil).1, .inr hgood⟩
        · exact ⟨hfield, fun hnil => hne (by simp) (List.cons.inj hnil).1, .inl hblank⟩
    | cons next init =>
      simp only [List.cons_append, Passes] at ih ⊢
      rw [ih]
      have hmore : next :: (init ++ [last]) ≠ [[]] := by simp
      simp [hmore, and_assoc]

theorem splitOn_of_blank {option : Text} (h : Blank option) : option.splitOn '|' = [option] :=
  List.splitOn_eq_singleton fun hmem => absurd (h '|' hmem) (by decide)

theorem passes_splitOn (ftor : Lookup) (option : Text) :
    Passes ftor (option.splitOn '|') ↔ Accepted ftor option ∨ TrailingSeparator ftor option := by
  constructor
  · intro hpass
    rcases List.eq_nil_or_concat (option.splitOn '|') with hnil | ⟨init, last, hconcat⟩
    · exact absurd hnil (List.splitOn_ne_nil '|' option)
    rw [List.concat_eq_append] at hconcat
    rw [hconcat, passes_concat] at hpass
    obtain ⟨hinit, hgood | ⟨hblank, hne⟩⟩ := hpass
    · refine .inl (.inr fun field hfield => ?_)
      rw [hconcat, List.mem_append] at hfield
      exact hfield.elim (hinit field) fun hlast => List.mem_singleton.mp hlast ▸ hgood
    · by_cases hempty : init = []
      · have hjoin : ['|'].intercalate (option.splitOn '|') = option := List.intercalate_splitOn '|'
        rw [hconcat, hempty] at hjoin
        have hlast : last = option := by simpa using hjoin
        exact .inl (.inl (hlast ▸ hblank))
      · exact .inr ⟨init, last, hconcat, hempty, hinit, hne hempty, hblank⟩
  · rintro ((hblank | hall) | ⟨init, last, hsplit, -, hinit, hne, hblank⟩)
    · rw [splitOn_of_blank hblank]
      exact .inl hblank
    · rcases List.eq_nil_or_concat (option.splitOn '|') with hnil | ⟨init, last, hconcat⟩
      · exact absurd hnil (List.splitOn_ne_nil '|' option)
      rw [List.concat_eq_append] at hconcat
      rw [hconcat] at hall ⊢
      exact (passes_concat ftor init last).mpr ⟨fun field hfield => hall field (by simp [hfield]),
        .inl (hall last (by simp))⟩
    · rw [hsplit]
      exact (passes_concat ftor init last).mpr ⟨hinit, .inr ⟨hblank, fun _ => hne⟩⟩

theorem not_accepted_of_trailing {option : Text}
    (h : TrailingSeparator ftor option) : ¬Accepted ftor option := by
  obtain ⟨fields, last, hsplit, hfields, -, -, hblank⟩ := h
  rintro (hoption | hall)
  · rw [splitOn_of_blank hoption] at hsplit
    have hlength := congrArg List.length hsplit
    have hpos := List.length_pos_of_ne_nil hfields
    simp only [List.length_append, List.length_singleton] at hlength
    omega
  · exact not_good_of_blank hblank (hall last (by rw [hsplit]; simp))

/-- Both functions accept the texts they should, call the lookup for the tokens up to the first
error, and agree. -/
structure Parses (option : Text) (ftor : Lookup) : Prop where
  flags : ∀ flags, (parseOptionFlags option ftor flags).isOk = true ↔ Accepted ftor option
  each : (parseOptionForEach option ftor).2.isOk = true ↔ Accepted ftor option
  flagsCalls : ∀ flags,
    (parseOptionFlagsCalls option ftor flags).1 = tokensRead ftor (option.splitOn '|')
  eachCalls : (parseOptionForEach option ftor).1 = tokensRead ftor (option.splitOn '|')
  agree : ∀ flags,
    (parseOptionFlags option ftor flags).isOk = (parseOptionForEach option ftor).2.isOk

theorem isOk_map {α β : Type} (f : α → β) (result : Except Failure α) :
    (f <$> result).isOk = result.isOk := by
  cases result <;> rfl

theorem parseOptionFlags_spec (option : Text) (ftor : Lookup) (flags : BitVec 32) :
    (parseOptionFlagsCalls option ftor flags).1 = tokensRead ftor (option.splitOn '|') ∧
      ((parseOptionFlags option ftor flags).isOk = true ↔
        Accepted ftor option ∨ TrailingSeparator ftor option) := by
  rw [← parseOptionFlagsCalls_result, ← passes_splitOn]
  apply optionLoop_spec _ (Nat.lt_succ_self option.length)
  exact fun flags name => isOk_map (addFlag flags) (ftor name)

theorem parseOptionForEach_spec (option : Text) (ftor : Lookup) :
    (parseOptionForEach option ftor).1 = tokensRead ftor (option.splitOn '|') ∧
      ((parseOptionForEach option ftor).2.isOk = true ↔
        Accepted ftor option ∨ TrailingSeparator ftor option) := by
  rw [← passes_splitOn]
  apply optionLoop_spec _ (Nat.lt_succ_self option.length)
  exact fun _ name => isOk_map (fun _ => ()) (ftor name)

/-- The only texts that are taken wrongly are those with a separator at the end and whitespace
behind it. -/
theorem parses_iff (option : Text) (ftor : Lookup) :
    Parses option ftor ↔ ¬TrailingSeparator ftor option := by
  constructor
  · intro h htrailing
    have haccepted := h.each.mp ((parseOptionForEach_spec option ftor).2.mpr (.inr htrailing))
    exact not_accepted_of_trailing htrailing haccepted
  · intro hnone
    have hiff : Accepted ftor option ∨ TrailingSeparator ftor option ↔ Accepted ftor option :=
      or_iff_left hnone
    refine ⟨fun flags => ?_, ?_, fun flags => (parseOptionFlags_spec option ftor flags).1,
      (parseOptionForEach_spec option ftor).1, fun flags => ?_⟩
    · exact (parseOptionFlags_spec option ftor flags).2.trans hiff
    · exact (parseOptionForEach_spec option ftor).2.trans hiff
    · rw [Bool.eq_iff_iff, (parseOptionFlags_spec option ftor flags).2,
        (parseOptionForEach_spec option ftor).2]

/-- A separator and a space behind a token. -/
theorem trailing_separator_accepted :
    parseOptionFlags ['a', '|', ' '] (fun _ => .ok 1) 0 = .ok 1 ∧
      ¬Accepted (fun _ => .ok 1) ['a', '|', ' '] := by
  refine ⟨by decide, ?_⟩
  rintro (hblank | hall)
  · exact absurd (hblank 'a' List.mem_cons_self) (by decide)
  · have hlast : Good (fun _ => .ok 1) [' '] := hall [' '] (by decide)
    exact (good_iff.mp hlast).1 (by decide)

end OptionTokens
