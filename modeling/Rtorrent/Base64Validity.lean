import Rtorrent.Base64RoundTrip

/-! # What base64 decodes

The decoder looks for pad characters where it meets one, by the distance to the end. With two
characters left it does not look at the last one. -/
namespace Base64Validity

open RpcTextParser XmlRpcDocument

def inAlphabet (c : Char) : Bool :=
  ('A' ≤ c && c ≤ 'Z') || ('a' ≤ c && c ≤ 'z') || ('0' ≤ c && c ≤ '9') || c == '+' || c == '/'

/-- Characters of the alphabet, and then no, one or two pad characters. -/
def Valid (text : Text) : Prop :=
  text.length % 4 = 0 ∧ ∃ digits pads, text = digits ++ pads ∧ digits.all inAlphabet = true ∧
    (pads = [] ∨ pads = ['='] ∨ pads = ['=', '='])

/-- Exactly the valid texts are decoded, to three bytes for four characters, less one for each
pad. -/
structure Decodes (text : Text) : Prop where
  valid : Valid text → ∃ bytes, decodeBase64 text = .ok bytes ∧
    bytes.length + text.count '=' = text.length / 4 * 3
  refused : ¬Valid text → ∃ what, decodeBase64 text = .error (.inputError what)

/-- One pad character with another character behind it. -/
def Unfinished (text : Text) : Prop :=
  text.length % 4 = 0 ∧ ∃ digits c, text = digits ++ ['=', c] ∧ digits.all inAlphabet = true ∧
    c ≠ '='

theorem isSome_base64Digit (c : Char) : (base64Digit c).isSome = inAlphabet c := by
  unfold base64Digit inAlphabet
  repeat' split
  all_goals simp_all

theorem exists_digit {c : Char} (h : inAlphabet c = true) : ∃ digit, base64Digit c = some digit :=
  Option.isSome_iff_exists.mp ((isSome_base64Digit c).trans h)

theorem no_digit {c : Char} (h : inAlphabet c = false) : base64Digit c = none :=
  Option.not_isSome_iff_eq_none.mp (by rw [isSome_base64Digit, h]; exact Bool.false_ne_true)

theorem decodeQuanta_digits {digits : Text} (h : digits.all inAlphabet = true) (rest : Text)
    {position : ℕ}
    (hposition : position < 4) (temp : BitVec 64) : ∃ temp' bytes,
      bytes.length = (position + digits.length) / 4 * 3 ∧
      decodeQuanta position temp (digits ++ rest) =
        (decodeQuanta ((position + digits.length) % 4) temp' rest).map (bytes ++ ·) := by
  induction digits generalizing position temp with
  | nil =>
    refine ⟨temp, [], by simp; omega, ?_⟩
    rw [List.length_nil, Nat.add_zero, Nat.mod_eq_of_lt hposition, List.nil_append]
    cases decodeQuanta position temp rest <;> rfl
  | cons c digits ih =>
    rw [List.all_cons, Bool.and_eq_true] at h
    obtain ⟨digit, hdigit⟩ := exists_digit h.1
    by_cases hlast : position = 3
    · obtain ⟨temp', bytes, hlen, heq⟩ := ih h.2 (show 0 < 4 by decide)
        ((temp <<< 6) ||| BitVec.ofNat 64 digit)
      refine ⟨temp', byteOf ((temp <<< 6) ||| BitVec.ofNat 64 digit) 16 ::
        byteOf ((temp <<< 6) ||| BitVec.ofNat 64 digit) 8 ::
        byteOf ((temp <<< 6) ||| BitVec.ofNat 64 digit) 0 :: bytes, ?_, ?_⟩
      · simp only [List.length_cons, hlen]
        omega
      · have hmod : (position + (c :: digits).length) % 4 = (0 + digits.length) % 4 := by
          rw [List.length_cons]
          omega
        simp only [List.cons_append, decodeQuanta, hdigit, hlast, if_true, heq]
        rw [← hlast, hmod]
        cases decodeQuanta ((0 + digits.length) % 4) temp' rest <;> rfl
    · obtain ⟨temp', bytes, hlen, heq⟩ := ih h.2 (show position + 1 < 4 by omega)
        ((temp <<< 6) ||| BitVec.ofNat 64 digit)
      have hshift : position + 1 + digits.length = position + (c :: digits).length := by
        rw [List.length_cons]
        omega
      rw [hshift] at hlen heq
      refine ⟨temp', bytes, hlen, ?_⟩
      simp only [List.cons_append, decodeQuanta, hdigit, hlast, if_false, heq]

section

variable {digits rest : Text} (hdigits : digits.all inAlphabet = true)
include hdigits

theorem decodeBase64_digits (hlength : (digits ++ rest).length % 4 = 0) : ∃ position temp bytes,
    bytes.length = digits.length / 4 * 3 ∧
    decodeBase64 (digits ++ rest) = (decodeQuanta position temp rest).map (bytes ++ ·) := by
  obtain ⟨temp, bytes, hbytes, heq⟩ := decodeQuanta_digits hdigits rest (show 0 < 4 by decide) 0
  rw [Nat.zero_add] at hbytes
  refine ⟨(0 + digits.length) % 4, temp, bytes, hbytes, ?_⟩
  rw [decodeBase64, if_neg (not_not.mpr hlength), heq]

theorem not_mem_pad : '=' ∉ digits := by
  intro h
  have := List.all_eq_true.mp hdigits _ h
  revert this
  decide

theorem decodes_digits (hlength : digits.length % 4 = 0) :
    ∃ bytes, decodeBase64 digits = .ok bytes ∧
    bytes.length + digits.count '=' = digits.length / 4 * 3 := by
  obtain ⟨position, temp, bytes, hbytes, heq⟩ :=
    @decodeBase64_digits digits [] hdigits (by rwa [List.append_nil])
  rw [List.append_nil] at heq
  refine ⟨_, heq, ?_⟩
  simp [List.count_eq_zero_of_not_mem (not_mem_pad hdigits), hbytes]

theorem decodes_pad (hlength : (digits ++ ['=']).length % 4 = 0) :
    ∃ bytes, decodeBase64 (digits ++ ['=']) = .ok bytes ∧
      bytes.length + (digits ++ ['=']).count '=' = (digits ++ ['=']).length / 4 * 3 := by
  obtain ⟨position, temp, bytes, hbytes, heq⟩ := decodeBase64_digits hdigits hlength
  refine ⟨_, heq, ?_⟩
  rw [List.length_append, List.length_singleton] at hlength
  simp only [List.length_append, List.count_append,
    List.count_eq_zero_of_not_mem (not_mem_pad hdigits),
    hbytes, List.count_singleton_self, List.length_cons, List.length_nil]
  omega

/-- With two characters left the last one is not looked at. -/
theorem decode_two (c : Char) (hlength : (digits ++ ['=', c]).length % 4 = 0) :
    ∃ bytes, decodeBase64 (digits ++ ['=', c]) = .ok bytes ∧
      bytes.length + 2 = (digits ++ ['=', c]).length / 4 * 3 := by
  obtain ⟨position, temp, bytes, hbytes, heq⟩ := decodeBase64_digits hdigits hlength
  refine ⟨_, heq, ?_⟩
  simp only [List.length_append, List.length_cons, List.length_nil] at hlength
  simp only [List.length_append, hbytes, List.length_cons, List.length_nil]
  omega

theorem refuses_pad (c d : Char) (cursor : Text) :
    ∃ what, decodeBase64 (digits ++ '=' :: c :: d :: cursor) = .error (.inputError what) := by
  by_cases hlength : (digits ++ '=' :: c :: d :: cursor).length % 4 = 0
  · obtain ⟨position, temp, bytes, -, heq⟩ := decodeBase64_digits hdigits hlength
    exact ⟨_, heq⟩
  · exact ⟨_, if_pos hlength⟩

theorem refuses_character {c : Char} (hc : inAlphabet c = false) (hpad : c ≠ '=') (cursor : Text) :
    ∃ what, decodeBase64 (digits ++ c :: cursor) = .error (.inputError what) := by
  by_cases hlength : (digits ++ c :: cursor).length % 4 = 0
  · obtain ⟨position, temp, bytes, -, heq⟩ := decodeBase64_digits hdigits hlength
    simp only [decodeQuanta, no_digit hc, if_neg hpad] at heq
    exact ⟨_, heq⟩
  · exact ⟨_, if_pos hlength⟩

end

theorem split_unique {digits digits' rest rest' : Text} (h : digits ++ rest = digits' ++ rest')
    (hdigits : digits.all inAlphabet = true) (hdigits' : digits'.all inAlphabet = true)
    (hrest : ∀ c ∈ rest.head?, inAlphabet c = false)
    (hrest' : ∀ c ∈ rest'.head?, inAlphabet c = false) :
    rest = rest' := by
  have hdrop : ∀ (l t : Text), l.all inAlphabet = true → (∀ c ∈ t.head?, inAlphabet c = false) →
      (l ++ t).dropWhile inAlphabet = t := by
    intro l t hl ht
    rw [List.dropWhile_append_of_pos (List.all_eq_true.mp hl)]
    cases t with
    | nil => rfl
    | cons c t => exact List.dropWhile_cons_of_neg (by simp [ht c rfl])
  rw [← hdrop digits rest hdigits hrest, h, hdrop digits' rest' hdigits' hrest']

section

variable {digits rest : Text} (hdigits : digits.all inAlphabet = true)
  (hrest : ∀ c ∈ rest.head?, inAlphabet c = false)
include hdigits hrest

theorem valid_iff : Valid (digits ++ rest) ↔
    (digits ++ rest).length % 4 = 0 ∧ (rest = [] ∨ rest = ['='] ∨ rest = ['=', '=']) := by
  refine and_congr_right fun _ => ⟨?_, fun h => ⟨digits, rest, rfl, hdigits, h⟩⟩
  rintro ⟨digits', pads, heq, hdigits', hpads⟩
  have hhead : ∀ c ∈ pads.head?, inAlphabet c = false := by
    rcases hpads with rfl | rfl | rfl <;> simp <;> decide
  rwa [split_unique heq hdigits hdigits' hrest hhead]

theorem unfinished_iff : Unfinished (digits ++ rest) ↔
    (digits ++ rest).length % 4 = 0 ∧ ∃ c, rest = ['=', c] ∧ c ≠ '=' := by
  refine and_congr_right fun _ => ⟨?_, ?_⟩
  · rintro ⟨digits', c, heq, hdigits', hc⟩
    have hhead : ∀ d ∈ ['=', c].head?, inAlphabet d = false := by
      simp
      decide
    exact ⟨c, split_unique heq hdigits hdigits' hrest hhead, hc⟩
  · rintro ⟨c, rfl, hc⟩
    exact ⟨digits, c, rfl, hdigits, hc⟩

end

theorem exists_split (text : Text) : ∃ digits rest, text = digits ++ rest ∧
    digits.all inAlphabet = true ∧ ∀ c ∈ rest.head?, inAlphabet c = false := by
  refine ⟨_, _, (List.takeWhile_append_dropWhile (p := inAlphabet)).symm, ?_, fun c hc => ?_⟩
  · exact List.all_takeWhile
  · obtain ⟨cursor, hcursor⟩ := List.head?_eq_some_iff.mp hc
    have hnot := @List.head_dropWhile_not _ inAlphabet text
      (by rw [hcursor]; exact List.cons_ne_nil _ _)
    simpa only [hcursor, List.head_cons] using hnot

theorem decodes_iff (text : Text) : Decodes text ↔ ¬Unfinished text := by
  obtain ⟨digits, rest, rfl, hdigits, hrest⟩ := exists_split text
  by_cases hlength : (digits ++ rest).length % 4 = 0
  · have hvalid := valid_iff hdigits hrest
    have hunfinished := unfinished_iff hdigits hrest
    simp only [hlength, true_and] at hvalid hunfinished
    cases rest with
    | nil =>
      rw [List.append_nil] at *
      refine iff_of_true ⟨fun _ => decodes_digits hdigits hlength, fun h => absurd ?_ h⟩ ?_
      · exact hvalid.mpr (.inl rfl)
      · simp [hunfinished]
    | cons c cursor =>
      by_cases hpad : c = '='
      · subst hpad
        cases cursor with
        | nil =>
          refine iff_of_true ⟨fun _ => decodes_pad hdigits hlength, fun h => absurd ?_ h⟩ ?_
          · exact hvalid.mpr (.inr (.inl rfl))
          · simp [hunfinished]
        | cons d cursor =>
          cases cursor with
          | nil =>
            obtain ⟨bytes, hok, hbytes⟩ := decode_two hdigits d hlength
            by_cases hd : d = '='
            · refine iff_of_true ⟨fun _ => ⟨bytes, hok, ?_⟩, fun h => absurd ?_ h⟩ ?_
              · subst hd
                rw [← hbytes, List.count_append,
                  List.count_eq_zero_of_not_mem (not_mem_pad hdigits)]
                rfl
              · exact hvalid.mpr (.inr (.inr (by rw [hd])))
              · rw [hunfinished]
                simp [hd]
            · refine iff_of_false (fun h => ?_) (not_not.mpr (hunfinished.mpr ⟨d, rfl, hd⟩))
              obtain ⟨what, herror⟩ := h.refused (by simp [hvalid, hd])
              rw [hok] at herror
              cases herror
          | cons e cursor =>
            refine iff_of_true ⟨fun h => absurd h ?_, fun _ => refuses_pad hdigits d e cursor⟩ ?_
            · simp [hvalid]
            · simp [hunfinished]
      · refine iff_of_true ⟨fun h => absurd h ?_, fun _ => ?_⟩ ?_
        · simp [hvalid, hpad]
        · exact refuses_character hdigits (hrest c rfl) hpad cursor
        · simp [hunfinished, hpad]
  · refine iff_of_true ⟨fun h => absurd h.1 hlength, fun _ => ⟨_, if_pos hlength⟩⟩ fun h => ?_
    exact hlength h.1

/-- One byte is decoded from a text that does not end with its pad. -/
theorem unfinished_decoded :
    decodeBase64 ['T', 'Q', '=', 'T'] = .ok ['M'] ∧ ¬Valid ['T', 'Q', '=', 'T'] ∧
      ¬Decodes ['T', 'Q', '=', 'T'] := by
  have hok : decodeBase64 ['T', 'Q', '=', 'T'] = .ok ['M'] := by decide
  have hvalid : ¬Valid ['T', 'Q', '=', 'T'] := by
    have hiff := @valid_iff ['T', 'Q'] ['=', 'T'] (by decide) fun c hc => by cases hc; decide
    exact fun h => absurd (hiff.mp h).2 (by decide)
  refine ⟨hok, hvalid, fun h => ?_⟩
  obtain ⟨what, herror⟩ := h.refused hvalid
  rw [hok] at herror
  cases herror

end Base64Validity
