import Rtorrent.PrefixBlocks
import Rtorrent.RpcValueParser

/-! # Ranges of IPv4 addresses

`ipv4_range_parse` reads a line of a p2p file. What C++ gives no meaning to is an outcome of its
own. -/
namespace Ipv4Ranges

open PrefixBlocks RpcTextParser
open RpcValueParser (digitsValue)

inductive Outcome where
  | undefined
  | returned (valid : Bool) (first last : BitVec 32)
  deriving DecidableEq, Repr

def isEnd (c : Char) : Bool := c == '#' || c == '\r' || c == '\n' || c == '\x00'

def isBlank (c : Char) : Bool := c == ' ' || c == '\t'

def skipsDash (c : Char) : Bool := c == '-' || isBlank c

def skipsSlash (c : Char) : Bool := c == '/' || isBlank c

def isAddressChar (c : Char) : Bool := c.isDigit || c == '.'

/-- `strrchr`, behind the character. -/
def behindLast (c : Char) : Text → Option Text
  | [] => none
  | d :: text =>
    match behindLast c text with
    | some rest => some rest
    | none => if d = c then some text else none

/-- A loop that copies characters as long as there is room. -/
def copyWhile (p : Char → Bool) : ℕ → Text → Text × Text
  | n + 1, c :: text =>
    if p c then (c :: (copyWhile p n text).1, (copyWhile p n text).2) else ([], c :: text)
  | _, text => ([], text)

/-- One to three digits. `inet_pton` refuses a digit behind a leading zero. -/
def octet (text : Text) : Option ℕ :=
  if text ≠ [] ∧ text.length ≤ 3 ∧ text.all Char.isDigit ∧ digitsValue 10 text ≤ 255 ∧
      (text.head? = some '0' → text = ['0']) then
    some (digitsValue 10 text)
  else none

def fromOctets (a b c d : ℕ) : BitVec 32 := BitVec.ofNat 32 (((a * 256 + b) * 256 + c) * 256 + d)

/-- `inet_pton` and `ntohl`. -/
def inetPton (text : Text) : Option (BitVec 32) :=
  match text.splitOn '.' with
  | [p, q, r, s] => do
    let a ← octet p
    let b ← octet q
    let c ← octet r
    let d ← octet s
    some (fromOctets a b c d)
  | _ => none

/-- A word cannot be shifted by its width. -/
def shiftRight (x : BitVec 32) (n : ℕ) : Option (BitVec 32) :=
  if n < 32 then some (x >>> n) else none

def explicitRange (start addr : Text) : Outcome :=
  let addr := addr.dropWhile skipsDash
  match inetPton start, inetPton (copyWhile isAddressChar 19 addr).1 with
  | some first, some last => .returned (decide (first ≤ last)) first last
  | _, _ => .returned false 0 0

def maskRange (ip : BitVec 32) (maskBits : ℕ) : Outcome :=
  if maskBits = 0 then .returned true (ip &&& 0) (ip &&& 0 ||| ~~~0)
  else
    let mask := ~~~(0 : BitVec 32) <<< (32 - maskBits)
    match shiftRight (~~~0) maskBits with
    | some endMask => .returned true (ip &&& mask) (ip &&& mask ||| endMask)
    | none => .undefined

/-- `sscanf` stores nothing when there is no digit, and has no result for a number that is too
large. -/
def scanMask (digits : Text) : Option ℕ :=
  if digits = [] ∨ 2 ^ 32 ≤ digitsValue 10 digits then none else some (digitsValue 10 digits)

def cidrRange (start addr : Text) : Outcome :=
  let addr := addr.dropWhile skipsSlash
  match inetPton start with
  | none => .returned false 0 0
  | some ip =>
    match scanMask (copyWhile Char.isDigit 19 addr).1 with
    | none => .undefined
    | some maskBits => if maskBits ≤ 32 then maskRange ip maskBits else .returned false 0 0

def singleAddress (start : Text) : Outcome :=
  match inetPton start with
  | none => .returned false 0 0
  | some ip => .returned true ip ip

def content (line : Text) : Text := line.takeWhile fun c => !isEnd c

/-- `address_copy` has 4096 bytes, one of them for the nul byte. -/
def ipv4RangeParse (line : Text) : Outcome :=
  if 4096 ≤ (content line).length then .undefined
  else
    let addr := ((behindLast ':' (content line)).getD (content line)).dropWhile isBlank
    let start := (copyWhile isAddressChar 19 addr).1
    let addr := (copyWhile isAddressChar 19 addr).2
    if '-' ∈ addr then explicitRange start addr
    else if '/' ∈ addr then cidrRange start addr
    else singleAddress start

/-- An address in dotted form. -/
inductive Dotted : Text → BitVec 32 → Prop where
  | mk {p q r s : Text} {a b c d : ℕ} (ha : octet p = some a) (hb : octet q = some b)
      (hc : octet r = some c) (hd : octet s = some d) :
      Dotted (p ++ '.' :: (q ++ '.' :: (r ++ '.' :: s))) (fromOctets a b c d)

def BehindColon (text part : Text) : Prop :=
  ':' ∉ part ∧ (text = part ∨ ∃ before, text = before ++ ':' :: part)

def Stops (p : Char → Bool) (text : Text) : Prop := ∀ c ∈ text.head?, p c = false

def Starts (skip : Char → Bool) (text : Text) (x : BitVec 32) (rest : Text) : Prop :=
  ∃ skipped a, text = skipped ++ (a ++ rest) ∧ (∀ c ∈ skipped, skip c = true) ∧ Dotted a x ∧
    Stops isAddressChar rest

structure Copied (p : Char → Bool) (n : ℕ) (text a rest : Text) : Prop where
  split : text = a ++ rest
  all : ∀ c ∈ a, p c = true
  room : a.length ≤ n
  stops : a.length = n ∨ Stops p rest

def Mask (text digits : Text) : Prop :=
  ∃ skipped behind rest, text = skipped ++ behind ∧ (∀ c ∈ skipped, skipsSlash c = true) ∧
    Stops skipsSlash behind ∧ Copied Char.isDigit 19 behind digits rest

inductive Form where
  | single (a : BitVec 32)
  | pair (a b : BitVec 32)
  | block (a : BitVec 32) (n : ℕ)

def Form.Covers : Form → BitVec 32 → Prop
  | .single a, z => z = a
  | .pair a b, z => a ≤ z ∧ z ≤ b
  | .block a n, z => Agree n z a

/-- What the text behind an address makes of it. -/
inductive Behind (x : BitVec 32) (rest : Text) : Form → Prop where
  | single : '-' ∉ rest → '/' ∉ rest → Behind x rest (.single x)
  | pair {y : BitVec 32} {more : Text} :
      '-' ∈ rest → Starts skipsDash rest y more → x ≤ y → Behind x rest (.pair x y)
  | block {digits : Text} : '-' ∉ rest → '/' ∈ rest → Mask rest digits → digits ≠ [] →
      digitsValue 10 digits ≤ 32 → Behind x rest (.block x (digitsValue 10 digits))

def Reads (line : Text) (form : Form) : Prop :=
  ∃ part x rest, BehindColon (content line) part ∧ Starts isBlank part x rest ∧ Behind x rest form

/-- A mask that is not there, too large for a word, or as long as a word. -/
def BadMask (digits : Text) : Prop :=
  digits = [] ∨ 2 ^ 32 ≤ digitsValue 10 digits ∨ digitsValue 10 digits = 32

/-- Lines that are too long for the copy and those with a bad mask, to which C++ gives no meaning.
-/
def Undefined (line : Text) : Prop :=
  4096 ≤ (content line).length ∨
    ∃ part x rest digits, BehindColon (content line) part ∧ Starts isBlank part x rest ∧
      '-' ∉ rest ∧ '/' ∈ rest ∧ Mask rest digits ∧ BadMask digits

theorem stops_nil (p : Char → Bool) : Stops p [] := by
  intro c hc
  cases hc

variable {c : Char} {text : Text}

theorem stops_cons {p : Char → Bool} (h : p c = false) : Stops p (c :: text) := by
  intro d hd
  cases hd
  exact h

theorem copyWhile_copied (p : Char → Bool) (n : ℕ) (text : Text) :
    Copied p n text (copyWhile p n text).1 (copyWhile p n text).2 := by
  induction text generalizing n with
  | nil => cases n <;> exact ⟨rfl, fun _ h => (by cases h), Nat.zero_le _, .inr (stops_nil p)⟩
  | cons c text ih =>
    cases n with
    | zero => exact ⟨rfl, fun _ h => (by cases h), Nat.le_refl 0, .inl rfl⟩
    | succ n =>
      rw [copyWhile]
      split
      · next hc =>
        have h := ih n
        refine ⟨congrArg (c :: ·) h.split, List.forall_mem_cons.mpr ⟨hc, h.all⟩,
          Nat.succ_le_succ h.room, h.stops.imp_left (congrArg Nat.succ)⟩
      · next hc =>
        exact ⟨rfl, fun _ h => (by cases h), Nat.zero_le _,
          .inr (stops_cons (Bool.eq_false_iff.mpr hc))⟩

variable {n : ℕ} {a rest : Text}

theorem copyWhile_eq {p : Char → Bool} (h : Copied p n text a rest) :
    copyWhile p n text = (a, rest) := by
  obtain ⟨rfl, hall, hroom, hstops⟩ := h
  induction a generalizing n with
  | nil =>
    cases n with
    | zero => cases rest <;> rfl
    | succ n =>
      cases rest with
      | nil => rfl
      | cons c rest =>
        have hc : p c = false := hstops.elim (fun h => (by cases h)) fun h => h c rfl
        rw [List.nil_append, copyWhile, hc]
        rfl
  | cons c a ih =>
    cases n with
    | zero => cases hroom
    | succ n =>
      obtain ⟨hc, ha⟩ := List.forall_mem_cons.mp hall
      have hrec := ih ha (Nat.le_of_succ_le_succ hroom) (hstops.imp_left Nat.succ.inj)
      rw [List.cons_append, copyWhile, if_pos hc, hrec]

theorem dropWhile_skips (p : Char → Bool) (text : Text) :
    ∃ skipped, text = skipped ++ text.dropWhile p ∧ (∀ c ∈ skipped, p c = true) ∧
      Stops p (text.dropWhile p) := by
  refine ⟨text.takeWhile p, List.takeWhile_append_dropWhile.symm,
    fun c hc => List.mem_takeWhile_imp hc, fun c hc => ?_⟩
  have h := List.head?_dropWhile_not p text
  rw [hc] at h
  simpa using h

theorem dropWhile_eq {p : Char → Bool} {skipped : Text} (hs : ∀ c ∈ skipped, p c = true)
    (hr : Stops p rest) : (skipped ++ rest).dropWhile p = rest := by
  rw [List.dropWhile_append_of_pos hs]
  cases rest with
  | nil => rfl
  | cons c rest => rw [List.dropWhile_cons_of_neg (by rw [hr c rfl]; exact Bool.false_ne_true)]

theorem behindLast_none : behindLast c text = none ↔ c ∉ text := by
  induction text with
  | nil => simp [behindLast]
  | cons d text ih =>
    rw [behindLast, List.mem_cons, not_or]
    cases hb : behindLast c text with
    | some rest =>
      rw [hb] at ih
      simp [← ih]
    | none =>
      by_cases hd : d = c
      · simp [hd]
      · simp [hd, Ne.symm hd, ih.mp hb]

variable {part : Text}

theorem behindLast_some (h : behindLast c text = some part) :
    c ∉ part ∧ ∃ before, text = before ++ c :: part := by
  induction text with
  | nil => cases h
  | cons d text ih =>
    rw [behindLast] at h
    cases hb : behindLast c text with
    | some rest =>
      rw [hb] at h
      cases h
      obtain ⟨hc, before, rfl⟩ := ih hb
      exact ⟨hc, d :: before, rfl⟩
    | none =>
      rw [hb] at h
      by_cases hd : d = c
      · simp only [if_pos hd, Option.some.injEq] at h
        subst h hd
        exact ⟨behindLast_none.mp hb, [], rfl⟩
      · simp only [if_neg hd] at h
        cases h

theorem behindLast_append {before : Text} (h : c ∉ part) :
    behindLast c (before ++ c :: part) = some part := by
  induction before with
  | nil => rw [List.nil_append, behindLast, behindLast_none.mpr h, if_pos rfl]
  | cons d before ih => rw [List.cons_append, behindLast, ih]

theorem behindColon_getD (text : Text) :
    BehindColon text ((behindLast ':' text).getD text) := by
  cases hb : behindLast ':' text with
  | none => exact ⟨behindLast_none.mp hb, .inl rfl⟩
  | some part =>
    obtain ⟨hc, before, htext⟩ := behindLast_some hb
    exact ⟨hc, .inr ⟨before, htext⟩⟩

theorem behindColon_eq (h : BehindColon text part) : (behindLast ':' text).getD text = part := by
  obtain ⟨hc, rfl | ⟨before, rfl⟩⟩ := h
  · rw [behindLast_none.mpr hc]
    rfl
  · rw [behindLast_append hc]
    rfl

theorem octet_eq_some (h : octet text = some n) :
    text ≠ [] ∧ text.length ≤ 3 ∧ ∀ c ∈ text, c.isDigit = true := by
  unfold octet at h
  split at h
  · next hc => exact ⟨hc.1, hc.2.1, List.all_eq_true.mp hc.2.2.1⟩
  · cases h

theorem dot_not_mem_octet (h : octet text = some n) : '.' ∉ text :=
  fun hmem => absurd ((octet_eq_some h).2.2 '.' hmem) (by decide)

theorem intercalate_octets (p q r s : Text) :
    ['.'].intercalate [p, q, r, s] = p ++ '.' :: (q ++ '.' :: (r ++ '.' :: s)) := by
  simp [List.intercalate]

variable {x : BitVec 32}

theorem inetPton_eq_some_iff : inetPton text = some x ↔ Dotted text x := by
  constructor
  · intro h
    unfold inetPton at h
    split at h
    · next p q r s hsplit =>
      simp only [Option.bind_eq_bind, Option.bind_eq_some_iff, Option.some.injEq] at h
      obtain ⟨a, ha, b, hb, c, hc, d, hd, rfl⟩ := h
      have htext : ['.'].intercalate (text.splitOn '.') = text := List.intercalate_splitOn '.'
      rw [hsplit, intercalate_octets] at htext
      rw [← htext]
      exact .mk ha hb hc hd
    · cases h
  · rintro ⟨ha, hb, hc, hd⟩
    rename_i p q r s a b c d
    have hsplit : (p ++ '.' :: (q ++ '.' :: (r ++ '.' :: s))).splitOn '.' = [p, q, r, s] := by
      rw [← intercalate_octets]
      refine List.splitOn_intercalate '.' ?_ (List.cons_ne_nil p _)
      simp only [List.forall_mem_cons, List.not_mem_nil, false_implies, implies_true, and_true]
      exact ⟨dot_not_mem_octet ha, dot_not_mem_octet hb, dot_not_mem_octet hc, dot_not_mem_octet hd⟩
    unfold inetPton
    rw [hsplit]
    simp only [ha, hb, hc, hd, Option.bind_eq_bind, Option.bind_some]

theorem isAddressChar_of_octet (h : octet text = some n) : ∀ c ∈ text, isAddressChar c = true := by
  intro c hc
  rw [isAddressChar, (octet_eq_some h).2.2 c hc, Bool.true_or]

theorem dotted_bounds (h : Dotted text x) :
    (∀ c ∈ text, isAddressChar c = true) ∧ text.length < 19 ∧ text ≠ [] := by
  obtain ⟨ha, hb, hc, hd⟩ := h
  have hp := isAddressChar_of_octet ha
  have hq := isAddressChar_of_octet hb
  have hr := isAddressChar_of_octet hc
  have hs := isAddressChar_of_octet hd
  have ha' := octet_eq_some ha
  have hb' := octet_eq_some hb
  have hc' := octet_eq_some hc
  have hd' := octet_eq_some hd
  refine ⟨?_, ?_, by simp⟩
  · intro c hmem
    simp only [List.mem_append, List.mem_cons] at hmem
    rcases hmem with h | rfl | h | rfl | h | rfl | h
    · exact hp c h
    · rfl
    · exact hq c h
    · rfl
    · exact hr c h
    · rfl
    · exact hs c h
  · simp only [List.length_append, List.length_cons]
    omega

theorem dotted_copied (h : Dotted a x)
    (hr : Stops isAddressChar rest) : Copied isAddressChar 19 (a ++ rest) a rest :=
  ⟨rfl, (dotted_bounds h).1, (dotted_bounds h).2.1.le, .inr hr⟩

theorem starts_iff {skip : Char → Bool} (hskip : ∀ c, isAddressChar c = true → skip c = false) :
    Starts skip text x rest ↔
      inetPton (copyWhile isAddressChar 19 (text.dropWhile skip)).1 = some x ∧
        (copyWhile isAddressChar 19 (text.dropWhile skip)).2 = rest := by
  constructor
  · rintro ⟨skipped, a, rfl, hs, hd, hr⟩
    have hstop : Stops skip (a ++ rest) := by
      cases a with
      | nil => exact absurd rfl (dotted_bounds hd).2.2
      | cons c a => exact stops_cons (hskip c ((dotted_bounds hd).1 c List.mem_cons_self))
    rw [dropWhile_eq hs hstop, copyWhile_eq (dotted_copied hd hr)]
    exact ⟨inetPton_eq_some_iff.mpr hd, rfl⟩
  · rintro ⟨hx, rfl⟩
    obtain ⟨skipped, htext, hs, _⟩ := dropWhile_skips skip text
    have hcopy := copyWhile_copied isAddressChar 19 (text.dropWhile skip)
    have hd := inetPton_eq_some_iff.mp hx
    have hlt := (dotted_bounds hd).2.1
    refine ⟨skipped, _, htext.trans (congrArg (skipped ++ ·) hcopy.split), hs, hd, ?_⟩
    exact hcopy.stops.resolve_left (by omega)

theorem isBlank_of_isAddressChar (h : isAddressChar c = true) : isBlank c = false := by
  rw [isBlank, Bool.or_eq_false_iff, beq_eq_false_iff_ne, beq_eq_false_iff_ne]
  constructor
  · rintro rfl
    cases h
  · rintro rfl
    cases h

theorem skipsDash_of_isAddressChar (h : isAddressChar c = true) : skipsDash c = false := by
  rw [skipsDash, isBlank_of_isAddressChar h, Bool.or_false, beq_eq_false_iff_ne]
  rintro rfl
  cases h

variable {digits : Text}

theorem mask_iff :
    Mask text digits ↔ (copyWhile Char.isDigit 19 (text.dropWhile skipsSlash)).1 = digits := by
  constructor
  · rintro ⟨skipped, behind, rest, rfl, hs, hb, hc⟩
    rw [dropWhile_eq hs hb, copyWhile_eq hc]
  · rintro rfl
    obtain ⟨skipped, htext, hs, hb⟩ := dropWhile_skips skipsSlash text
    exact ⟨skipped, _, _, htext, hs, hb, copyWhile_copied _ _ _⟩

def behindAddress (x : BitVec 32) (rest : Text) : Outcome :=
  if '-' ∈ rest then
    match inetPton (copyWhile isAddressChar 19 (rest.dropWhile skipsDash)).1 with
    | some last => .returned (decide (x ≤ last)) x last
    | none => .returned false 0 0
  else if '/' ∈ rest then
    match scanMask (copyWhile Char.isDigit 19 (rest.dropWhile skipsSlash)).1 with
    | none => .undefined
    | some maskBits => if maskBits ≤ 32 then maskRange x maskBits else .returned false 0 0
  else .returned true x x

variable {line : Text}

theorem parse_of_starts (hlen : (content line).length < 4096)
    (hpart : BehindColon (content line) part)
    (hstart : Starts isBlank part x rest) : ipv4RangeParse line = behindAddress x rest := by
  obtain ⟨hx, hrest⟩ := (starts_iff fun _ => isBlank_of_isAddressChar).mp hstart
  unfold ipv4RangeParse
  rw [if_neg (Nat.not_le.mpr hlen), behindColon_eq hpart]
  dsimp only
  rw [hrest]
  unfold behindAddress explicitRange cidrRange singleAddress
  rw [hx]
  dsimp only
  congr 1
  cases inetPton (copyWhile isAddressChar 19 (rest.dropWhile skipsDash)).1 <;> rfl

theorem parse_without_address (hlen : (content line).length < 4096)
    (hpart : BehindColon (content line) part) (hnone : ∀ x rest, ¬ Starts isBlank part x rest) :
    ipv4RangeParse line = .returned false 0 0 := by
  have hx : inetPton (copyWhile isAddressChar 19 (part.dropWhile isBlank)).1 = none := by
    rw [Option.eq_none_iff_forall_not_mem]
    intro x hx
    exact hnone x _ ((starts_iff fun _ => isBlank_of_isAddressChar).mpr ⟨hx, rfl⟩)
  unfold ipv4RangeParse
  rw [if_neg (Nat.not_le.mpr hlen), behindColon_eq hpart]
  dsimp only
  unfold explicitRange cidrRange singleAddress
  rw [hx]
  simp only [ite_self]

theorem maskRange_eq (hn : n < 32) : maskRange x n = .returned true (first x n) (last x n) := by
  have hones : ~~~(0 : BitVec 32) = BitVec.allOnes 32 := BitVec.not_zero
  unfold maskRange
  split
  · next h0 =>
    subst h0
    have hfirst : first x 0 = x &&& 0 := by
      rw [first, BitVec.shiftLeft_eq_zero (Nat.le_refl 32)]
      rfl
    rw [last, hfirst, hones, BitVec.ushiftRight_zero]
  · rw [shiftRight, if_pos hn, hones]
    rfl

theorem maskRange_width (x : BitVec 32) : maskRange x 32 = .undefined := rfl

def behindSlash (x : BitVec 32) (digits : Text) : Outcome :=
  match scanMask digits with
  | none => .undefined
  | some maskBits => if maskBits ≤ 32 then maskRange x maskBits else .returned false 0 0

theorem behindSlash_bad (h : BadMask digits) : behindSlash x digits = .undefined := by
  unfold behindSlash scanMask
  rcases h with h | h | h
  · rw [if_pos (.inl h)]
  · rw [if_pos (.inr h)]
  · split
    · rfl
    · next hs =>
      split at hs
      · cases hs
      · cases hs
        rw [h]
        exact maskRange_width x

theorem behindSlash_eq (h : ¬ BadMask digits) :
    behindSlash x digits =
      if digitsValue 10 digits ≤ 32 then
        .returned true (first x (digitsValue 10 digits)) (last x (digitsValue 10 digits))
      else .returned false 0 0 := by
  have hscan : scanMask digits = some (digitsValue 10 digits) := by
    rw [scanMask, if_neg]
    rintro (hd | hd)
    · exact h (.inl hd)
    · exact h (.inr (.inl hd))
  have hne : digitsValue 10 digits ≠ 32 := fun hd => h (.inr (.inr hd))
  unfold behindSlash
  rw [hscan]
  dsimp only
  split
  · next hle => exact maskRange_eq (by omega)
  · rfl

theorem behindAddress_slash (hdash : '-' ∉ rest) (hslash : '/' ∈ rest) (hm : Mask rest digits) :
    behindAddress x rest = behindSlash x digits := by
  rw [behindAddress, if_neg hdash, if_pos hslash, mask_iff.mp hm, behindSlash]

theorem behindAddress_dash {y : BitVec 32} {more : Text} (hdash : '-' ∈ rest)
    (hy : Starts skipsDash rest y more) :
    behindAddress x rest = .returned (decide (x ≤ y)) x y := by
  rw [behindAddress, if_pos hdash, ((starts_iff fun _ => skipsDash_of_isAddressChar).mp hy).1]

theorem covers_single (x z : BitVec 32) : x ≤ z ∧ z ≤ x ↔ (Form.single x).Covers z := by
  constructor
  · exact fun h => BitVec.le_antisymm h.2 h.1
  · rintro rfl
    exact ⟨BitVec.le_refl z, BitVec.le_refl z⟩

theorem behind_range {form : Form} (h : Behind x rest form)
    (hmask : ∀ digits, '-' ∉ rest → '/' ∈ rest → Mask rest digits → ¬ BadMask digits) :
    ∃ s e, behindAddress x rest = .returned true s e ∧ ∀ z, s ≤ z ∧ z ≤ e ↔ form.Covers z := by
  cases h with
  | single hdash hslash =>
    exact ⟨x, x, by rw [behindAddress, if_neg hdash, if_neg hslash], covers_single x⟩
  | @pair y more hdash hy hle =>
    exact ⟨x, y, by rw [behindAddress_dash hdash hy, decide_eq_true hle], fun _ => Iff.rfl⟩
  | @block digits hdash hslash hm hne hle =>
    refine ⟨_, _, ?_, fun z => mem_block_iff hle⟩
    rw [behindAddress_slash hdash hslash hm, behindSlash_eq (hmask digits hdash hslash hm),
      if_pos hle]

theorem behindAddress_cases (x : BitVec 32) (rest : Text) :
    ('-' ∈ rest ∧ ∃ y more, Starts skipsDash rest y more ∧
      behindAddress x rest = .returned (decide (x ≤ y)) x y) ∨
    ('-' ∈ rest ∧ behindAddress x rest = .returned false 0 0) ∨
    ('-' ∉ rest ∧ '/' ∈ rest ∧ ∃ digits, Mask rest digits ∧
      behindAddress x rest = behindSlash x digits) ∨
    ('-' ∉ rest ∧ '/' ∉ rest ∧ behindAddress x rest = .returned true x x) := by
  by_cases hdash : '-' ∈ rest
  · cases hy : inetPton (copyWhile isAddressChar 19 (rest.dropWhile skipsDash)).1 with
    | none => exact .inr (.inl ⟨hdash, by rw [behindAddress, if_pos hdash, hy]⟩)
    | some y =>
      have hstarts : Starts skipsDash rest y _ :=
        (starts_iff fun _ => skipsDash_of_isAddressChar).mpr ⟨hy, rfl⟩
      exact .inl ⟨hdash, y, _, hstarts, behindAddress_dash hdash hstarts⟩
  · by_cases hslash : '/' ∈ rest
    · have hm : Mask rest _ := mask_iff.mpr rfl
      exact .inr (.inr (.inl ⟨hdash, hslash, _, hm, behindAddress_slash hdash hslash hm⟩))
    · exact .inr (.inr (.inr ⟨hdash, hslash, by rw [behindAddress, if_neg hdash, if_neg hslash]⟩))

theorem range_behind {s e : BitVec 32}
    (h : behindAddress x rest = .returned true s e) : ∃ form, Behind x rest form := by
  rcases behindAddress_cases x rest with ⟨hdash, y, more, hy, heq⟩ | ⟨_, heq⟩ |
    ⟨hdash, hslash, digits, hm, heq⟩ | ⟨hdash, hslash, _⟩
  · rw [heq, Outcome.returned.injEq] at h
    exact ⟨_, .pair hdash hy (of_decide_eq_true h.1)⟩
  · rw [heq] at h
    cases h
  · rw [heq] at h
    by_cases hbad : BadMask digits
    · rw [behindSlash_bad hbad] at h
      cases h
    · rw [behindSlash_eq hbad] at h
      split at h
      · next hle => exact ⟨_, .block hdash hslash hm (fun hd => hbad (.inl hd)) hle⟩
      · cases h
  · exact ⟨_, .single hdash hslash⟩

theorem undefined_behind (h : behindAddress x rest = .undefined) :
    '-' ∉ rest ∧ '/' ∈ rest ∧ ∃ digits, Mask rest digits ∧ BadMask digits := by
  rcases behindAddress_cases x rest with ⟨_, y, more, _, heq⟩ | ⟨_, heq⟩ |
    ⟨hdash, hslash, digits, hm, heq⟩ | ⟨_, _, heq⟩
  · rw [heq] at h
    cases h
  · rw [heq] at h
    cases h
  · refine ⟨hdash, hslash, digits, hm, ?_⟩
    by_contra hbad
    rw [heq, behindSlash_eq hbad] at h
    split at h <;> cases h
  · rw [heq] at h
    cases h

theorem parse_cases (hlen : (content line).length < 4096) :
    (∃ part x rest, BehindColon (content line) part ∧ Starts isBlank part x rest ∧
      ipv4RangeParse line = behindAddress x rest) ∨
    ipv4RangeParse line = .returned false 0 0 := by
  have hpart := behindColon_getD (content line)
  by_cases hstart : ∃ x rest,
      Starts isBlank ((behindLast ':' (content line)).getD (content line)) x rest
  · obtain ⟨x, rest, hstart⟩ := hstart
    exact .inl ⟨_, x, rest, hpart, hstart, parse_of_starts hlen hpart hstart⟩
  · exact .inr (parse_without_address hlen hpart fun x rest hs => hstart ⟨x, rest, hs⟩)

theorem ipv4RangeParse_undefined_iff (line : Text) :
    ipv4RangeParse line = .undefined ↔ Undefined line := by
  by_cases hlen : 4096 ≤ (content line).length
  · exact ⟨fun _ => .inl hlen, fun _ => by rw [ipv4RangeParse, if_pos hlen]⟩
  have hlt := Nat.not_le.mp hlen
  constructor
  · intro hparse
    rcases parse_cases hlt with ⟨part, x, rest, hpart, hstart, heq⟩ | heq
    · obtain ⟨hdash, hslash, digits, hm, hbad⟩ := undefined_behind (heq.symm.trans hparse)
      exact .inr ⟨part, x, rest, digits, hpart, hstart, hdash, hslash, hm, hbad⟩
    · rw [heq] at hparse
      cases hparse
  · rintro (h | ⟨part, x, rest, digits, hpart, hstart, hdash, hslash, hm, hbad⟩)
    · exact absurd h hlen
    · rw [parse_of_starts hlt hpart hstart, behindAddress_slash hdash hslash hm,
        behindSlash_bad hbad]

inductive Exact : Text → Prop where
  | single {a : Text} {x : BitVec 32} : Dotted a x → Exact a
  | pair {a b : Text} {x y : BitVec 32} : Dotted a x → Dotted b y → x ≤ y → Exact (a ++ '-' :: b)
  | block {a digits : Text} {x : BitVec 32} : Dotted a x → digits ≠ [] →
      (∀ c ∈ digits, c.isDigit = true) → digitsValue 10 digits ≤ 32 → Exact (a ++ '/' :: digits)

theorem not_mem_dotted (h : Dotted a x) (hc : isAddressChar c = false) : c ∉ a := by
  intro hmem
  cases hc.symm.trans ((dotted_bounds h).1 c hmem)

theorem starts_dotted {skip : Char → Bool} (h : Dotted a x)
    (hr : Stops isAddressChar rest) : Starts skip (a ++ rest) x rest :=
  ⟨[], a, rfl, fun _ hc => (by cases hc), h, hr⟩

theorem mask_digits (hd : ∀ c ∈ digits, c.isDigit = true)
    (hlen : digits.length ≤ 19) : Mask ('/' :: digits) digits := by
  refine ⟨['/'], digits, [], rfl, fun c hc => ?_, fun c hc => ?_, ?_⟩
  · rw [List.mem_singleton.mp hc]
    rfl
  · have hdigit := hd c (List.mem_of_mem_head? hc)
    rw [skipsSlash, isBlank_of_isAddressChar (by rw [isAddressChar, hdigit]; rfl), Bool.or_false,
      beq_eq_false_iff_ne]
    rintro rfl
    cases hdigit
  · exact ⟨(List.append_nil digits).symm, hd, hlen, .inr (stops_nil _)⟩

/-- Lines with nothing else in them are among those that are read. -/
theorem exact_reads (hpart : BehindColon (content line) part)
    (h : Exact part) (hlen : ∀ a digits, part = a ++ '/' :: digits → digits.length ≤ 19) :
    ∃ form, Reads line form := by
  cases h with
  | @single a x ha =>
    have hstart : Starts isBlank (part ++ []) x [] := starts_dotted ha (stops_nil _)
    rw [List.append_nil] at hstart
    exact ⟨.single x, part, x, [], hpart, hstart, .single List.not_mem_nil List.not_mem_nil⟩
  | @pair a b x y ha hb hle =>
    have hstart : Starts isBlank (a ++ '-' :: b) x ('-' :: b) :=
      starts_dotted ha (stops_cons (by decide))
    have hend : Starts skipsDash ('-' :: b) y [] := by
      refine ⟨['-'], b, by rw [List.append_nil]; rfl, fun c hc => ?_, hb, stops_nil _⟩
      rw [List.mem_singleton.mp hc]
      rfl
    exact ⟨.pair x y, _, x, _, hpart, hstart, .pair List.mem_cons_self hend hle⟩
  | @block a digits x ha hne hd hle =>
    have hstart : Starts isBlank (a ++ '/' :: digits) x ('/' :: digits) :=
      starts_dotted ha (stops_cons (by decide))
    have hdash : '-' ∉ '/' :: digits := by
      rw [List.mem_cons, not_or]
      exact ⟨by decide, fun hmem => absurd (hd '-' hmem) (by decide)⟩
    exact ⟨.block x _, _, x, _, hpart, hstart,
      .block hdash List.mem_cons_self (mask_digits hd (hlen a digits rfl)) hne hle⟩

/-- The parser returns `true` for the lines that read as an address, a pair or a block, with their
range. -/
theorem ipv4RangeParse_reads {line : Text} (h : ¬ Undefined line) :
    (∀ s e, ipv4RangeParse line = .returned true s e →
      ∃ form, Reads line form ∧ ∀ z, s ≤ z ∧ z ≤ e ↔ form.Covers z) ∧
    ∀ form, Reads line form → ∃ s e, ipv4RangeParse line = .returned true s e ∧
      ∀ z, s ≤ z ∧ z ≤ e ↔ form.Covers z := by
  have hlen : (content line).length < 4096 := Nat.not_le.mp fun hl => h (.inl hl)
  -- a form that is read gives a range
  have hread : ∀ form, Reads line form → ∃ s e, ipv4RangeParse line = .returned true s e ∧
      ∀ z, s ≤ z ∧ z ≤ e ↔ form.Covers z := by
    rintro form ⟨part, x, rest, hpart, hstart, hbehind⟩
    rw [parse_of_starts hlen hpart hstart]
    refine behind_range hbehind fun digits hdash hslash hm hbad => h (.inr ?_)
    exact ⟨part, x, rest, digits, hpart, hstart, hdash, hslash, hm, hbad⟩
  refine ⟨fun s e hparse => ?_, hread⟩
  rcases parse_cases hlen with ⟨part, x, rest, hpart, hstart, heq⟩ | heq
  · obtain ⟨form, hform⟩ := range_behind (heq.symm.trans hparse)
    have hreads : Reads line form := ⟨part, x, rest, hpart, hstart, hform⟩
    obtain ⟨s', e', hparse', hcovers⟩ := hread form hreads
    rw [hparse, Outcome.returned.injEq] at hparse'
    obtain ⟨_, rfl, rfl⟩ := hparse'
    exact ⟨form, hreads, hcovers⟩
  · rw [heq] at hparse
    cases hparse

example : ipv4RangeParse "01.2.3.4".toList = .returned false 0 0 := by decide +kernel

theorem office_defined : ¬ Undefined "office:10.0.0.7/8".toList := by
  rw [← ipv4RangeParse_undefined_iff]
  decide +kernel

theorem office_range : ∃ form, Reads "office:10.0.0.7/8".toList form ∧
    ∀ z : BitVec 32, 0x0A000000 ≤ z ∧ z ≤ 0x0AFFFFFF ↔ form.Covers z :=
  (ipv4RangeParse_reads office_defined).1 _ _ (by decide +kernel)

theorem blank_not_mem_exact (h : Exact text) : ' ' ∉ text := by
  cases h with
  | single ha => exact not_mem_dotted ha (c := ' ') rfl
  | pair ha hb _ => simp [not_mem_dotted ha (c := ' ') rfl, not_mem_dotted hb (c := ' ') rfl]
  | block ha _ hd _ =>
    have hdigits : ' ' ∉ _ := fun hmem => absurd (hd ' ' hmem) (by decide)
    simp [not_mem_dotted ha (c := ' ') rfl, hdigits]

/-- A word behind the address is no part of an address, a pair or a block. -/
theorem word_behind_accepted :
    ipv4RangeParse "1.2.3.4 home".toList = .returned true 0x01020304 0x01020304 ∧
      ¬ ∃ part, BehindColon (content "1.2.3.4 home".toList) part ∧ Exact part := by
  refine ⟨by decide +kernel, ?_⟩
  rintro ⟨part, hpart, hexact⟩
  have hline : part = "1.2.3.4 home".toList := by
    rw [← behindColon_eq hpart]
    decide +kernel
  refine blank_not_mem_exact hexact ?_
  rw [hline]
  decide +kernel

end Ipv4Ranges
