import Rtorrent.RpcRequests
import Rtorrent.ScgiTask

/-! # The entries of an SCGI header

Every entry of a header is applied to the fields that the ones before it have set, so of a
repeated entry the last one counts. -/
namespace ScgiHeaderEntries

open DecimalText ScgiTask RpcRequests

abbrev Entry := Bytes × Bytes

def contentLengthKey : Bytes := ascii "CONTENT_LENGTH"
def untrustedKey : Bytes := ascii "UNTRUSTED_CONNECTION"

/-- The keys and values of a header. Each turn takes two bytes or more. -/
def splitEntries : ℕ → Bytes → Option (List Entry)
  | _, [] => some []
  | 0, _ :: _ => none
  | turns + 1, header => do
    let (key, rest) ← splitNul header
    let (value, rest) ← splitNul rest
    let entries ← splitEntries turns rest
    some ((key, value) :: entries)

/-- The entries of the header at the start of these bytes, behind its size and the `:`. -/
def requestEntries (bytes : Bytes) : Option (List Entry) :=
  let (headerSize, current) := fromChars 0 bytes
  splitEntries headerSize ((current.drop 1).take headerSize)

inductive Entrance where
  | process
  | processUntrusted
  deriving DecidableEq, Repr

/-- What `receive_call` calls in the main thread. -/
structure Call where
  entrance : Entrance
  type : RPCType
  body : Bytes
  length : ℕ
  deriving DecidableEq, Repr

def receiveCall (r : Request) : Call where
  entrance := if r.trusted then .process else .processUntrusted
  type := match r.contentType with
    | .json => .json
    | .xml => .xml
  body := r.body
  length := r.length

/-- A text is the decimal number `n`. -/
def Spells (text : Bytes) (n : ℕ) : Prop :=
  text ≠ [] ∧ text.all isDigit = true ∧ value text = n

instance (text : Bytes) (n : ℕ) : Decidable (Spells text n) :=
  inferInstanceAs (Decidable (text ≠ [] ∧ text.all isDigit = true ∧ value text = n))

/-- The length is that of every length entry, and every entry that takes the trust away does so.
-/
structure Agrees (es : List Entry) (call : Call) : Prop where
  length : ∀ v, (contentLengthKey, v) ∈ es → Spells v call.length
  positive : 1 ≤ call.length
  bounded : call.length ≤ maxContentSize
  untrusted : (untrustedKey, ascii "1") ∈ es → call.entrance = .processUntrusted

def lastValue (key : Bytes) : List Entry → Option Bytes
  | [] => none
  | e :: es => (lastValue key es).or (if e.1 = key then some e.2 else none)

/-- All length entries are the same number. -/
def OneLength (es : List Entry) : Prop :=
  ∃ n, ∀ v, (contentLengthKey, v) ∈ es → Spells v n

/-- Trust that was taken away is not given back by the last entry about it. -/
def StaysUntrusted (es : List Entry) : Prop :=
  (untrustedKey, ascii "1") ∈ es → lastValue untrustedKey es = some (ascii "1")

def applyEntries (f : Fields) : List Entry → Option Fields
  | [] => some f
  | e :: es => (parseEntry f e.1 e.2).bind fun g => applyEntries g es

variable {g : Fields} {es : List Entry}

theorem applyEntries_cons {f : Fields} {e : Entry} (h : applyEntries f (e :: es) = some g) :
    ∃ f', parseEntry f e.1 e.2 = some f' ∧ applyEntries f' es = some g :=
  Option.bind_eq_some_iff.mp h

theorem parseEntries_split {turns : ℕ} {f : Fields} {header : Bytes}
    (h : parseEntries turns f header = some g) :
    ∃ es, splitEntries turns header = some es ∧ applyEntries f es = some g := by
  induction turns generalizing f header with
  | zero =>
    cases header with
    | nil => exact ⟨[], rfl, h⟩
    | cons c cs => cases h
  | succ turns ih =>
    cases header with
    | nil => exact ⟨[], rfl, h⟩
    | cons c cs =>
      simp only [parseEntries, Option.bind_eq_bind] at h
      obtain ⟨⟨key, rest⟩, hk, h⟩ := Option.bind_eq_some_iff.mp h
      dsimp only at h
      by_cases hr : rest = []
      · rw [if_pos hr] at h
        cases h
      · rw [if_neg hr] at h
        obtain ⟨⟨value, rest'⟩, hv, h⟩ := Option.bind_eq_some_iff.mp h
        obtain ⟨f', hf, h⟩ := Option.bind_eq_some_iff.mp h
        obtain ⟨es, hes, ha⟩ := ih h
        refine ⟨(key, value) :: es, ?_, ?_⟩
        · simp only [splitEntries, hk, hv, hes, Option.bind_eq_bind, Option.bind_some]
        · simp only [applyEntries, hf, Option.bind_some, ha]

variable {bytes : Bytes}

theorem readHeader_entries {body : ℕ} (h : readHeader initialFields bytes = .complete body g) :
    ∃ es, requestEntries bytes = some es ∧ applyEntries initialFields es = some g ∧
      g.contentLength ≠ 0 := by
  rw [readHeader] at h
  split at h
  rename_i size current hs
  split at h
  · cases h
  split at h
  · cases h
  rename_i c header
  split at h
  · cases h
  rw [readEntries] at h
  split at h
  · cases h
  split at h
  · cases h
  split at h
  · cases h
  split at h
  · cases h
  rename_i f hp
  split at h
  · cases h
  rename_i hz
  cases h
  obtain ⟨es, hes, ha⟩ := parseEntries_split hp
  refine ⟨es, ?_, ha, hz⟩
  rw [requestEntries, hs]
  exact hes

section

variable {f g : Fields} {key v : Bytes} {es : List Entry} {n : ℕ}

theorem parseEntry_cases (h : parseEntry f key v = some g) :
    (key = contentLengthKey ∧ (fromChars f.contentLength v).1 ≤ maxContentSize ∧
      g = { f with contentLength := (fromChars f.contentLength v).1 }) ∨
    (key = untrustedKey ∧ g = { f with trusted := decide (v ≠ ascii "1") }) ∨
    (key ≠ contentLengthKey ∧ key ≠ untrustedKey ∧
      g.contentLength = f.contentLength ∧ g.trusted = f.trusted) := by
  rw [parseEntry] at h
  by_cases hl : key = ascii "CONTENT_LENGTH"
  · rw [if_pos hl] at h
    simp only at h
    split at h
    · cases h
    · rename_i hr
      cases h
      simp only [not_or, Nat.not_lt] at hr
      exact .inl ⟨hl, hr.2.2, rfl⟩
  rw [if_neg hl] at h
  refine .inr ?_
  by_cases hu : key = ascii "UNTRUSTED_CONNECTION"
  · rw [hu, if_neg (by decide), if_neg (by decide), if_pos rfl] at h
    refine .inl ⟨hu, ?_⟩
    by_cases h1 : v = ascii "1"
    · rw [if_pos h1] at h
      cases h
      rw [decide_eq_false (not_not.mpr h1)]
    · rw [if_neg h1] at h
      split at h
      · cases h
        rw [decide_eq_true h1]
      · cases h
  · rw [if_neg hu] at h
    refine .inr ⟨hl, hu, ?_⟩
    split at h
    · cases h
      exact ⟨rfl, rfl⟩
    split at h
    · split at h <;> cases h <;> exact ⟨rfl, rfl⟩
    · cases h
      exact ⟨rfl, rfl⟩

theorem fromChars_spelled (start : ℕ) (hs : Spells v n) :
    (fromChars start v).1 = start ∨ (fromChars start v).1 = n := by
  obtain ⟨-, hd, hv⟩ := hs
  have ht : v.takeWhile isDigit = v := by
    rw [List.takeWhile_eq_self_iff]
    exact List.all_eq_true.mp hd
  simp only [fromChars, ht, hv]
  split
  · exact .inl rfl
  · exact .inr rfl

theorem parseEntry_length (h : parseEntry f key v = some g) :
    g.contentLength ≤ max f.contentLength maxContentSize ∧
      (Spells v n ∨ key ≠ contentLengthKey →
        g.contentLength = f.contentLength ∨ g.contentLength = n) := by
  obtain ⟨hk, hr, rfl⟩ | ⟨-, rfl⟩ | ⟨-, -, hl, -⟩ := parseEntry_cases h
  · refine ⟨le_trans hr (Nat.le_max_right _ _), ?_⟩
    rintro (hs | hne)
    · exact fromChars_spelled f.contentLength hs
    · exact absurd hk hne
  · exact ⟨Nat.le_max_left _ _, fun _ => .inl rfl⟩
  · exact ⟨hl ▸ Nat.le_max_left _ _, fun _ => .inl hl⟩

theorem parseEntry_trusted (h : parseEntry f key v = some g) :
    g.trusted = if key = untrustedKey then decide (v ≠ ascii "1") else f.trusted := by
  obtain ⟨hk, -, rfl⟩ | ⟨hk, rfl⟩ | ⟨-, hk, -, ht⟩ := parseEntry_cases h
  · rw [if_neg (hk ▸ by decide)]
  · rw [if_pos hk]
  · rw [if_neg hk, ht]

theorem applyEntries_length (hf : f.contentLength ≤ maxContentSize)
    (h : applyEntries f es = some g) : g.contentLength ≤ maxContentSize := by
  induction es generalizing f with
  | nil =>
    cases h
    exact hf
  | cons e es ih =>
    obtain ⟨f', hp, h⟩ := applyEntries_cons h
    apply ih _ h
    have hl := (parseEntry_length (n := 0) hp).1
    omega

theorem applyEntries_oneLength (hn : ∀ v, (contentLengthKey, v) ∈ es → Spells v n)
    (hf : f.contentLength = 0 ∨ f.contentLength = n) (h : applyEntries f es = some g) :
    g.contentLength = 0 ∨ g.contentLength = n := by
  induction es generalizing f with
  | nil =>
    cases h
    exact hf
  | cons e es ih =>
    obtain ⟨f', hp, h⟩ := applyEntries_cons h
    apply ih (fun v hv => hn v (List.mem_cons_of_mem _ hv)) _ h
    have hs : Spells e.2 n ∨ e.1 ≠ contentLengthKey := by
      by_cases hk : e.1 = contentLengthKey
      · left
        apply hn
        rw [← hk]
        exact List.mem_cons_self
      · exact .inr hk
    rcases (parseEntry_length hp).2 hs with hl | hl
    · rw [hl]
      exact hf
    · exact .inr hl

theorem applyEntries_trusted (h : applyEntries f es = some g) :
    g.trusted = match lastValue untrustedKey es with
      | none => f.trusted
      | some v => decide (v ≠ ascii "1") := by
  induction es generalizing f with
  | nil =>
    cases h
    rfl
  | cons e es ih =>
    obtain ⟨f', hp, h⟩ := applyEntries_cons h
    rw [ih h, lastValue]
    cases hl : lastValue untrustedKey es with
    | some v => rfl
    | none =>
      rw [Option.none_or, parseEntry_trusted hp]
      by_cases hk : e.1 = untrustedKey
      · rw [if_pos hk, if_pos hk]
      · rw [if_neg hk, if_neg hk]

end

theorem lastValue_of_mem {key v : Bytes} (h : (key, v) ∈ es) : ∃ w, lastValue key es = some w := by
  induction es with
  | nil => cases h
  | cons e es ih =>
    rw [lastValue]
    rcases List.mem_cons.mp h with rfl | h
    · rw [if_pos rfl]
      cases lastValue key es with
      | none => exact ⟨v, rfl⟩
      | some w => exact ⟨w, rfl⟩
    · obtain ⟨w, hw⟩ := ih h
      rw [hw]
      exact ⟨w, rfl⟩

theorem untrusted_iff (h : applyEntries initialFields es = some g) :
    ((untrustedKey, ascii "1") ∈ es → g.trusted = false) ↔ StaysUntrusted es := by
  have ht := applyEntries_trusted h
  constructor
  · intro hu hm
    obtain ⟨w, hw⟩ := lastValue_of_mem hm
    rw [hw, hu hm] at ht
    have he : w = ascii "1" := by simpa using ht.symm
    rw [hw, he]
  · intro hs hm
    rw [ht, hs hm]
    decide

theorem received_entries {earlier : Task} {r : Request}
    (h : Delivers (opened earlier) bytes (.received r)) :
    ∃ es g, requestEntries bytes = some es ∧ applyEntries initialFields es = some g ∧
      g.contentLength ≠ 0 ∧ r.length = g.contentLength ∧ r.trusted = g.trusted := by
  have ho := h.outcome [] (opened_tracks earlier)
  rw [List.nil_append, outcome] at ho
  split at ho
  · split at ho <;> cases ho
  · cases ho
  rename_i body g hs
  split at ho
  · cases ho
  split at ho
  · cases ho
  cases ho
  have hr : readHeader initialFields bytes = .complete body g := by
    have hd : readHeader initialFields (bytes.take defaultBufferSize) ≠ .incomplete := by
      rw [scan] at hs
      rw [hs]
      simp
    rw [← List.take_append_drop defaultBufferSize bytes, readHeader_append hd]
    exact hs
  obtain ⟨es, hes, ha, hz⟩ := readHeader_entries hr
  exact ⟨es, g, hes, ha, hz, rfl, rfl⟩

/-- A request agrees with its entries when all its length entries are one number and the
last entry about trust does not give it back. -/
theorem received_agrees_iff (earlier : Task) (bytes : Bytes) (r : Request)
    (h : Delivers (opened earlier) bytes (.received r)) :
    ∃ es, requestEntries bytes = some es ∧
      (Agrees es (receiveCall r) ↔ OneLength es ∧ StaysUntrusted es) := by
  obtain ⟨es, g, hes, ha, hz, hl, ht⟩ := received_entries h
  refine ⟨es, hes, ?_⟩
  have hentrance : (receiveCall r).entrance = .processUntrusted ↔ g.trusted = false := by
    rw [receiveCall, ht]
    cases g.trusted <;> simp
  constructor
  · intro hagrees
    constructor
    · exact ⟨r.length, hagrees.length⟩
    · apply (untrusted_iff ha).mp
      intro hm
      exact hentrance.mp (hagrees.untrusted hm)
  · rintro ⟨⟨n, hn⟩, hs⟩
    have hlength : g.contentLength = n := by
      rcases applyEntries_oneLength hn (.inl rfl) ha with h0 | h0
      · exact absurd h0 hz
      · exact h0
    constructor
    · intro v hv
      have hv := hn v hv
      rw [← hlength, ← hl] at hv
      exact hv
    · have hpos : 1 ≤ r.length := by omega
      exact hpos
    · have hmax : r.length ≤ maxContentSize := by
        rw [hl]
        exact applyEntries_length (Nat.zero_le _) ha
      exact hmax
    · intro hm
      exact hentrance.mpr ((untrusted_iff ha).mpr hs hm)

def freshTask : Task := ⟨[], 0, 0, 0, .xml, false, false, true⟩

def requestBytes (es : List Entry) (body : Bytes) : Bytes :=
  let header := es.flatMap fun e => e.1 ++ 0 :: (e.2 ++ [0])
  decimal header.length ++ 58 :: (header ++ 44 :: body)

theorem delivers_of_outcome {o : Outcome} (t : Task) (h : outcome bytes = o) :
    Delivers (opened t) bytes o := by
  obtain ⟨o', ho⟩ := delivers_exists bytes (opened t)
  have he : o' = outcome bytes := ho.outcome [] (opened_tracks t)
  rw [← h, ← he]
  exact ho

theorem plain_received_agrees :
    ∃ es, requestEntries (requestBytes [(contentLengthKey, ascii "2")] (ascii "[]")) = some es ∧
      (Agrees es (receiveCall ⟨ascii "[]", 2, .json, false, true⟩) ↔
        OneLength es ∧ StaysUntrusted es) :=
  received_agrees_iff freshTask _ _ (delivers_of_outcome freshTask (by decide +kernel))

def contradicting : List Entry :=
  [(contentLengthKey, ascii "1"), (contentLengthKey, ascii "2"), (contentLengthKey, []),
    (contentLengthKey, ascii "9999999999"), (untrustedKey, ascii "1"), (untrustedKey, ascii "0")]

/-- Three of these four lengths are not the one that is used, and the connection that was marked
as untrusted is trusted. -/
theorem contradicting_received :
    Delivers (opened freshTask) (requestBytes contradicting (ascii "[]"))
      (.received ⟨ascii "[]", 2, .json, false, true⟩) ∧
    requestEntries (requestBytes contradicting (ascii "[]")) = some contradicting ∧
    ¬ Spells (ascii "1") 2 ∧ ¬ Spells [] 2 ∧ ¬ Spells (ascii "9999999999") 2 ∧
    (receiveCall ⟨ascii "[]", 2, .json, false, true⟩).entrance = .process ∧
    ¬ Agrees contradicting (receiveCall ⟨ascii "[]", 2, .json, false, true⟩) := by
  refine ⟨delivers_of_outcome freshTask (by decide +kernel), by decide +kernel, by decide,
    by decide, by decide, by decide, ?_⟩
  intro h
  have hu := h.untrusted (by decide)
  cases hu

end ScgiHeaderEntries
