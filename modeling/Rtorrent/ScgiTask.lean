import Rtorrent.DecimalText

/-! # Reading an SCGI request

A task collects what `recv` returns in one buffer. Until it has a content length it scans the
header again from the start; then it moves the body to where all of it fits. -/
namespace ScgiTask

open DecimalText

abbrev Bytes := List UInt8

def ascii (s : String) : Bytes := s.toList.map fun c => UInt8.ofNat c.toNat

def defaultBufferSize : ℕ := 8191
def maxHeaderSize : ℕ := 2000
def maxContentSize : ℕ := 2 <<< 23

inductive ContentType where
  | xml
  | json
  deriving DecidableEq, Repr

structure Task where
  buffer : Bytes
  position : ℕ
  body : ℕ
  contentLength : ℕ
  contentType : ContentType
  contentTypeSet : Bool
  acceptsCompression : Bool
  trusted : Bool
  deriving DecidableEq, Repr

/-- What is handed to `receive_call`. -/
structure Request where
  body : Bytes
  length : ℕ
  contentType : ContentType
  acceptsCompression : Bool
  trusted : Bool
  deriving DecidableEq, Repr

inductive Outcome where
  | waiting
  | closed
  | received (r : Request)
  | internalError (what : String)
  deriving DecidableEq, Repr

/-- `std::vector<char>::resize`. -/
def resize (buffer : Bytes) (size : ℕ) : Bytes :=
  buffer.take size ++ List.replicate (size - buffer.length) 0

/-- `SCgiTask::open` on a task that was used before. -/
def opened (t : Task) : Task where
  buffer := resize t.buffer (defaultBufferSize + 1)
  position := 0
  body := 0
  contentLength := 0
  contentType := .xml
  contentTypeSet := false
  acceptsCompression := false
  trusted := true

def write (buffer : Bytes) (pos : ℕ) (bytes : Bytes) : Bytes :=
  buffer.take pos ++ bytes ++ buffer.drop (pos + bytes.length)

/-- `std::from_chars` for an `unsigned int`, which keeps its value when there is no number or it
is out of range. -/
def fromChars (old : ℕ) (text : Bytes) : ℕ × Bytes :=
  let digits := text.takeWhile isDigit
  (if digits = [] ∨ 2 ^ 32 ≤ value digits then old else value digits, text.dropWhile isDigit)

structure Fields where
  contentLength : ℕ
  contentType : Bytes
  acceptsCompression : Bool
  trusted : Bool
  deriving DecidableEq, Repr

/-- The bytes before the first nul byte and those behind it. -/
def splitNul : Bytes → Option (Bytes × Bytes)
  | [] => none
  | c :: cs => if c = 0 then some ([], cs) else (splitNul cs).map fun r => (c :: r.1, r.2)

def parseEntry (f : Fields) (key value : Bytes) : Option Fields :=
  if key = ascii "CONTENT_LENGTH" then
    let (length, rest) := fromChars f.contentLength value
    if rest ≠ [] ∨ length = 0 ∨ maxContentSize < length then none
    else some { f with contentLength := length }
  else if key = ascii "CONTENT_TYPE" then some { f with contentType := value }
  else if key = ascii "ACCEPT_ENCODING" then
    if ascii "gzip" <:+: value then some { f with acceptsCompression := true } else some f
  else if key = ascii "UNTRUSTED_CONNECTION" then
    if value = ascii "1" then some { f with trusted := false }
    else if value = ascii "0" then some { f with trusted := true }
    else none
  else some f

/-- The loop of `parse_headers`. Each turn takes two bytes or more. -/
def parseEntries : ℕ → Fields → Bytes → Option Fields
  | _, f, [] => some f
  | 0, _, _ :: _ => none
  | turns + 1, f, header => do
    let (key, rest) ← splitNul header
    if rest = [] then none
    else
      let (value, rest) ← splitNul rest
      let f ← parseEntry f key value
      parseEntries turns f rest

inductive Header where
  | incomplete
  | failed
  | complete (body : ℕ) (fields : Fields)
  deriving DecidableEq, Repr

/-- The header behind its size and the `:`, which is at position `start` of the buffer. -/
def readEntries (fields : Fields) (headerSize start : ℕ) (header : Bytes) : Header :=
  if header.length < headerSize + 1 then .incomplete
  else if header[headerSize]? ≠ some 44 then .failed
  else if header.take 15 ≠ ascii "CONTENT_LENGTH" ++ [0] then .failed
  else match parseEntries headerSize fields (header.take headerSize) with
    | none => .failed
    | some f => if f.contentLength = 0 then .failed else .complete (start + headerSize + 1) f

/-- The scan of the bytes received so far. -/
def readHeader (fields : Fields) (received : Bytes) : Header :=
  let (headerSize, current) := fromChars 0 received
  if current.length = received.length then .incomplete
  else match current with
    | [] => .incomplete
    | c :: header =>
      if c ≠ 58 ∨ headerSize < 17 ∨ maxHeaderSize < headerSize then .failed
      else readEntries fields headerSize (received.length - header.length) header

def scgiMatchContentType (contentType : Bytes) (type : String) : Bool :=
  contentType.takeWhile (fun c => c ≠ 32 ∧ c ≠ 59) = ascii type

/-- No type for an empty text, which leaves it to the first byte of the body. -/
def detectContentType (contentType : Bytes) : Option (Option ContentType) :=
  if contentType = [] then some none
  else if scgiMatchContentType contentType "application/json" then some (some .json)
  else if scgiMatchContentType contentType "text/xml" then some (some .xml)
  else none

inductive Result where
  | reading (t : Task)
  | ended (o : Outcome)
  deriving DecidableEq, Repr

def readLength (t : Task) : ℤ :=
  t.buffer.length - t.position - if t.contentLength = 0 then 1 else 0

/-- The end of `parse_headers`: a body that does not fit behind the header moves to the start of
the buffer. -/
def relocate (t : Task) : Task :=
  let received := (t.buffer.take t.position).drop t.body
  if t.buffer.length < t.body + t.contentLength then
    { t with
      buffer := if defaultBufferSize < t.contentLength
        then write (List.replicate t.contentLength 0) 0 received
        else write t.buffer 0 received
      position := t.position - t.body
      body := 0 }
  else t

def bodyContentType (default : ContentType) (body : Bytes) : ContentType :=
  if body.head? = some 123 ∨ body.head? = some 91 then .json else default

/-- The end of `event_read`. -/
def finish (t : Task) : Result :=
  if t.position < t.body + t.contentLength then .reading t
  else .ended (.received
    { body := (t.buffer.drop t.body).take t.contentLength
      length := t.contentLength
      contentType := if t.contentTypeSet then t.contentType
        else bodyContentType t.contentType (t.buffer.drop t.body)
      acceptsCompression := t.acceptsCompression
      trusted := t.trusted })

def storeBytes (t : Task) (bytes : Bytes) : Task :=
  { t with buffer := write t.buffer t.position bytes, position := t.position + bytes.length }

/-- The part of `event_read` and `parse_headers` that runs while there is no content length. -/
def headerRead (t : Task) : Result :=
  let t := { t with buffer := write t.buffer t.position [0] }
  match readHeader ⟨t.contentLength, [], t.acceptsCompression, t.trusted⟩
      (t.buffer.take t.position) with
  | .incomplete => .reading t
  | .failed => .ended .closed
  | .complete body f =>
    if t.buffer.length < body then .ended (.internalError
      "SCgiTask::event_read() header parsing overflow : body start is beyond buffer end")
    else match detectContentType f.contentType with
      | none => .ended .closed
      | some type =>
        finish (relocate { t with
          body := body
          contentLength := f.contentLength
          contentType := type.getD t.contentType
          contentTypeSet := type.isSome || t.contentTypeSet
          acceptsCompression := f.acceptsCompression
          trusted := f.trusted })

/-- `event_read` when `recv` returns these bytes. -/
def eventRead (t : Task) (bytes : Bytes) : Result :=
  if readLength t ≤ 0 then
    if t.contentLength = 0 then .ended .closed
    else .ended (.internalError "SCgiTask::event_read() no space in buffer for event_read.")
  else if t.contentLength = 0 then headerRead (storeBytes t bytes)
  else finish (storeBytes t bytes)

/-- A task that gets these bytes, cut into results of `recv` in some way, comes to this outcome.
Without room `recv` is not called. -/
inductive Delivers : Task → Bytes → Outcome → Prop
  | idle (t : Task) : Delivers t [] .waiting
  | full {t : Task} {bytes : Bytes} {o : Outcome} (hb : bytes ≠ []) (hf : readLength t ≤ 0)
      (he : eventRead t [] = .ended o) : Delivers t bytes o
  | last {t : Task} {bytes rest : Bytes} {o : Outcome} (hb : bytes ≠ [])
      (hl : bytes.length ≤ readLength t) (he : eventRead t bytes = .ended o) :
      Delivers t (bytes ++ rest) o
  | next {t u : Task} {bytes rest : Bytes} {o : Outcome} (hb : bytes ≠ [])
      (hl : bytes.length ≤ readLength t) (he : eventRead t bytes = .reading u)
      (h : Delivers u rest o) : Delivers t (bytes ++ rest) o

def initialFields : Fields := ⟨0, [], false, true⟩

def makeRequest (f : Fields) (type : Option ContentType) (body : Bytes) : Request where
  body := body
  length := f.contentLength
  contentType := type.getD (bodyContentType .xml body)
  acceptsCompression := f.acceptsCompression
  trusted := f.trusted

/-- The header scan, which never sees more than the buffer holds. -/
def scan (bytes : Bytes) : Header := readHeader initialFields (bytes.take defaultBufferSize)

/-- The outcome as a function of all bytes that were sent. -/
def outcome (bytes : Bytes) : Outcome :=
  match scan bytes with
  | .incomplete => if bytes.length ≤ defaultBufferSize then .waiting else .closed
  | .failed => .closed
  | .complete body f =>
    match detectContentType f.contentType with
    | none => .closed
    | some type =>
      if bytes.length < body + f.contentLength then .waiting
      else .received (makeRequest f type ((bytes.drop body).take f.contentLength))

theorem length_resize (buffer : Bytes) (size : ℕ) : (resize buffer size).length = size := by
  simp only [resize, List.length_append, List.length_take, List.length_replicate]
  omega

variable {buffer bytes : Bytes} {pos : ℕ}

theorem length_write (h : pos + bytes.length ≤ buffer.length) :
    (write buffer pos bytes).length = buffer.length := by
  simp only [write, List.length_append, List.length_take, List.length_drop]
  omega

theorem take_write (h : pos ≤ buffer.length) :
    (write buffer pos bytes).take (pos + bytes.length) = buffer.take pos ++ bytes := by
  have hl : (buffer.take pos ++ bytes).length = pos + bytes.length := by
    simp only [List.length_append, List.length_take]
    omega
  rw [write, List.take_left' hl]

theorem take_write_self (h : pos ≤ buffer.length) :
    (write buffer pos bytes).take pos = buffer.take pos := by
  have hl : (buffer.take pos).length = pos := by
    simp only [List.length_take]
    omega
  rw [write, List.append_assoc, List.take_left' hl]

variable {more : Bytes}

theorem fromChars_append {old : ℕ} {text : Bytes} (h : (fromChars old text).2 ≠ []) :
    fromChars old (text ++ more) =
      ((fromChars old text).1, (fromChars old text).2 ++ more) := by
  have hd : text.dropWhile isDigit ≠ [] := h
  have hl : (text.takeWhile isDigit).length ≠ text.length := by
    have ht := congrArg List.length (List.takeWhile_append_dropWhile (p := isDigit) (l := text))
    have hp := List.length_pos_iff.mpr hd
    simp only [List.length_append] at ht
    omega
  simp only [fromChars, List.takeWhile_append, hl, ↓reduceIte, List.dropWhile_append,
    List.isEmpty_iff, hd]

theorem readEntries_append {size start : ℕ} {header : Bytes} (hs : 17 ≤ size)
    (h : readEntries f size start header ≠ .incomplete) :
    readEntries f size start (header ++ more) = readEntries f size start header := by
  have hl : ¬ header.length < size + 1 := by
    intro hl
    exact h (if_pos hl)
  have hl' : ¬ (header ++ more).length < size + 1 := by
    rw [List.length_append]
    omega
  have h15 : (header ++ more).take 15 = header.take 15 := List.take_append_of_le_length (by omega)
  have hn : (header ++ more).take size = header.take size :=
    List.take_append_of_le_length (by omega)
  have hi : (header ++ more)[size]? = header[size]? := List.getElem?_append_left (by omega)
  simp only [readEntries, hl, hl', h15, hn, hi]

theorem readHeader_append {received : Bytes} (h : readHeader f received ≠ .incomplete) :
    readHeader f (received ++ more) = readHeader f received := by
  have hle : (fromChars 0 received).2.length ≤ received.length :=
    (List.dropWhile_suffix _).length_le
  cases hr : fromChars 0 received with
  | mk size current =>
    rw [hr] at hle
    cases current with
    | nil => exact absurd (by simp [readHeader, hr]) h
    | cons c header =>
      have ha : fromChars 0 (received ++ more) = (size, c :: (header ++ more)) := by
        rw [fromChars_append (by simp [hr]), hr]
        rfl
      have hne : (c :: header).length ≠ received.length := fun he =>
        h (by simp only [readHeader, hr, he, ↓reduceIte])
      have hne' : (c :: (header ++ more)).length ≠ (received ++ more).length := by
        simp only [List.length_cons, List.length_append] at hne ⊢
        omega
      have hstart : (received ++ more).length - (header ++ more).length =
          received.length - header.length := by
        simp only [List.length_append]
        omega
      simp only [readHeader, hr, ha, hne, hne', ↓reduceIte, hstart] at h ⊢
      split
      · rfl
      · rename_i hc
        rw [if_neg hc] at h
        exact readEntries_append (by omega) h

theorem readHeader_body {g : Fields} {received : Bytes} {body : ℕ}
    (h : readHeader f received = .complete body g) :
    body ≤ received.length ∧ 0 < g.contentLength := by
  have hle : (fromChars 0 received).2.length ≤ received.length :=
    (List.dropWhile_suffix _).length_le
  rw [readHeader] at h
  split at h
  rename_i size current hr
  rw [hr] at hle
  split at h
  · cases h
  split at h
  · cases h
  split at h
  · cases h
  rw [readEntries] at h
  split at h
  · cases h
  rename_i header _ _ hlen
  split at h
  · cases h
  split at h
  · cases h
  split at h
  · cases h
  split at h
  · cases h
  rename_i hz
  cases h
  simp only [List.length_cons] at hle
  exact ⟨by omega, by omega⟩

theorem scan_append (h : scan bytes ≠ .incomplete) : scan (bytes ++ more) = scan bytes := by
  simp only [scan] at h ⊢
  rw [List.take_append]
  exact readHeader_append h

/-- All that has come in is at the start of the buffer, and no header was read. -/
structure Collected (received : Bytes) (t : Task) : Prop where
  position : t.position = received.length
  length : t.buffer.length = defaultBufferSize + 1
  room : received.length ≤ defaultBufferSize
  data : t.buffer.take t.position = received
  contentLength : t.contentLength = 0
  contentType : t.contentType = .xml
  contentTypeSet : t.contentTypeSet = false
  acceptsCompression : t.acceptsCompression = false
  trusted : t.trusted = true

/-- The header has come in, and the buffer holds the body so far and has room for its rest. -/
structure Carrying (received : Bytes) (t : Task) (body : ℕ) (f : Fields)
    (type : Option ContentType) : Prop where
  header : scan received = .complete body f
  detected : detectContentType f.contentType = some type
  position : t.position = t.body + (received.length - body)
  data : (t.buffer.take t.position).drop t.body = received.drop body
  room : t.body + t.contentLength ≤ t.buffer.length
  contentLength : t.contentLength = f.contentLength
  contentType : t.contentType = type.getD .xml
  contentTypeSet : t.contentTypeSet = type.isSome
  acceptsCompression : t.acceptsCompression = f.acceptsCompression
  trusted : t.trusted = f.trusted

/-- What an open task that waits for more has received. -/
def Tracks (received : Bytes) (t : Task) : Prop :=
  Collected received t ∧ scan received = .incomplete ∨ ∃ body f type,
    Carrying received t body f type ∧ t.position < t.body + t.contentLength

/-- The result of an event agrees with the outcome of every continuation. -/
def Meets (received : Bytes) : Result → Prop
  | .reading t => Tracks received t
  | .ended o => ∀ more, outcome (received ++ more) = o

section

variable {received bytes : Bytes} {t : Task} {body : ℕ} {f : Fields} {type : Option ContentType}

theorem Carrying.body_le (h : Carrying received t body f type) :
    body ≤ received.length ∧ 0 < f.contentLength := by
  obtain ⟨hb, hl⟩ := readHeader_body h.header
  rw [List.length_take] at hb
  exact ⟨by omega, hl⟩

theorem Tracks.waiting (h : Tracks received t) : outcome received = .waiting := by
  rcases h with ⟨h, hs⟩ | ⟨body, f, type, h, hp⟩
  · simp only [outcome, hs, h.room, ↓reduceIte]
  · have hb := h.body_le
    have hpos := h.position
    have hl := h.contentLength
    have hw : received.length < body + f.contentLength := by omega
    simp only [outcome, h.header, h.detected, hw, ↓reduceIte]

theorem bodyContentType_take {n : ℕ} (h : 0 < n) (default : ContentType) (body : Bytes) :
    bodyContentType default (body.take n) = bodyContentType default body := by
  have hh : (body.take n).head? = body.head? := by rw [List.head?_take, if_neg (by omega)]
  rw [bodyContentType, bodyContentType, hh]

theorem finish_meets (h : Carrying received t body f type) : Meets received (finish t) := by
  have hb := h.body_le
  have hpos := h.position
  have hl := h.contentLength
  rw [finish]
  split
  · rename_i hp
    exact .inr ⟨body, f, type, h, hp⟩
  · rename_i hp
    intro more
    have hdata : (t.buffer.drop t.body).take f.contentLength =
        (received.drop body).take f.contentLength := by
      rw [← h.data, List.drop_take, List.take_take]
      congr 1
      omega
    have hmore : ((received ++ more).drop body).take f.contentLength =
        (received.drop body).take f.contentLength := by
      rw [List.drop_append_of_le_length hb.1, List.take_append_of_le_length]
      rw [List.length_drop]
      omega
    have hw : ¬ (received ++ more).length < body + f.contentLength := by
      rw [List.length_append]
      omega
    have hscan : scan (received ++ more) = .complete body f := by
      rw [scan_append (by rw [h.header]; simp), h.header]
    have htype : (if t.contentTypeSet then t.contentType
        else bodyContentType t.contentType (t.buffer.drop t.body)) =
        type.getD (bodyContentType .xml ((received.drop body).take f.contentLength)) := by
      rw [h.contentTypeSet, h.contentType, ← hdata, bodyContentType_take hb.2]
      cases type <;> rfl
    simp only [outcome, hscan, h.detected, hw, ↓reduceIte, hmore, makeRequest, htype, hl, hdata,
      h.acceptsCompression, h.trusted]

theorem relocate_carrying (hscan : scan received = .complete body f)
    (hd : detectContentType f.contentType = some type) (hroom : received.length ≤ defaultBufferSize)
    (hbody : t.body = body) (hpos : t.position = received.length)
    (hlen : t.buffer.length = defaultBufferSize + 1) (hdata : t.buffer.take t.position = received)
    (hl : t.contentLength = f.contentLength) (hc : t.contentType = type.getD .xml)
    (hset : t.contentTypeSet = type.isSome) (ha : t.acceptsCompression = f.acceptsCompression)
    (ht : t.trusted = f.trusted) : Carrying received (relocate t) body f type := by
  have hb : body ≤ received.length := by
    have hb := (readHeader_body hscan).1
    rw [List.length_take] at hb
    omega
  have hslice : ((t.buffer.take t.position).drop t.body) = received.drop body := by
    rw [hdata, hbody]
  have hsl : (received.drop body).length = received.length - body := List.length_drop
  rw [relocate]
  simp only [hslice]
  split
  · rename_i hr
    have hmove : ∀ buffer : Bytes,
        ((write buffer 0 (received.drop body)).take (t.position - t.body)).drop 0 =
          received.drop body := by
      intro buffer
      have hw : (write buffer 0 (received.drop body)).take (0 + (received.drop body).length) =
          buffer.take 0 ++ received.drop body := take_write (Nat.zero_le _)
      rw [Nat.zero_add, List.take_zero, List.nil_append, hsl] at hw
      rw [List.drop_zero, hpos, hbody, hw]
    refine ⟨hscan, hd, by simp only; omega, ?_, ?_, hl, hc, hset, ha, ht⟩
    · simp only
      split
      · exact hmove _
      · exact hmove _
    · simp only [Nat.zero_add]
      split
      · rw [length_write (by simp only [List.length_replicate]; omega), List.length_replicate]
      · rw [length_write (by omega)]
        omega
  · rename_i hr
    exact ⟨hscan, hd, by omega, by rw [hslice], by omega, hl, hc, hset, ha, ht⟩

theorem outcome_failed (h : scan received = .failed) (more : Bytes) :
    outcome (received ++ more) = .closed := by
  have hs : scan (received ++ more) = .failed := by
    rw [scan_append (by rw [h]; simp), h]
  simp only [outcome, hs]

theorem outcome_undetected (h : scan received = .complete body f)
    (hd : detectContentType f.contentType = none) (more : Bytes) :
    outcome (received ++ more) = .closed := by
  have hs : scan (received ++ more) = .complete body f := by
    rw [scan_append (by rw [h]; simp), h]
  simp only [outcome, hs, hd]

theorem storeBytes_collected (h : Collected received t)
    (hl : received.length + bytes.length ≤ defaultBufferSize) :
    Collected (received ++ bytes) (storeBytes t bytes) := by
  have hpos := h.position
  have hlen := h.length
  refine ⟨?_, ?_, ?_, ?_, h.contentLength, h.contentType, h.contentTypeSet, h.acceptsCompression,
    h.trusted⟩
  · simp only [storeBytes, hpos, List.length_append]
  · simp only [storeBytes]
    rw [length_write (by omega), hlen]
  · rw [List.length_append]
    exact hl
  · simp only [storeBytes]
    rw [take_write (by omega), h.data]

theorem terminate_collected (h : Collected received t) :
    Collected received { t with buffer := write t.buffer t.position [0] } := by
  have hpos := h.position
  have hlen := h.length
  have hroom := h.room
  refine ⟨hpos, ?_, hroom, ?_, h.contentLength, h.contentType, h.contentTypeSet,
    h.acceptsCompression, h.trusted⟩
  · simp only
    rw [length_write (by simp only [List.length_singleton]; omega), hlen]
  · simp only
    rw [take_write_self (by omega), h.data]

theorem headerRead_meets (h : Collected received t) : Meets received (headerRead t) := by
  have hc := terminate_collected h
  have hfields : (⟨t.contentLength, [], t.acceptsCompression, t.trusted⟩ : Fields) =
      initialFields := by
    rw [h.contentLength, h.acceptsCompression, h.trusted, initialFields]
  have hscan : scan received = readHeader initialFields received := by
    rw [scan, List.take_of_length_le h.room]
  rw [headerRead]
  simp only [hfields, hc.data, ← hscan]
  split
  · rename_i hs
    exact .inl ⟨hc, hs⟩
  · rename_i hs
    exact outcome_failed hs
  · rename_i body f hs
    have hb := (readHeader_body (hscan ▸ hs)).1
    have hlen := hc.length
    have hroom := h.room
    simp only at hlen
    rw [if_neg (by omega)]
    split
    · rename_i hd
      exact outcome_undetected hs hd
    · rename_i type hd
      refine finish_meets (relocate_carrying hs hd hroom rfl hc.position hc.length hc.data rfl ?_ ?_
        rfl rfl)
      · simp only [h.contentType]
      · simp only [h.contentTypeSet, Bool.or_false]

theorem storeBytes_carrying (h : Carrying received t body f type)
    (hl : t.position + bytes.length ≤ t.buffer.length) :
    Carrying (received ++ bytes) (storeBytes t bytes) body f type := by
  have hb := h.body_le
  have hpos := h.position
  refine ⟨?_, h.detected, ?_, ?_, ?_, h.contentLength, h.contentType, h.contentTypeSet,
    h.acceptsCompression, h.trusted⟩
  · rw [scan_append (by rw [h.header]; simp), h.header]
  · simp only [storeBytes, List.length_append]
    omega
  · simp only [storeBytes]
    rw [take_write (by omega),
      List.drop_append_of_le_length (by simp only [List.length_take]; omega),
      h.data, List.drop_append_of_le_length hb.1]
  · simp only [storeBytes]
    rw [length_write hl]
    exact h.room

theorem eventRead_meets (h : Tracks received t) (hb : bytes ≠ [])
    (hl : bytes.length ≤ readLength t) : Meets (received ++ bytes) (eventRead t bytes) := by
  have hp := List.length_pos_iff.mpr hb
  have hr : ¬ readLength t ≤ 0 := by omega
  rw [readLength] at hl
  rw [eventRead]
  rw [if_neg hr]
  rcases h with ⟨h, -⟩ | ⟨body, f, type, h, -⟩
  · have hpos := h.position
    have hlen := h.length
    rw [if_pos h.contentLength] at hl ⊢
    exact headerRead_meets (storeBytes_collected h (by omega))
  · have hne : t.contentLength ≠ 0 := by
      have hb := h.body_le
      rw [h.contentLength]
      omega
    rw [if_neg hne] at hl ⊢
    exact finish_meets (storeBytes_carrying h (by omega))

theorem full_meets (h : Tracks received t) (hf : readLength t ≤ 0) (hb : bytes ≠ []) :
    eventRead t [] = .ended (outcome (received ++ bytes)) := by
  have hp := List.length_pos_iff.mpr hb
  rw [eventRead]
  rw [if_pos hf]
  rw [readLength] at hf
  rcases h with ⟨h, hs⟩ | ⟨body, f, type, h, hlt⟩
  · have hpos := h.position
    have hlen := h.length
    have hroom := h.room
    rw [if_pos h.contentLength] at hf ⊢
    have hs' : scan (received ++ bytes) = .incomplete := by
      rw [scan, List.take_append_of_le_length (by omega)]
      exact hs
    have hw : ¬ (received ++ bytes).length ≤ defaultBufferSize := by
      rw [List.length_append]
      omega
    simp only [outcome, hs', hw, ↓reduceIte]
  · have hroom := h.room
    have hb := h.body_le
    have hl := h.contentLength
    rw [if_neg (by omega)] at hf
    omega

end

theorem Delivers.outcome {t : Task} {o : Outcome} (h : Delivers t bytes o) :
    ∀ received, Tracks received t → o = ScgiTask.outcome (received ++ bytes) := by
  induction h with
  | idle t =>
    intro received ht
    rw [List.append_nil, ht.waiting]
  | full hb hf he =>
    intro received ht
    rw [full_meets ht hf hb] at he
    cases he
    rfl
  | last hb hl he =>
    intro received ht
    have hm := eventRead_meets ht hb hl
    rw [he] at hm
    rw [← List.append_assoc]
    exact (hm _).symm
  | next hb hl he _ ih =>
    intro received ht
    have hm := eventRead_meets ht hb hl
    rw [he] at hm
    rw [← List.append_assoc]
    exact ih _ hm

theorem opened_tracks (t : Task) : Tracks [] (opened t) :=
  .inl ⟨⟨rfl, length_resize _ _, Nat.zero_le _, rfl, rfl, rfl, rfl, rfl, rfl⟩, rfl⟩

/-- Some cut always leads to an outcome: `recv` may return one byte at a time. -/
theorem delivers_exists (bytes : Bytes) : ∀ t, ∃ o, Delivers t bytes o := by
  induction bytes with
  | nil => exact fun t => ⟨_, .idle t⟩
  | cons c bytes ih =>
    intro t
    by_cases hf : readLength t ≤ 0
    · have he : ∃ o, eventRead t [] = .ended o := by
        rw [eventRead]
        rw [if_pos hf]
        split
        · exact ⟨_, rfl⟩
        · exact ⟨_, rfl⟩
      rcases he with ⟨o, he⟩
      exact ⟨o, .full (by simp) hf he⟩
    · have hl : (([c] : Bytes).length : ℤ) ≤ readLength t := by
        simp only [List.length_singleton]
        omega
      cases he : eventRead t [c] with
      | reading u =>
        obtain ⟨o, ho⟩ := ih u
        exact ⟨o, Delivers.next (by simp) hl he ho⟩
      | ended o => exact ⟨o, Delivers.last (by simp) hl he⟩

/-- For every byte string there is one outcome, no internal error, which a task comes to
whatever it was used for before and however the bytes are cut. -/
theorem delivers_unique (bytes : Bytes) :
    ∃ o, (∀ what, o ≠ .internalError what) ∧
      ∀ earlier o', Delivers (opened earlier) bytes o' ↔ o' = o := by
  refine ⟨outcome bytes, ?_, ?_⟩
  · intro what
    rw [outcome]
    split
    · split <;> simp
    · simp
    · split
      · simp
      · split <;> simp
  · intro earlier o'
    constructor
    · intro h
      exact h.outcome [] (opened_tracks earlier)
    · rintro rfl
      obtain ⟨o, ho⟩ := delivers_exists bytes (opened earlier)
      have he : o = outcome bytes := ho.outcome [] (opened_tracks earlier)
      exact he ▸ ho

end ScgiTask
