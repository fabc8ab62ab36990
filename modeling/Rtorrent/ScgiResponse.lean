import Rtorrent.ScgiTask
import Rtorrent.TransitionSystems

/-! # Writing an SCGI response

The response is laid out in the buffer of the task and sent in the pieces that `send` takes. A
compressed body is written first, and the header in front of it. -/
namespace ScgiResponse

open DecimalText ScgiTask TransitionSystems

def headerXml : Bytes :=
  ascii "Status: 200 OK\r\nContent-Type: text/xml\r\nContent-Length: "

def headerJson : Bytes :=
  ascii "Status: 200 OK\r\nContent-Type: application/json\r\nContent-Length: "

def headerLast : Bytes := ascii "\r\n\r\n"

def headerFirst : ContentType → Bytes
  | .xml => headerXml
  | .json => headerJson

def zOk : ℤ := 0
def zStreamEnd : ℤ := 1

/-- What zlib is asked for: to start a stream, for the size that a body may need, and to compress
a body into that much room. -/
structure Zlib where
  deflateInit2 : ℤ
  deflateBound : ℕ → ℕ
  deflate : Bytes → ℕ → ℤ × Bytes

/-- A stream starts, and a compressed body fits within the bound, about an eighth more than the
body. -/
structure Zlib.Lawful (z : Zlib) : Prop where
  starts : z.deflateInit2 = zOk
  ends : ∀ body, (z.deflate body (z.deflateBound body.length)).1 = zStreamEnd
  fits : ∀ body,
    (z.deflate body (z.deflateBound body.length)).2.length ≤ z.deflateBound body.length
  bound_le : ∀ n, z.deflateBound n ≤ 2 * n + 64

def Zlib.compressed (z : Zlib) (body : Bytes) : Bytes :=
  (z.deflate body (z.deflateBound body.length)).2

def gzipCompressToVector (z : Zlib) (body output : Bytes) (offset : ℕ) : Except String Bytes :=
  if z.deflateInit2 ≠ zOk then
    .error "gzip_compress_to_vector(...) could not initialize gzip deflate."
  else
    let maxResponseSize := z.deflateBound body.length
    let output := resize output (offset + maxResponseSize)
    let (ret, produced) := z.deflate body maxResponseSize
    let output := write output offset produced
    let availOut := maxResponseSize - produced.length
    if ret ≠ zStreamEnd then
      .error ("gzip_compress_to_vector(...) deflate did not return Z_STREAM_END: " ++ toString ret)
    else .ok (resize output (offset + maxResponseSize - availOut))

structure Settings where
  allowCompression : Bool
  minCompressSize : ℕ

def plaintextResponse (t : Task) (body : Bytes) : Task :=
  let first := headerFirst t.contentType
  let length := text body.length
  let buffer := resize t.buffer
    (first.length + length.length + headerLast.length + body.length)
  let buffer := write buffer 0 first
  let buffer := write buffer first.length length
  let buffer := write buffer (first.length + length.length) headerLast
  let buffer := write buffer (first.length + length.length + headerLast.length) body
  { t with buffer := buffer, position := 0 }

/-- The start of the header is computed before the first check, in unsigned arithmetic. -/
def gzipResponse (z : Zlib) (t : Task) (body : Bytes) : Except String Task :=
  let first := headerFirst t.contentType
  let bodyOffset := first.length + 20 + headerLast.length
  match gzipCompressToVector z body t.buffer bodyOffset with
  | .error what => .error what
  | .ok buffer =>
    let length := text (buffer.length - bodyOffset)
    let headerSize := first.length + length.length + headerLast.length
    let headerStart := (bodyOffset + 2 ^ 64 - headerSize) % 2 ^ 64
    if bodyOffset < headerSize then
      .error "SCgiTask::gzip_response(...) header overflow : start position is negative"
    else if bodyOffset < headerStart then
      .error "SCgiTask::gzip_response(...) header overflow : start position is beyond buffer start"
    else
      let buffer := write buffer headerStart first
      let buffer := write buffer (headerStart + first.length) length
      let buffer := write buffer (headerStart + first.length + length.length) headerLast
      .ok { t with buffer := buffer, position := headerStart }

def maxResponseSize : ℕ := 100 <<< 20

def compresses (settings : Settings) (t : Task) (body : Bytes) : Bool :=
  t.acceptsCompression && settings.allowCompression && settings.minCompressSize < body.length

def receiveWrite (z : Zlib) (settings : Settings) (t : Task) (body : Bytes) :
    Except String Task :=
  if maxResponseSize < body.length then
    .error "SCgiTask::receive_write(...) received bad input."
  else if compresses settings t body then gzipResponse z t body
  else .ok (plaintextResponse t body)

inductive Errno where
  | again
  | interrupted
  | other
  deriving DecidableEq, Repr

inductive SendResult where
  | sent (bytes : ℕ)
  | failed (errno : Errno)
  deriving DecidableEq, Repr

structure Connection where
  task : Task
  sent : Bytes
  isOpen : Bool
  deriving DecidableEq, Repr

def Connection.close (c : Connection) : Connection :=
  { c with task := { c.task with buffer := [] }, isOpen := false }

/-- `event_write` when `send` returns this. The position is an `unsigned int`. -/
def eventWrite (c : Connection) : SendResult → Connection
  | .failed .other => c.close
  | .failed _ => c
  | .sent bytes =>
    let position := (c.task.position + bytes) % 2 ^ 32
    let c' : Connection :=
      { c with
        task := { c.task with position := position }
        sent := c.sent ++ (c.task.buffer.drop c.task.position).take bytes }
    if bytes = 0 ∨ position = c.task.buffer.length then c'.close else c'

/-- `send` takes one byte or more of those that are left, or has to be called again. -/
def Sendable (c : Connection) : SendResult → Prop
  | .sent bytes => 1 ≤ bytes ∧ bytes ≤ c.task.buffer.length - c.task.position
  | .failed errno => errno = .again ∨ errno = .interrupted

instance (c : Connection) (r : SendResult) : Decidable (Sendable c r) := by
  cases r <;> simp only [Sendable] <;> infer_instance

/-- The connection from the response on. A closed one gets no more events. -/
def writer : Machine Connection SendResult where
  Enabled c r := c.isOpen = true ∧ Sendable c r
  next := eventWrite

instance (c : Connection) (r : SendResult) : Decidable (writer.Enabled c r) :=
  inferInstanceAs (Decidable (c.isOpen = true ∧ Sendable c r))

def successes : List SendResult → ℕ
  | [] => 0
  | .sent _ :: results => successes results + 1
  | .failed _ :: results => successes results

/-- A header with the number of bytes that follow the blank line, and these bytes. -/
def response (type : ContentType) (payload : Bytes) : Bytes :=
  headerFirst type ++ text payload.length ++ headerLast ++ payload

theorem drop_write {buffer bytes : Bytes} {pos k : ℕ} (h : pos ≤ buffer.length) :
    (write buffer pos bytes).drop (pos + bytes.length + k) =
      buffer.drop (pos + bytes.length + k) := by
  have hl : (buffer.take pos ++ bytes).length = pos + bytes.length := by
    simp only [List.length_append, List.length_take]
    omega
  rw [write, ← List.drop_drop, List.drop_left' hl, List.drop_drop]

theorem write_write {buffer first second : Bytes} {pos : ℕ} (h : pos ≤ buffer.length) :
    write (write buffer pos first) (pos + first.length) second =
      write buffer pos (first ++ second) := by
  rw [write, take_write h, drop_write h, write, List.length_append,
    List.append_assoc (buffer.take pos), ← Nat.add_assoc]

theorem write_three {buffer a b c : Bytes} {pos : ℕ} (h : pos ≤ buffer.length) :
    write (write (write buffer pos a) (pos + a.length) b) (pos + a.length + b.length) c =
      write buffer pos (a ++ b ++ c) := by
  rw [write_write h, Nat.add_assoc, ← List.length_append, write_write h]

theorem write_all {buffer bytes : Bytes} (h : bytes.length = buffer.length) :
    write buffer 0 bytes = bytes := by
  rw [write, List.take_zero, List.nil_append, Nat.zero_add, h, List.drop_length, List.append_nil]

theorem drop_write_self {buffer bytes : Bytes} {pos : ℕ} (h : pos ≤ buffer.length) :
    (write buffer pos bytes).drop pos = bytes ++ buffer.drop (pos + bytes.length) := by
  have hl : (buffer.take pos).length = pos := by
    simp only [List.length_take]
    omega
  rw [write, List.append_assoc, List.drop_left' hl]

theorem length_headerFirst_le (type : ContentType) : (headerFirst type).length ≤ 64 := by
  cases type <;> decide +kernel

theorem length_headerLast : headerLast.length = 4 := by decide

/-- The task holds these bytes behind its position, and all of its buffer can be counted. -/
structure Holds (t : Task) (bytes : Bytes) : Prop where
  data : t.buffer.drop t.position = bytes
  position : t.position < t.buffer.length
  length : t.buffer.length < 2 ^ 31

theorem plaintextResponse_holds (t : Task) {body : Bytes} (h : body.length ≤ maxResponseSize) :
    Holds (plaintextResponse t body) (response t.contentType body) := by
  have hbuffer : (plaintextResponse t body).buffer = response t.contentType body := by
    simp only [plaintextResponse]
    generalize hr : resize t.buffer ((headerFirst t.contentType).length +
      (text body.length).length + headerLast.length + body.length) = buffer
    have hlen : (response t.contentType body).length = buffer.length := by
      rw [← hr, length_resize]
      simp only [response, List.length_append]
    have hheader := write_three (a := headerFirst t.contentType) (b := text body.length)
      (c := headerLast) (Nat.zero_le buffer.length)
    have hbody := @write_write buffer
      (headerFirst t.contentType ++ text body.length ++ headerLast) body 0 (Nat.zero_le _)
    simp only [Nat.zero_add, List.length_append] at hheader hbody
    rw [hheader, hbody]
    exact write_all hlen
  have hlength : (response t.contentType body).length < 2 ^ 31 := by
    have hd : (text body.length).length ≤ 20 := by
      apply length_text_le (by omega)
      simp only [maxResponseSize] at h
      omega
    have hf := length_headerFirst_le t.contentType
    simp only [response, List.length_append, length_headerLast, maxResponseSize] at h ⊢
    omega
  constructor
  · rw [hbuffer]
    rfl
  · rw [hbuffer]
    simp only [plaintextResponse, response, List.length_append, length_headerLast]
    omega
  · rw [hbuffer]
    exact hlength

theorem gzipCompressToVector_ok {z : Zlib} (hz : z.Lawful) (body output : Bytes) (offset : ℕ) :
    ∃ buffer, gzipCompressToVector z body output offset = .ok buffer ∧
      buffer.length = offset + (z.compressed body).length ∧
      buffer.drop offset = z.compressed body := by
  have hfits := hz.fits body
  have hends := hz.ends body
  cases hd : z.deflate body (z.deflateBound body.length) with
  | mk ret produced =>
    have hc : z.compressed body = produced := by rw [Zlib.compressed, hd]
    rw [hd] at hfits hends
    simp only at hfits hends
    have hsize : offset + z.deflateBound body.length -
        (z.deflateBound body.length - produced.length) = offset + produced.length := by omega
    refine ⟨resize (write (resize output (offset + z.deflateBound body.length)) offset produced)
      (offset + produced.length), ?_, ?_, ?_⟩
    · simp only [gzipCompressToVector, hz.starts, ne_eq, not_true_eq_false, ↓reduceIte, hd, hends,
        hsize]
    · rw [length_resize, hc]
    · have hle : offset ≤ (resize output (offset + z.deflateBound body.length)).length := by
        rw [length_resize]
        omega
      have hlen : (write (resize output (offset + z.deflateBound body.length)) offset
          produced).length = offset + z.deflateBound body.length := by
        rw [length_write (by rw [length_resize]; omega), length_resize]
      have hzero : offset + produced.length - (offset + z.deflateBound body.length) = 0 := by omega
      rw [resize, hlen, hzero, List.replicate_zero, List.append_nil, take_write hle, hc,
        List.drop_left']
      rw [List.length_take, length_resize]
      omega

/-- The length has at most twenty digits, so the header fits in front of the body. -/
theorem gzipResponse_holds {z : Zlib} (hz : z.Lawful) (t : Task) {body : Bytes}
    (h : body.length ≤ maxResponseSize) :
    ∃ u, gzipResponse z t body = .ok u ∧ Holds u (response t.contentType (z.compressed body)) := by
  obtain ⟨buffer, hb, hl, hd⟩ := gzipCompressToVector_ok hz body t.buffer
    ((headerFirst t.contentType).length + 20 + headerLast.length)
  have hn : (z.compressed body).length ≤ 2 * (100 <<< 20) + 64 := by
    have hfits := hz.fits body
    have hbound := hz.bound_le body.length
    simp only [maxResponseSize] at h
    rw [Zlib.compressed]
    omega
  have hf := length_headerFirst_le t.contentType
  have hdigits : (text (z.compressed body).length).length ≤ 20 := by
    apply length_text_le (by omega)
    omega
  have hsub : buffer.length - ((headerFirst t.contentType).length + 20 + headerLast.length) =
      (z.compressed body).length := by omega
  have h4 := length_headerLast
  generalize hstart : (headerFirst t.contentType).length + 20 + headerLast.length -
    ((headerFirst t.contentType).length + (text (z.compressed body).length).length +
      headerLast.length) = start
  have hwrap : ((headerFirst t.contentType).length + 20 + headerLast.length + 2 ^ 64 -
      ((headerFirst t.contentType).length + (text (z.compressed body).length).length +
        headerLast.length)) % 2 ^ 64 = start := by omega
  have hpos : start ≤ buffer.length := by omega
  refine ⟨{ t with
    buffer := write buffer start
      (headerFirst t.contentType ++ text (z.compressed body).length ++ headerLast)
    position := start }, ?_, ?_⟩
  · simp only [gzipResponse, hb, hsub, hwrap]
    rw [if_neg (by omega), if_neg (by omega), write_three hpos]
  · have hheader : (headerFirst t.contentType ++ text (z.compressed body).length ++
        headerLast).length + start =
          (headerFirst t.contentType).length + 20 + headerLast.length := by
      simp only [List.length_append]
      omega
    have hlength : (write buffer start (headerFirst t.contentType ++
        text (z.compressed body).length ++ headerLast)).length = buffer.length :=
      length_write (by omega)
    constructor
    · simp only
      rw [drop_write_self hpos, Nat.add_comm start, hheader, hd, response]
    · simp only
      rw [hlength]
      omega
    · simp only
      rw [hlength]
      omega

/-- The bytes sent and those left are together the response; a closed connection has sent
it all. -/
structure Sending (bytes : Bytes) (c : Connection) : Prop where
  opened : c.isOpen = true → ∃ rest, Holds c.task rest ∧ c.sent ++ rest = bytes
  closed : c.isOpen = false → c.sent = bytes

theorem eventWrite_sending {bytes : Bytes} {c : Connection} {r : SendResult}
    (h : Sending bytes c) (he : writer.Enabled c r) : Sending bytes (eventWrite c r) := by
  obtain ⟨hopen, hs⟩ := he
  obtain ⟨rest, hh, hsent⟩ := h.opened hopen
  cases r with
  | failed errno =>
    cases errno with
    | again => exact h
    | interrupted => exact h
    | other => rcases hs with hs | hs <;> cases hs
  | sent n =>
    have hpos := hh.position
    have hlen := hh.length
    obtain ⟨h1, hn⟩ := hs
    have hmod : (c.task.position + n) % 2 ^ 32 = c.task.position + n := by omega
    rw [eventWrite]
    simp only [hmod, hh.data]
    by_cases hend : c.task.position + n = c.task.buffer.length
    · rw [if_pos (.inr hend)]
      have htake : rest.take n = rest := by
        apply List.take_of_length_le
        rw [← hh.data, List.length_drop]
        omega
      constructor
      · intro hc
        cases hc
      · intro _
        simp only [Connection.close, htake]
        exact hsent
    · rw [if_neg (by omega)]
      constructor
      · intro _
        refine ⟨rest.drop n, ⟨?_, ?_, hlen⟩, ?_⟩
        · simp only
          rw [← hh.data, List.drop_drop]
        · simp only
          omega
        · simp only
          rw [List.append_assoc, List.take_append_drop, hsent]
      · intro hc
        simp only at hc
        rw [hopen] at hc
        cases hc

theorem eventWrite_sent {c : Connection} {r : SendResult} (he : writer.Enabled c r) :
    (eventWrite c r).sent.length = c.sent.length + match r with
      | .sent n => n
      | .failed _ => 0 := by
  obtain ⟨-, hs⟩ := he
  cases r with
  | failed errno => cases errno <;> rfl
  | sent n =>
    have hlen : ((c.task.buffer.drop c.task.position).take n).length = n := by
      rw [List.length_take, List.length_drop]
      have hn := hs.2
      omega
    rw [eventWrite]
    simp only
    split <;> simp only [Connection.close, List.length_append, hlen]

theorem execution_sent {c d : Connection} {results : List SendResult}
    (h : Execution writer.system c results d) :
    c.sent.length + successes results ≤ d.sent.length := by
  induction h with
  | nil => exact Nat.le_refl _
  | cons hstep _ ih =>
    obtain ⟨he, rfl⟩ := hstep
    rename_i c r _ _ _
    have hs := eventWrite_sent he
    have hnext : (writer.next c r).sent.length = (eventWrite c r).sent.length := rfl
    cases r with
    | failed errno =>
      simp only [successes]
      simp only at hs
      omega
    | sent n =>
      have h1 : 1 ≤ n := he.2.1
      simp only [successes]
      simp only at hs
      omega

/-- A task whose buffer holds some bytes sends just them and is then closed, at the latest when
`send` has taken something that often. -/
theorem holds_sent {t : Task} {bytes : Bytes} (h : Holds t bytes) {results : List SendResult}
    {c : Connection} (he : Execution writer.system ⟨t, [], true⟩ results c) :
    c.sent <+: bytes ∧ (c.isOpen = false ↔ c.sent = bytes) ∧
      (bytes.length ≤ successes results → c.isOpen = false) := by
  have hs : Sending bytes c := by
    apply he.preserves (I := Sending bytes)
    · rintro a r b ha ⟨hb, rfl⟩
      exact eventWrite_sending ha hb
    · constructor
      · intro _
        exact ⟨bytes, h, rfl⟩
      · intro hc
        cases hc
  have hcount := execution_sent he
  have hopen : c.isOpen = true → c.sent <+: bytes ∧ c.sent.length < bytes.length := by
    intro ho
    obtain ⟨rest, hh, hr⟩ := hs.opened ho
    refine ⟨⟨rest, hr⟩, ?_⟩
    have hp := hh.position
    rw [← hr, List.length_append, ← hh.data, List.length_drop]
    omega
  cases hc : c.isOpen with
  | false =>
    have hb := hs.closed hc
    refine ⟨by rw [hb], ⟨fun _ => hb, fun _ => rfl⟩, fun _ => rfl⟩
  | true =>
    obtain ⟨hbegins, hlt⟩ := hopen hc
    refine ⟨hbegins, ⟨?_, ?_⟩, ?_⟩
    · intro hf
      cases hf
    · intro he
      rw [he] at hlt
      omega
    · intro hle
      simp only [List.length_nil] at hcount
      omega

/-- The buffer is filled without an error, and whatever `send` takes at a time, a header with the
length of the body and the body are sent, and the connection is closed behind the last byte. -/
theorem response_sent (z : Zlib) (hz : z.Lawful) (settings : Settings) (t : Task) (body : Bytes)
    (h : body.length ≤ maxResponseSize) :
    ∃ u, receiveWrite z settings t body = .ok u ∧
      ∀ results c, Execution writer.system ⟨u, [], true⟩ results c →
        let bytes := response t.contentType
          (if compresses settings t body then z.compressed body else body)
        c.sent <+: bytes ∧ (c.isOpen = false ↔ c.sent = bytes) ∧
          (bytes.length ≤ successes results → c.isOpen = false) := by
  rw [receiveWrite, if_neg (by omega)]
  cases hc : compresses settings t body with
  | true =>
    obtain ⟨u, hu, hh⟩ := gzipResponse_holds hz t h
    exact ⟨u, hu, fun results c he => holds_sent hh he⟩
  | false =>
    exact ⟨_, rfl, fun results c he => holds_sent (plaintextResponse_holds t h) he⟩

/-- The stream that zlib makes of `[1]`. -/
def gzipOne : Bytes :=
  [0x1f, 0x8b, 0x08, 0, 0, 0, 0, 0, 0, 0x03, 0x8b, 0x36, 0x8c, 0x05, 0, 0xb8, 0x32, 0x2f, 0x4c,
    0x03, 0, 0, 0]

/-- The bound of zlib for a gzip stream with `memLevel` 6. No body other than `[1]` is
compressed. -/
def gzip : Zlib where
  deflateInit2 := zOk
  deflateBound n := n + n / 2 ^ 5 + n / 2 ^ 7 + n / 2 ^ 11 + 25
  deflate body _ := (zStreamEnd, if body = ascii "[1]" then gzipOne else body)

theorem gzip_lawful : gzip.Lawful := by
  refine ⟨rfl, fun _ => rfl, fun body => ?_, fun n => by simp only [gzip]; omega⟩
  by_cases h : body = ascii "[1]"
  · rw [h]
    decide
  · simp only [gzip, if_neg h]
    omega

theorem short_response_sent :
    ∃ u, receiveWrite gzip ⟨true, 1⟩ ⟨[], 0, 0, 0, .json, false, true, true⟩ (ascii "[1]") =
        .ok u ∧
      ∀ results c, Execution writer.system ⟨u, [], true⟩ results c →
        let bytes := response .json gzipOne
        c.sent <+: bytes ∧ (c.isOpen = false ↔ c.sent = bytes) ∧
          (bytes.length ≤ successes results → c.isOpen = false) :=
  response_sent gzip gzip_lawful ⟨true, 1⟩ ⟨[], 0, 0, 0, .json, false, true, true⟩
    (ascii "[1]") (by decide)

end ScgiResponse
