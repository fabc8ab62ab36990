import Rtorrent.ScgiResponse

/-! # Deflate states of compressed responses

zlib allocates a deflate state when `deflateInit2` succeeds and frees it in `deflateEnd`. Each
function is given with the zlib calls that it makes. -/
namespace ScgiDeflate

open ScgiTask ScgiResponse

inductive ZlibCall where
  | deflateInit2 (ret : ℤ)
  | deflateBound
  | deflate (ret : ℤ)
  | deflateEnd
  deriving DecidableEq, Repr

structure Traced (α : Type) where
  calls : List ZlibCall
  result : Except String α

def gzipCompressToVector (z : Zlib) (body output : Bytes) (offset : ℕ) : Traced Bytes :=
  if z.deflateInit2 ≠ zOk then
    ⟨[.deflateInit2 z.deflateInit2],
      .error "gzip_compress_to_vector(...) could not initialize gzip deflate."⟩
  else
    let maxResponseSize := z.deflateBound body.length
    let output := resize output (offset + maxResponseSize)
    let (ret, produced) := z.deflate body maxResponseSize
    let output := write output offset produced
    let availOut := maxResponseSize - produced.length
    let calls := [.deflateInit2 z.deflateInit2, .deflateBound, .deflate ret]
    if ret ≠ zStreamEnd then
      ⟨calls,
        .error ("gzip_compress_to_vector(...) deflate did not return Z_STREAM_END: " ++ toString
          ret)⟩
    else ⟨calls, .ok (resize output (offset + maxResponseSize - availOut))⟩

def gzipResponse (z : Zlib) (t : Task) (body : Bytes) : Traced Task :=
  let offset := (headerFirst t.contentType).length + 20 + headerLast.length
  ⟨(gzipCompressToVector z body t.buffer offset).calls, ScgiResponse.gzipResponse z t body⟩

/-- `receive_write`, also for a null pointer. -/
def receiveWrite (z : Zlib) (settings : Settings) (t : Task) (buffer : Option Bytes) :
    Traced Task :=
  match buffer with
  | none => ⟨[], .error "SCgiTask::receive_write(...) received bad input."⟩
  | some body =>
    if maxResponseSize < body.length then
      ⟨[], .error "SCgiTask::receive_write(...) received bad input."⟩
    else if compresses settings t body then gzipResponse z t body
    else ⟨[], .ok (plaintextResponse t body)⟩

theorem gzipCompressToVector_result (z : Zlib) (body output : Bytes) (offset : ℕ) :
    (gzipCompressToVector z body output offset).result =
      ScgiResponse.gzipCompressToVector z body output offset := by
  rw [gzipCompressToVector, ScgiResponse.gzipCompressToVector]
  split
  · rfl
  · simp only
    split <;> rfl

theorem receiveWrite_result (z : Zlib) (settings : Settings) (t : Task) (body : Bytes) :
    (receiveWrite z settings t (some body)).result =
      ScgiResponse.receiveWrite z settings t body := by
  rw [receiveWrite, ScgiResponse.receiveWrite]
  split
  · rfl
  · split <;> rfl

def ZlibCall.apply (live : ℕ) : ZlibCall → ℕ
  | .deflateInit2 ret => if ret = zOk then live + 1 else live
  | .deflateBound => live
  | .deflate _ => live
  | .deflateEnd => live - 1

def live (calls : List ZlibCall) : ℕ := calls.foldl ZlibCall.apply 0

structure Response where
  zlib : Zlib
  settings : Settings
  task : Task
  buffer : Option Bytes

def Response.calls (r : Response) : List ZlibCall :=
  (receiveWrite r.zlib r.settings r.task r.buffer).calls

def trace (responses : List Response) : List ZlibCall := responses.flatMap Response.calls

/-- The body is taken and compressed, and zlib is able to start. -/
def Response.starts (r : Response) : Bool :=
  r.buffer.any fun body =>
    decide (body.length ≤ maxResponseSize) && compresses r.settings r.task body &&
      decide (r.zlib.deflateInit2 = zOk)

def ZlibCall.starts : ZlibCall → Bool
  | .deflateInit2 ret => decide (ret = zOk)
  | _ => false

theorem foldl_apply {calls : List ZlibCall} (h : .deflateEnd ∉ calls) (n : ℕ) :
    calls.foldl ZlibCall.apply n = n + calls.countP ZlibCall.starts := by
  induction calls generalizing n with
  | nil => rfl
  | cons call calls ih =>
    obtain ⟨hcall, hrest⟩ := not_or.mp (mt List.mem_cons.mpr h)
    rw [List.foldl_cons, ih hrest, List.countP_cons]
    cases call with
    | deflateInit2 ret =>
      simp only [ZlibCall.apply, ZlibCall.starts, decide_eq_true_eq]
      split <;> omega
    | deflateBound => simp [ZlibCall.apply, ZlibCall.starts]
    | deflate ret => simp [ZlibCall.apply, ZlibCall.starts]
    | deflateEnd => exact absurd rfl hcall

theorem gzipCompressToVector_calls (z : Zlib) (body output : Bytes) (offset : ℕ) :
    .deflateEnd ∉ (gzipCompressToVector z body output offset).calls ∧
      (gzipCompressToVector z body output offset).calls.countP ZlibCall.starts =
        if z.deflateInit2 = zOk then 1 else 0 := by
  rw [gzipCompressToVector]
  split
  · next h => simp [ZlibCall.starts, h]
  · next h =>
    simp only
    split <;> simp [ZlibCall.starts, not_not.mp h]

theorem calls_spec (r : Response) :
    .deflateEnd ∉ r.calls ∧ r.calls.countP ZlibCall.starts = if r.starts then 1 else 0 := by
  cases hbuffer : r.buffer with
  | none => simp [Response.calls, Response.starts, receiveWrite, hbuffer]
  | some body =>
    simp only [Response.calls, Response.starts, receiveWrite, hbuffer, Option.any_some]
    split
    · next hlong => simp [hlong]
    · next hshort =>
      split
      · next hcompress =>
        simp only [gzipResponse, hcompress, not_lt.mp hshort, decide_true, Bool.true_and,
          decide_eq_true_eq]
        exact gzipCompressToVector_calls _ _ _ _
      · next hplain => simp [hplain]

theorem trace_spec (responses : List Response) :
    .deflateEnd ∉ trace responses ∧
      (trace responses).countP ZlibCall.starts = responses.countP Response.starts := by
  induction responses with
  | nil => exact ⟨List.not_mem_nil, rfl⟩
  | cons r responses ih =>
    obtain ⟨hnone, hcount⟩ := calls_spec r
    rw [trace, List.flatMap_cons, List.mem_append, not_or, List.countP_append, hcount,
      List.countP_cons, ← trace, ih.2, Nat.add_comm]
    exact ⟨⟨hnone, ih.1⟩, rfl⟩

theorem live_of_append {responses : List Response} {calls more : List ZlibCall}
    (h : trace responses = calls ++ more) : live calls = calls.countP ZlibCall.starts := by
  have hnone := (trace_spec responses).1
  rw [h, List.mem_append, not_or] at hnone
  exact (foldl_apply hnone.1 0).trans (Nat.zero_add _)

theorem live_trace (responses : List Response) :
    live (trace responses) = responses.countP Response.starts := by
  rw [live_of_append (List.append_nil (trace responses)).symm, (trace_spec responses).2]

/-- Each state is released before the next response is built, and there is never more than one. -/
structure Released (responses : List Response) : Prop where
  between : ∀ done r rest, responses = done ++ r :: rest → live (trace done) = 0
  bounded : ∀ calls more, trace responses = calls ++ more → live calls ≤ 1

theorem released_concat {responses : List Response} (r : Response)
    (h : responses.countP Response.starts = 0) : Released (responses ++ [r]) := by
  constructor
  · intro done next rest hsplit
    have hinit : responses = done ++ (next :: rest).dropLast := by
      have hdrop := congrArg List.dropLast hsplit
      rwa [List.dropLast_concat,
        List.dropLast_append_of_ne_nil (List.cons_ne_nil next rest)] at hdrop
    rw [hinit, List.countP_append] at h
    rw [live_trace]
    omega
  · intro calls more hsplit
    have htotal := (trace_spec (responses ++ [r])).2
    rw [hsplit, List.countP_append, List.countP_append, h, Nat.zero_add] at htotal
    have hlast : [r].countP Response.starts ≤ 1 := List.countP_le_length
    rw [live_of_append hsplit]
    omega

/-- No state is ever released, so only the last response may start one. -/
theorem released_iff (responses : List Response) :
    Released responses ↔ ∀ r ∈ responses.dropLast, r.starts = false := by
  rcases List.eq_nil_or_concat responses with rfl | ⟨init, last, hconcat⟩
  · refine iff_of_true ⟨fun done r rest h => ?_, fun calls more h => ?_⟩ (by simp)
    · exact absurd h.symm (by simp)
    · have hnil : calls = [] := (List.append_eq_nil_iff.mp h.symm).1
      rw [hnil]
      exact Nat.zero_le 1
  · cases hconcat.trans List.concat_eq_append
    have hcount : init.countP Response.starts = 0 ↔ ∀ r ∈ init, r.starts = false := by
      simp only [List.countP_eq_zero, Bool.not_eq_true]
    rw [List.dropLast_concat, ← hcount]
    constructor
    · intro h
      have hbefore := h.between init last [] rfl
      rwa [live_trace] at hbefore
    · exact released_concat last

def twice : List Response :=
  List.replicate 2
    ⟨gzip, ⟨true, 1⟩, ⟨[], 0, 0, 0, .json, false, true, true⟩, some (ascii "[1]")⟩

theorem twice_not_released : live (trace twice) = 2 ∧ ¬Released twice := by
  have hlive : live (trace twice) = 2 := by decide +kernel
  refine ⟨hlive, fun h => ?_⟩
  have hbound := h.bounded (trace twice) [] (List.append_nil _).symm
  omega

end ScgiDeflate
