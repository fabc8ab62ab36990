import Rtorrent.XmlRpcDocument

/-! # Decoding what base64 encodes

The encoding of RFC 4648 and the decoder on it, which keeps the digits of earlier quanta above those
of the current one, where no byte is read. -/
namespace Base64RoundTrip

open RpcTextParser XmlRpcDocument

def digitChar (v : ℕ) : Char :=
  if v < 26 then Char.ofNat (0x41 + v)
  else if v < 52 then Char.ofNat (0x61 + (v - 26))
  else if v < 62 then Char.ofNat (0x30 + (v - 52))
  else if v = 62 then '+'
  else '/'

def encode : List UInt8 → Text
  | [] => []
  | [a] => [digitChar (a.toNat / 4), digitChar (a.toNat % 4 * 16), '=', '=']
  | [a, b] =>
    [digitChar (a.toNat / 4), digitChar (a.toNat % 4 * 16 + b.toNat / 16),
      digitChar (b.toNat % 16 * 4), '=']
  | a :: b :: c :: bytes =>
    digitChar (a.toNat / 4) :: digitChar (a.toNat % 4 * 16 + b.toNat / 16) ::
      digitChar (b.toNat % 16 * 4 + c.toNat / 64) :: digitChar (c.toNat % 64) :: encode bytes

/-- The text is the other one with carriage returns and line feeds put in. -/
inductive Broken : Text → Text → Prop
  | done : Broken [] []
  | keep {text line : Text} (c : Char) : Broken text line → Broken (c :: text) (c :: line)
  | insert {text line : Text} {c : Char} : c = '\r' ∨ c = '\n' → Broken text line →
      Broken (c :: text) line

def bytesText (bytes : List UInt8) : Text := bytes.map fun b => Char.ofNat b.toNat

theorem digitChar_spec : ∀ v < 64, base64Digit (digitChar v) = some v ∧
    digitChar v ≠ '\n' ∧ digitChar v ≠ '\r' := by
  decide

def push (temp : BitVec 64) (digit : ℕ) : BitVec 64 := (temp <<< 6) ||| BitVec.ofNat 64 digit

variable (position : ℕ) (bytes : List UInt8) (temp : BitVec 64)

theorem push_toNat {digit : ℕ} (h : digit < 64) :
    (push temp digit).toNat = temp.toNat * 64 % 2 ^ 64 + digit := by
  have hdigit : digit % 2 ^ 64 = digit := Nat.mod_eq_of_lt (by omega)
  have hmul : temp.toNat * 64 % 2 ^ 64 = 2 ^ 6 * (temp.toNat * 64 % 2 ^ 64 / 64) := by omega
  have hor := @Nat.two_pow_add_eq_or_of_lt 6 digit h (temp.toNat * 64 % 2 ^ 64 / 64)
  rw [← hmul] at hor
  rw [hor, push, BitVec.toNat_or, BitVec.toNat_shiftLeft, BitVec.toNat_ofNat, hdigit,
    Nat.shiftLeft_eq]

theorem push_zero : push temp 0 = temp <<< 6 := by
  simp [push]

theorem byteOf_eq (shift : ℕ) : byteOf temp shift = Char.ofNat (temp.toNat / 2 ^ shift % 256) := by
  have hmask : ((temp >>> shift) &&& 0xFF).toNat = temp.toNat / 2 ^ shift % 2 ^ 8 := by
    rw [BitVec.toNat_and, BitVec.toNat_ushiftRight, Nat.shiftRight_eq_div_pow,
      ← Nat.and_two_pow_sub_one_eq_mod]
    rfl
  rw [byteOf, hmask]
  rfl

theorem byteOf_quantum {a b c d : ℕ} (ha : a < 64) (hb : b < 64) (hc : c < 64) (hd : d < 64) :
    byteOf (push (push (push (push temp a) b) c) d) 16 = Char.ofNat (a * 4 + b / 16) ∧
    byteOf (push (push (push (push temp a) b) c) d) 8 = Char.ofNat (b % 16 * 16 + c / 4) ∧
    byteOf (push (push (push (push temp a) b) c) d) 0 = Char.ofNat (c % 4 * 64 + d) := by
  have h := push_toNat (push (push (push temp a) b) c) hd
  rw [push_toNat _ hc, push_toNat _ hb, push_toNat _ ha] at h
  simp only [byteOf_eq, h]
  refine ⟨congrArg _ ?_, congrArg _ ?_, congrArg _ ?_⟩ <;> omega

theorem byteOf_three {a b : ℕ} (ha : a < 64) (hb : b < 64) :
    byteOf (push (push (push temp a) b) 0) 10 = Char.ofNat (a * 4 + b / 16) := by
  have h := push_toNat (push (push temp a) b) (Nat.zero_lt_succ 63)
  rw [push_toNat _ hb, push_toNat _ ha] at h
  rw [byteOf_eq, h]
  exact congrArg _ (by omega)

theorem decodeQuanta_digit {position digit : ℕ} (hposition : position ≠ 3) (hdigit : digit < 64)
    (temp : BitVec 64) (cursor : Text) :
    decodeQuanta position temp (digitChar digit :: cursor) =
      decodeQuanta (position + 1) (push temp digit) cursor := by
  simp [decodeQuanta, (digitChar_spec digit hdigit).1, hposition, push]

theorem decodeQuanta_last {digit : ℕ} (hdigit : digit < 64) (temp : BitVec 64) (cursor : Text) :
    decodeQuanta 3 temp (digitChar digit :: cursor) =
      decodeQuanta 0 (push temp digit) cursor >>= fun decodedBytes =>
        .ok (byteOf (push temp digit) 16 :: byteOf (push temp digit) 8 ::
          byteOf (push temp digit) 0 :: decodedBytes) := by
  simp [decodeQuanta, (digitChar_spec digit hdigit).1, push]

theorem decodeQuanta_pad :
    decodeQuanta position temp ['='] = .ok [byteOf (push temp 0) 16, byteOf (push temp 0) 8] := by
  rw [push_zero]
  rfl

theorem decodeQuanta_pads :
    decodeQuanta position temp ['=', '='] = .ok [byteOf (push temp 0) 10] := by
  rw [push_zero]
  rfl

theorem byte_lt (b : UInt8) : b.toNat < 256 := b.toNat_lt

theorem decodeQuanta_encode : decodeQuanta 0 temp (encode bytes) = .ok (bytesText bytes) := by
  induction bytes using encode.induct generalizing temp with
  | case1 => rfl
  | case2 a =>
    have ha := byte_lt a
    rw [encode, decodeQuanta_digit (by decide) (by omega),
      decodeQuanta_digit (by decide) (by omega),
      decodeQuanta_pads, byteOf_three temp (by omega) (by omega)]
    have hbyte : a.toNat / 4 * 4 + a.toNat % 4 * 16 / 16 = a.toNat := by omega
    rw [hbyte]
    rfl
  | case3 a b =>
    have ha := byte_lt a
    have hb := byte_lt b
    obtain ⟨h16, h8, _⟩ := @byteOf_quantum temp (a.toNat / 4) (a.toNat % 4 * 16 + b.toNat / 16)
      (b.toNat % 16 * 4) 0 (by omega) (by omega) (by omega) (by omega)
    rw [encode, decodeQuanta_digit (by decide) (by omega),
      decodeQuanta_digit (by decide) (by omega),
      decodeQuanta_digit (by decide) (by omega), decodeQuanta_pad, h16, h8]
    have hfirst : a.toNat / 4 * 4 + (a.toNat % 4 * 16 + b.toNat / 16) / 16 = a.toNat := by omega
    have hsecond : (a.toNat % 4 * 16 + b.toNat / 16) % 16 * 16 + b.toNat % 16 * 4 / 4 =
        b.toNat := by
      omega
    rw [hfirst, hsecond]
    rfl
  | case4 a b c bytes ih =>
    have ha := byte_lt a
    have hb := byte_lt b
    have hc := byte_lt c
    obtain ⟨h16, h8, h0⟩ := @byteOf_quantum temp (a.toNat / 4) (a.toNat % 4 * 16 + b.toNat / 16)
      (b.toNat % 16 * 4 + c.toNat / 64) (c.toNat % 64) (by omega) (by omega) (by omega) (by omega)
    rw [encode, decodeQuanta_digit (by decide) (by omega),
      decodeQuanta_digit (by decide) (by omega),
      decodeQuanta_digit (by decide) (by omega), decodeQuanta_last (by omega), h16, h8, h0, ih]
    have hfirst : a.toNat / 4 * 4 + (a.toNat % 4 * 16 + b.toNat / 16) / 16 = a.toNat := by omega
    have hsecond : (a.toNat % 4 * 16 + b.toNat / 16) % 16 * 16 +
        (b.toNat % 16 * 4 + c.toNat / 64) / 4 = b.toNat := by omega
    have hthird : (b.toNat % 16 * 4 + c.toNat / 64) % 4 * 64 + c.toNat % 64 = c.toNat := by omega
    rw [hfirst, hsecond, hthird]
    rfl

theorem length_encode : (encode bytes).length % 4 = 0 := by
  induction bytes using encode.induct with
  | case1 => rfl
  | case2 a => simp [encode]
  | case3 a b => simp [encode]
  | case4 a b c bytes ih =>
    simp only [encode, List.length_cons]
    omega

/-- A character that `remove_newlines` keeps. -/
def Plain (c : Char) : Prop := c ≠ '\n' ∧ c ≠ '\r'

theorem plain_encode : ∀ c ∈ encode bytes, Plain c := by
  have hdigit : ∀ v < 64, Plain (digitChar v) := fun v hv => (digitChar_spec v hv).2
  have hpad : Plain '=' := ⟨by decide, by decide⟩
  induction bytes using encode.induct with
  | case1 => simp [encode]
  | case2 a =>
    have ha := byte_lt a
    simpa [encode, hpad] using ⟨hdigit _ (by omega), hdigit _ (by omega)⟩
  | case3 a b =>
    have ha := byte_lt a
    have hb := byte_lt b
    simpa [encode, hpad] using ⟨hdigit _ (by omega), hdigit _ (by omega), hdigit _ (by omega)⟩
  | case4 a b c bytes ih =>
    have ha := byte_lt a
    have hb := byte_lt b
    have hc := byte_lt c
    simpa [encode] using
      ⟨hdigit _ (by omega), hdigit _ (by omega), hdigit _ (by omega), hdigit _ (by omega), ih⟩

theorem Broken.removeNewlines_eq {text line : Text} (h : Broken text line)
    (hline : ∀ c ∈ line, Plain c) : removeNewlines text = line := by
  induction h with
  | done => rfl
  | keep c _ ih =>
    have hc := hline c (by simp)
    have hrest := ih fun d hd => hline d (List.mem_cons_of_mem _ hd)
    unfold removeNewlines at hrest ⊢
    simp [hc.1, hc.2, hrest]
  | insert hc _ ih =>
    have hrest := ih hline
    unfold removeNewlines at hrest ⊢
    rcases hc with rfl | rfl
    · simpa using hrest
    · simpa using hrest

/-- Line breaks anywhere in the encoding do not change what is decoded. -/
theorem decode_encode (bytes : List UInt8) (text : Text) (h : Broken text (encode bytes)) :
    decodeBase64 (removeNewlines text) = .ok (bytesText bytes) := by
  rw [h.removeNewlines_eq (plain_encode bytes), decodeBase64, length_encode]
  exact decodeQuanta_encode bytes 0

theorem decode_encode_two_lines :
    Broken ['T', 'W', '\r', '\n', 'E', '='] (encode [0x4D, 0x61]) ∧
    decodeBase64 (removeNewlines ['T', 'W', '\r', '\n', 'E', '=']) =
      .ok (bytesText [0x4D, 0x61]) := by
  have h : Broken ['T', 'W', '\r', '\n', 'E', '='] (encode [0x4D, 0x61]) :=
    .keep _ (.keep _ (.insert (.inl rfl) (.insert (.inr rfl) (.keep _ (.keep _ .done)))))
  exact ⟨h, decode_encode [0x4D, 0x61] _ h⟩

end Base64RoundTrip
