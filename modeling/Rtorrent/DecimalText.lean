import Mathlib.Data.Nat.Digits.Lemmas

/-! # Decimal numbers in byte strings -/
namespace DecimalText

def isDigit (c : UInt8) : Bool := 48 ≤ c && c ≤ 57

def value (s : List UInt8) : ℕ := s.foldl (fun n c => n * 10 + (c.toNat - 48)) 0

/-- A number in decimal, without leading zeros; nothing for zero. -/
def decimal (n : ℕ) : List UInt8 := (Nat.digits 10 n).reverse.map fun d => UInt8.ofNat (48 + d)

theorem toNat_digit {d : ℕ} (h : d < 10) : (UInt8.ofNat (48 + d)).toNat = 48 + d := by
  rw [UInt8.toNat_ofNat']
  omega

theorem isDigit_of_mem_decimal {n : ℕ} {c : UInt8} (h : c ∈ decimal n) : isDigit c = true := by
  simp only [decimal, List.mem_map, List.mem_reverse] at h
  rcases h with ⟨d, hd, rfl⟩
  have hlt : d < 10 := Nat.digits_lt_base (by omega) hd
  have hn := toNat_digit hlt
  simp only [isDigit, Bool.and_eq_true, decide_eq_true_eq, UInt8.le_iff_toNat_le, hn]
  exact ⟨by simp, by simp; omega⟩

theorem foldl_digits {ds : List ℕ} (h : ∀ d ∈ ds, d < 10) (n : ℕ) :
    ((ds.map fun d => UInt8.ofNat (48 + d)).foldl (fun n c => n * 10 + (c.toNat - 48)) n) =
      ds.foldl (fun n d => n * 10 + d) n := by
  induction ds generalizing n with
  | nil => rfl
  | cons d ds ih =>
    have hd := toNat_digit (h d (by simp))
    simp only [List.map_cons, List.foldl_cons, hd, Nat.add_sub_cancel_left]
    exact ih (fun e he => h e (by simp [he])) _

theorem value_decimal (n : ℕ) : value (decimal n) = n := by
  have hd : ∀ d ∈ (Nat.digits 10 n).reverse, d < 10 := fun d hd =>
    Nat.digits_lt_base (by omega) (List.mem_reverse.mp hd)
  rw [value, decimal, foldl_digits hd, List.foldl_reverse]
  calc (Nat.digits 10 n).foldr (fun d n => n * 10 + d) 0
      = Nat.ofDigits 10 (Nat.digits 10 n) := by
        rw [Nat.ofDigits_eq_foldr]
        congr 1
        funext d n
        simp only [Nat.cast_id]
        omega
    _ = n := Nat.ofDigits_digits 10 n

theorem length_decimal_le {n k : ℕ} (h : n < 10 ^ k) : (decimal n).length ≤ k := by
  simpa [decimal] using (Nat.digits_length_le_iff (by omega) n).mpr h

theorem decimal_ne_nil {n : ℕ} (h : 0 < n) : decimal n ≠ [] := by
  simpa [decimal, Nat.digits_eq_nil_iff_eq_zero] using Nat.pos_iff_ne_zero.mp h

def text (n : ℕ) : List UInt8 := if n = 0 then [48] else decimal n

theorem length_text_le {n k : ℕ} (hk : 0 < k) (h : n < 10 ^ k) : (text n).length ≤ k := by
  rw [text]
  by_cases h0 : n = 0
  · rw [if_pos h0]
    exact hk
  · rw [if_neg h0]
    exact length_decimal_le h

end DecimalText
