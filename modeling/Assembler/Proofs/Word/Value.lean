import Assembler.Word
import Mathlib.Order.Bounds.Basic
import Mathlib.Tactic.Ring

/-! The number a word stands for, and the width it takes. A word has no leading zero, so its number
of bytes is the least one that holds the value. -/

namespace Assembler

namespace Word

theorem foldl_value (acc : Nat) (bytes : List UInt8) :
    bytes.foldl (fun acc b => 256 * acc + b.toNat) acc =
      acc * 256 ^ bytes.length + valueOfBytes bytes := by
  induction bytes generalizing acc with
  | nil => simp [valueOfBytes]
  | cons b rest ih =>
    have hhead := ih (256 * acc + b.toNat)
    have htail := ih (256 * 0 + b.toNat)
    simp only [valueOfBytes, List.foldl_cons, List.length_cons] at hhead htail ⊢
    rw [hhead, htail]
    ring

theorem valueOfBytes_append (front back : List UInt8) :
    valueOfBytes (front ++ back) =
      valueOfBytes front * 256 ^ back.length + valueOfBytes back := by
  rw [valueOfBytes, List.foldl_append, foldl_value]
  rfl

theorem valueOfBytes_cons (b : UInt8) (rest : List UInt8) :
    valueOfBytes (b :: rest) = b.toNat * 256 ^ rest.length + valueOfBytes rest := by
  have h := valueOfBytes_append [b] rest
  simpa [valueOfBytes] using h

theorem valueOfBytes_lt (bytes : List UInt8) : valueOfBytes bytes < 256 ^ bytes.length := by
  induction bytes with
  | nil => simp [valueOfBytes]
  | cons b rest ih =>
    have hb : b.toNat + 1 ≤ 256 := b.toNat_lt
    have hm := Nat.mul_le_mul_right (256 ^ rest.length) hb
    rw [valueOfBytes_cons, List.length_cons, Nat.pow_succ]
    rw [Nat.add_mul, Nat.one_mul] at hm
    omega

theorem value_ofBytes (bytes : List UInt8) : (ofBytes bytes).value = valueOfBytes bytes := by
  induction bytes with
  | nil => rfl
  | cons b rest ih =>
    by_cases hb : b = 0
    · subst b
      rw [valueOfBytes_cons]
      simpa [value, ofBytes] using ih
    · simp [value, ofBytes, hb]

private theorem valueOfBytes_go {fuel n : Nat} (h : n ≤ fuel) (acc : List UInt8) :
    valueOfBytes (digits256.go fuel n acc) = n * 256 ^ acc.length + valueOfBytes acc := by
  induction fuel generalizing n acc with
  | zero =>
    have hn : n = 0 := by omega
    simp [digits256.go, hn]
  | succ fuel ih =>
    rw [digits256.go]
    by_cases hn : n = 0
    · simp [hn]
    · have hdigit : (UInt8.ofNat n).toNat = n % 256 := UInt8.toNat_ofNat'
      rw [if_neg hn, ih (by omega), valueOfBytes_cons, List.length_cons, hdigit]
      calc n / 256 * 256 ^ (acc.length + 1) + (n % 256 * 256 ^ acc.length + valueOfBytes acc)
          = (256 * (n / 256) + n % 256) * 256 ^ acc.length + valueOfBytes acc := by ring
        _ = n * 256 ^ acc.length + valueOfBytes acc := by rw [Nat.div_add_mod]

theorem value_ofNat (n : Nat) : (ofNat n).value = n := by
  rw [ofNat, value_ofBytes, digits256, valueOfBytes_go (Nat.le_refl n)]
  simp [valueOfBytes]

theorem pow_le_value {w : Word} (h : w.bytes ≠ []) : 256 ^ (w.size - 1) ≤ w.value := by
  obtain ⟨bytes, hcanonical⟩ := w
  cases bytes with
  | nil => exact absurd rfl h
  | cons b rest =>
    have hb : b ≠ 0 := by simpa using hcanonical
    have hpos : 0 < b.toNat := by
      rcases Nat.eq_zero_or_pos b.toNat with hz | hp
      · exact absurd (UInt8.toNat_inj.mp hz) hb
      · exact hp
    simp only [value, size, valueOfBytes_cons, List.length_cons, Nat.add_sub_cancel]
    have hm := Nat.mul_le_mul_right (256 ^ rest.length) hpos
    omega

/-- A word fits `k` bytes exactly when its value does. -/
theorem size_le_iff (w : Word) (k : Nat) : w.size ≤ k ↔ w.value < 256 ^ k := by
  constructor
  · intro h
    exact lt_of_lt_of_le (valueOfBytes_lt w.bytes) (Nat.pow_le_pow_right (by decide) h)
  · intro h
    by_contra hlt
    have hne : w.bytes ≠ [] := by
      intro he
      simp [size, he] at hlt
    have hlow := pow_le_value hne
    have hpow : 256 ^ k ≤ 256 ^ (w.size - 1) := Nat.pow_le_pow_right (by decide) (by omega)
    omega

theorem size_ofNat_le_iff (n k : Nat) : (ofNat n).size ≤ k ↔ n < 256 ^ k := by
  rw [size_le_iff, value_ofNat]

theorem lt_pow_size_ofNat (n : Nat) : n < 256 ^ (ofNat n).size :=
  (size_ofNat_le_iff n _).mp le_rfl

theorem size_ofNat_mono {m n : Nat} (h : m ≤ n) : (ofNat m).size ≤ (ofNat n).size :=
  (size_ofNat_le_iff m _).mpr (lt_of_le_of_lt h (lt_pow_size_ofNat n))

theorem isLeast_size_ofNat (n : Nat) : IsLeast {k | n < 256 ^ k} (ofNat n).size := by
  constructor
  · exact lt_pow_size_ofNat n
  · intro k hk
    exact (size_ofNat_le_iff n k).mpr hk

theorem size_ofBytes_le (bytes : List UInt8) : (ofBytes bytes).size ≤ bytes.length :=
  (List.dropWhile_sublist _).length_le

/-- Padding back to the old length restores the zeros that were dropped. -/
theorem padded_ofBytes (bytes : List UInt8) : (ofBytes bytes).padded bytes.length = bytes := by
  induction bytes with
  | nil => rfl
  | cons b rest ih =>
    by_cases hb : b = 0
    · subst b
      have hsize : (ofBytes rest).bytes.length ≤ rest.length := size_ofBytes_le rest
      have hdrop : (ofBytes (0 :: rest)).bytes = (ofBytes rest).bytes := by simp [ofBytes]
      have hpad : rest.length + 1 - (ofBytes rest).bytes.length =
          rest.length - (ofBytes rest).bytes.length + 1 := by omega
      rw [padded, List.leftpad] at ih
      rw [padded, List.leftpad, hdrop, List.length_cons, hpad, List.replicate_succ,
        List.cons_append, ih]
    · simp [padded, List.leftpad, ofBytes, hb]

end Word

end Assembler
