import Assembler.Proofs.Word.Value
import Mathlib.Algebra.BigOperators.Intervals
import Mathlib.Logic.Equiv.Basic

/-! Reversing the bytes of a word within a width. Padding puts zeros in front, the reversal moves
them to the end and brings zeros from the end to the front, where they are dropped. The width alone
brings them back, so that a second reversal undoes the first. -/

namespace Assembler.Word

/-- The byte that counts `256 ^ i`, which is zero beyond the bytes of the word. -/
def byteAt (w : Word) (i : Nat) : UInt8 := w.bytes.reverse.getD i 0

theorem reverse_padded (w : Word) (n : Nat) :
    (w.padded n).reverse = w.bytes.reverse ++ List.replicate (n - w.size) 0 := by
  simp [padded, List.leftpad, size]

theorem getD_reverse_padded (w : Word) (n i : Nat) :
    (w.padded n).reverse.getD i 0 = w.byteAt i := by
  rw [reverse_padded, byteAt]
  by_cases hi : i < w.bytes.reverse.length
  · simp only [List.getD_eq_getElem?_getD, List.getElem?_append_left hi]
  · have hout : w.bytes.reverse.length ≤ i := Nat.le_of_not_lt hi
    simp only [List.getD_eq_getElem?_getD, List.getElem?_append_right hout,
      List.getElem?_eq_none hout, List.getElem?_replicate]
    split <;> rfl

/-- The first byte counts the highest power. -/
theorem valueOfBytes_eq_sum (bytes : List UInt8) :
    valueOfBytes bytes =
      ∑ i ∈ Finset.range bytes.length, (bytes.getD i 0).toNat * 256 ^ (bytes.length - 1 - i) := by
  induction bytes with
  | nil => rfl
  | cons b rest ih =>
    rw [valueOfBytes_cons, ih, List.length_cons, Finset.sum_range_succ', Nat.add_comm]
    simp only [List.getD_cons_zero, List.getD_cons_succ, Nat.add_sub_cancel, Nat.sub_zero]
    congr 1
    apply Finset.sum_congr rfl
    intro i _
    have hshift : rest.length - 1 - i = rest.length - (i + 1) := by omega
    rw [hshift]

theorem value_eq_sum {w : Word} {n : Nat} (h : w.size ≤ n) :
    w.value = ∑ i ∈ Finset.range n, (w.byteAt i).toNat * 256 ^ i := by
  have hlen := length_padded h
  have hvalue : w.value = valueOfBytes (w.padded n) := by rw [← value_ofBytes, ofBytes_padded]
  rw [hvalue, valueOfBytes_eq_sum, hlen, ← Finset.sum_range_reflect]
  apply Finset.sum_congr rfl
  intro i hi
  have hlt : i < n := Finset.mem_range.mp hi
  have hmirror : n - 1 - (n - 1 - i) = i := by omega
  have hbyte : (w.padded n).getD (n - 1 - i) 0 = w.byteAt i := by
    rw [← w.getD_reverse_padded n i, List.getD_eq_getElem?_getD, List.getD_eq_getElem?_getD,
      List.getElem?_reverse (by omega), hlen]
  rw [hmirror, hbyte]

theorem byteSwap_of_fits {w : Word} {n : Nat} (h : w.size ≤ n) :
    w.byteSwap n = .ok (ofBytes (w.padded n).reverse) :=
  if_pos h

theorem byteSwap_of_wide {w : Word} {n : Nat} (h : n < w.size) :
    w.byteSwap n = .error (.valueTooWide w.size n) :=
  if_neg (Nat.not_le_of_lt h)

theorem byteSwap_eq_ok_iff {w v : Word} {n : Nat} :
    w.byteSwap n = .ok v ↔ w.size ≤ n ∧ v = ofBytes (w.padded n).reverse := by
  constructor
  · intro h
    by_cases hfits : w.size ≤ n
    · rw [byteSwap_of_fits hfits] at h
      exact ⟨hfits, (Except.ok.inj h).symm⟩
    · rw [byteSwap_of_wide (Nat.lt_of_not_le hfits)] at h
      cases h
  · rintro ⟨hfits, rfl⟩
    exact byteSwap_of_fits hfits

/-- Both words are the same `n` bytes, read from the two ends. -/
theorem padded_of_byteSwap {w v : Word} {n : Nat} (h : w.byteSwap n = .ok v) :
    v.padded n = (w.padded n).reverse := by
  obtain ⟨hfits, rfl⟩ := byteSwap_eq_ok_iff.mp h
  have hlen : (w.padded n).reverse.length = n := by rw [List.length_reverse, length_padded hfits]
  have hback := padded_ofBytes (w.padded n).reverse
  rwa [hlen] at hback

theorem size_of_byteSwap {w v : Word} {n : Nat} (h : w.byteSwap n = .ok v) : v.size ≤ n := by
  obtain ⟨hfits, rfl⟩ := byteSwap_eq_ok_iff.mp h
  have hle := size_ofBytes_le (w.padded n).reverse
  rwa [List.length_reverse, length_padded hfits] at hle

theorem value_of_byteSwap {w v : Word} {n : Nat} (h : w.byteSwap n = .ok v) :
    v.value = ∑ i ∈ Finset.range n, (w.byteAt i).toNat * 256 ^ (n - 1 - i) := by
  obtain ⟨hfits, rfl⟩ := byteSwap_eq_ok_iff.mp h
  have hlen : (w.padded n).reverse.length = n := by rw [List.length_reverse, length_padded hfits]
  rw [value_ofBytes, valueOfBytes_eq_sum, hlen]
  simp only [getD_reverse_padded]

theorem byteSwap_symm {w v : Word} {n : Nat} (h : w.byteSwap n = .ok v) : v.byteSwap n = .ok w := by
  refine byteSwap_eq_ok_iff.mpr ⟨size_of_byteSwap h, ?_⟩
  rw [padded_of_byteSwap h, List.reverse_reverse, ofBytes_padded]

def swapWithin (n : Nat) (w : {w : Word // w.size ≤ n}) : {w : Word // w.size ≤ n} :=
  ⟨ofBytes (w.1.padded n).reverse, size_of_byteSwap (byteSwap_of_fits w.2)⟩

theorem swapWithin_involutive (n : Nat) : Function.Involutive (swapWithin n) := by
  intro w
  have hback := byteSwap_symm (byteSwap_of_fits w.2)
  exact Subtype.ext (byteSwap_eq_ok_iff.mp hback).2.symm

/-- Reversing the bytes within a width succeeds exactly for the words that the width holds. It moves
the byte that counts `256 ^ i` to `256 ^ (n - 1 - i)`, undoes itself, and so permutes these words.
-/
theorem byteSwap_permutes_words (n : Nat) :
    (∀ w : Word,
      ((∃ v, w.byteSwap n = .ok v) ↔ w.size ≤ n) ∧
      (n < w.size → w.byteSwap n = .error (.valueTooWide w.size n)) ∧
      (w.size ≤ n → w.value = ∑ i ∈ Finset.range n, (w.byteAt i).toNat * 256 ^ i) ∧
      ∀ v, w.byteSwap n = .ok v →
        v.size ≤ n ∧
        v.value = ∑ i ∈ Finset.range n, (w.byteAt i).toNat * 256 ^ (n - 1 - i) ∧
        v.byteSwap n = .ok w) ∧
    ∃ swap : Equiv.Perm {w : Word // w.size ≤ n},
      ∀ w : {w : Word // w.size ≤ n}, w.1.byteSwap n = .ok (swap w).1 := by
  constructor
  · intro w
    refine ⟨⟨?_, ?_⟩, byteSwap_of_wide, value_eq_sum, ?_⟩
    · rintro ⟨v, hv⟩
      exact (byteSwap_eq_ok_iff.mp hv).1
    · intro hfits
      exact ⟨_, byteSwap_of_fits hfits⟩
    · intro v hv
      exact ⟨size_of_byteSwap hv, value_of_byteSwap hv, byteSwap_symm hv⟩
  · exact ⟨(swapWithin_involutive n).toPerm, fun w => byteSwap_of_fits w.2⟩

end Assembler.Word
