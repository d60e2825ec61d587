import Assembler.Proofs.Word.Value
import Assembler.Segment.SelfSized
import Assembler.Storage.Index

/-! A literal that counts its own width: one correction of the first guess settles it, with the
least value that is right, and a target that is farther off always gets a larger value. -/

namespace Assembler

namespace SelfSized

theorem solve_of_fits {fixed : Nat}
    (h : (Word.ofNat (fixed + (Word.ofNat fixed).size)).size ≤ (Word.ofNat fixed).size) :
    solve fixed = ⟨fixed + (Word.ofNat fixed).size, (Word.ofNat fixed).size⟩ := if_pos h

theorem solve_of_grows {fixed : Nat}
    (h : ¬ (Word.ofNat (fixed + (Word.ofNat fixed).size)).size ≤ (Word.ofNat fixed).size) :
    solve fixed = ⟨fixed + ((Word.ofNat fixed).size + 1), (Word.ofNat fixed).size + 1⟩ := if_neg h

/-- A number that grows by less than its own number of digits gains at most one digit. -/
theorem lt_pow_succ {fixed guess : Nat} (h : fixed < 256 ^ guess) :
    fixed + (guess + 1) < 256 ^ (guess + 1) := by
  have hguess : guess < 256 ^ guess := Nat.lt_pow_self (by decide)
  rw [Nat.pow_succ]
  omega

theorem solve_value (fixed : Nat) : (solve fixed).value = fixed + (solve fixed).width := by
  by_cases h : (Word.ofNat (fixed + (Word.ofNat fixed).size)).size ≤ (Word.ofNat fixed).size
  · rw [solve_of_fits h]
  · rw [solve_of_grows h]

/-- The width that the value counts is the width that it has. -/
theorem solve_width (fixed : Nat) :
    (solve fixed).width = (Word.ofNat (solve fixed).value).size := by
  by_cases h : (Word.ofNat (fixed + (Word.ofNat fixed).size)).size ≤ (Word.ofNat fixed).size
  · rw [solve_of_fits h]
    exact Nat.le_antisymm (Word.size_ofNat_mono (Nat.le_add_right _ _)) h
  · rw [solve_of_grows h]
    have hupper := (Word.size_ofNat_le_iff _ _).mpr (lt_pow_succ (Word.lt_pow_size_ofNat fixed))
    have hlower := Word.size_ofNat_mono
      (show fixed + (Word.ofNat fixed).size ≤ fixed + ((Word.ofNat fixed).size + 1) by omega)
    dsimp only
    omega

theorem solve_width_le (fixed : Nat) :
    (solve fixed).width ≤ (Word.ofNat fixed).size + 1 := by
  by_cases h : (Word.ofNat (fixed + (Word.ofNat fixed).size)).size ≤ (Word.ofNat fixed).size
  · rw [solve_of_fits h]
    exact Nat.le_succ _
  · rw [solve_of_grows h]

/-- No narrower width has room for the sum it makes. -/
theorem solve_width_le_of_fits {fixed k : Nat} (h : (Word.ofNat (fixed + k)).size ≤ k) :
    (solve fixed).width ≤ k := by
  have hguess : (Word.ofNat fixed).size ≤ k :=
    (Word.size_ofNat_mono (Nat.le_add_right fixed k)).trans h
  by_cases hfits : (Word.ofNat (fixed + (Word.ofNat fixed).size)).size ≤ (Word.ofNat fixed).size
  · rw [solve_of_fits hfits]
    exact hguess
  · rw [solve_of_grows hfits]
    have hne : (Word.ofNat fixed).size ≠ k := by
      rintro rfl
      exact hfits h
    exact Nat.lt_of_le_of_ne hguess hne

theorem solve_isLeast (fixed : Nat) :
    IsLeast {v | v = fixed + (Word.ofNat v).size} (solve fixed).value := by
  constructor
  · have hvalue := solve_value fixed
    rwa [solve_width] at hvalue
  · intro v hv
    have hfits : (Word.ofNat (fixed + (Word.ofNat v).size)).size ≤ (Word.ofNat v).size := by
      rw [← hv]
    have hwidth := solve_width_le_of_fits hfits
    rw [solve_value, hv]
    omega

theorem solve_strictMono : StrictMono fun fixed => (solve fixed).value := by
  intro fixed farther hlt
  -- The width that serves the farther target has room for the nearer one too.
  have hfits : (Word.ofNat (fixed + (solve farther).width)).size ≤ (solve farther).width :=
    calc (Word.ofNat (fixed + (solve farther).width)).size
        ≤ (Word.ofNat (farther + (solve farther).width)).size :=
          Word.size_ofNat_mono (Nat.add_le_add_right (Nat.le_of_lt hlt) _)
      _ = (solve farther).width := by rw [← solve_value, ← solve_width]
  have hwidth := solve_width_le_of_fits hfits
  dsimp only
  rw [solve_value, solve_value]
  omega

theorem solve_width_le_eight {fixed : Nat} (h : fixed + 8 < addressSpace) :
    (solve fixed).width ≤ 8 :=
  solve_width_le_of_fits ((Word.size_ofNat_le_iff _ 8).mpr h)

def add? (m n : Nat) : Option Nat := if m + n < addressSpace then some (m + n) else none

theorem add?_of_lt {m n : Nat} (h : m + n < addressSpace) : add? m n = some (m + n) := if_pos h

/-- `solve` with every sum checked, and with a check that the second width is right. -/
def solveChecked (fixed : Nat) : Option SelfSized := do
  let guess := (Word.ofNat fixed).size
  let value ← add? fixed guess
  if (Word.ofNat value).size ≤ guess then
    return ⟨value, guess⟩
  let width ← add? guess 1
  let value ← add? fixed width
  if (Word.ofNat value).size = width then some ⟨value, width⟩ else none

theorem solveChecked_eq {fixed : Nat} (h : fixed + 8 < addressSpace) :
    solveChecked fixed = some (solve fixed) := by
  have hwidth := solve_width_le_eight h
  have hsize := solve_width fixed
  by_cases hfits : (Word.ofNat (fixed + (Word.ofNat fixed).size)).size ≤ (Word.ofNat fixed).size
  · rw [solve_of_fits hfits] at hwidth ⊢
    have hsum := add?_of_lt (show fixed + (Word.ofNat fixed).size < addressSpace by
      dsimp only at hwidth
      omega)
    simp [solveChecked, hsum, hfits]
  · rw [solve_of_grows hfits] at hwidth hsize ⊢
    dsimp only at hwidth hsize
    have hfirst := add?_of_lt (show fixed + (Word.ofNat fixed).size < addressSpace by omega)
    have hnext := add?_of_lt (show (Word.ofNat fixed).size + 1 < addressSpace by omega)
    have hsecond := add?_of_lt
      (show fixed + ((Word.ofNat fixed).size + 1) < addressSpace by omega)
    simp [solveChecked, hfirst, hfits, hnext, hsecond, ← hsize]

/-- Within 64 bits, the literal found counts exactly the bytes it takes, it is the least one that
does, no sum on the way to it overflows, and a second correction is never needed. -/
theorem solve_settles {fixed : Nat} (h : fixed + 8 < addressSpace) :
    (solve fixed).value = fixed + (solve fixed).width ∧
    (solve fixed).width = (solve fixed).word.size ∧
    IsLeast {k | (solve fixed).value < 256 ^ k} (solve fixed).width ∧
    IsLeast {v | v = fixed + (Word.ofNat v).size} (solve fixed).value ∧
    solveChecked fixed = some (solve fixed) ∧
    (solve fixed).width ≤ 8 ∧
    ∀ farther, fixed < farther → (solve fixed).value < (solve farther).value := by
  have hleast : IsLeast {k | (solve fixed).value < 256 ^ k} (solve fixed).width := by
    rw [solve_width]
    exact Word.isLeast_size_ofNat _
  exact ⟨solve_value fixed, solve_width fixed, hleast, solve_isLeast fixed, solveChecked_eq h,
    solve_width_le_eight h, fun _ hlt => solve_strictMono hlt⟩

/-- Just below a power of 256 two values count their own bytes. The smaller one is taken, and one
byte farther off the wider literal is the only one. -/
theorem solve_settles_below_a_power :
    let fixed := 256 ^ 7 - 8
    fixed + 8 < addressSpace ∧
    solve fixed = ⟨256 ^ 7 - 1, 7⟩ ∧ solve (fixed + 1) = ⟨256 ^ 7 + 1, 8⟩ ∧
    256 ^ 7 = fixed + (Word.ofNat (256 ^ 7)).size ∧
    IsLeast {v | v = fixed + (Word.ofNat v).size} (256 ^ 7 - 1) ∧
    solveChecked fixed = some ⟨256 ^ 7 - 1, 7⟩ := by
  intro fixed
  have hroom : fixed + 8 < addressSpace := by decide
  have hsolve : solve fixed = ⟨256 ^ 7 - 1, 7⟩ := by decide +kernel
  have hsettles := solve_settles hroom
  rw [hsolve] at hsettles
  obtain ⟨_, _, _, hleast, hchecked, _⟩ := hsettles
  exact ⟨hroom, hsolve, by decide +kernel, by decide +kernel, hleast, hchecked⟩

end SelfSized

end Assembler
