import Assembler.Proofs.Storage.Reached
import Mathlib.Data.List.TakeWhile

/-! How many elements and bytes a grid has. The number of elements is exact up to the end of the
address space. The number of bytes is too, unless the count passes that end before it comes to an
extent of zero: then a grid without elements counts as too large. -/

namespace Assembler

/-- Some extent is zero, but the bytes in front of the first such one already leave the address
space. -/
def ZeroComesLate (size : Nat) (shape : List Nat) : Prop :=
  0 ∈ shape ∧ addressSpace ≤ size * (shape.takeWhile (· ≠ 0)).prod

instance (size : Nat) (shape : List Nat) : Decidable (ZeroComesLate size shape) :=
  inferInstanceAs (Decidable (_ ∧ _))

theorem takeWhile_ne_zero_prod_pos (shape : List Nat) : 0 < (shape.takeWhile (· ≠ 0)).prod := by
  apply Nat.pos_of_ne_zero
  intro hzero
  have hmem := List.mem_takeWhile_imp (List.prod_eq_zero_iff.mp hzero)
  simp at hmem

/-- Only what stands in front of the first zero is ever multiplied to something large. -/
theorem bytesFrom_eq {start : Nat} (h : start < addressSpace) (shape : List Nat) :
    bytesFrom start shape =
      if start * (shape.takeWhile (· ≠ 0)).prod < addressSpace then some (start * shape.prod)
      else none := by
  induction shape generalizing start with
  | nil => simp [bytesFrom, h]
  | cons extent rest ih =>
    rw [bytesFrom_cons]
    by_cases hextent : extent = 0
    · subst extent
      have hzero : (0 : Nat) < addressSpace := by decide
      rw [Nat.mul_zero, if_pos hzero, ih hzero]
      simp [h, hzero]
    · have hlead := takeWhile_ne_zero_prod_pos rest
      rw [List.takeWhile_cons_of_pos (by simpa using hextent), List.prod_cons, List.prod_cons,
        ← Nat.mul_assoc, ← Nat.mul_assoc]
      by_cases hfits : start * extent < addressSpace
      · rw [if_pos hfits, ih hfits]
      · have hmore := Nat.le_mul_of_pos_right (start * extent) hlead
        rw [if_neg hfits, if_neg (by omega)]

theorem bytesFrom_of_not_late {size : Nat} (h : size < addressSpace) {shape : List Nat}
    (hlate : ¬ ZeroComesLate size shape) :
    bytesFrom size shape =
      if size * shape.prod < addressSpace then some (size * shape.prod) else none := by
  rw [bytesFrom_eq h]
  by_cases hzero : 0 ∈ shape
  · have hlead : size * (shape.takeWhile (· ≠ 0)).prod < addressSpace := by
      by_contra hmore
      exact hlate ⟨hzero, Nat.le_of_not_lt hmore⟩
    have hprod : size * shape.prod = 0 := by rw [List.prod_eq_zero hzero, Nat.mul_zero]
    rw [if_pos hlead, hprod, if_pos (by decide)]
  · have hwhole : shape.takeWhile (· ≠ 0) = shape := by
      rw [List.takeWhile_eq_self_iff]
      intro extent hextent
      simpa using ne_of_mem_of_not_mem hextent hzero
    rw [hwhole]

theorem bytesFrom_of_late {size : Nat} (h : size < addressSpace) {shape : List Nat}
    (hlate : ZeroComesLate size shape) : bytesFrom size shape = none := by
  rw [bytesFrom_eq h, if_neg (Nat.not_lt_of_le hlate.2)]

namespace Grid

theorem footprint_of_footprint?_eq {g : Grid} {bytes : Nat}
    (h : g.footprint? = if bytes < addressSpace then some bytes else none) :
    g.footprint = min bytes (addressSpace - 1) := by
  rw [footprint, h]
  split
  · rw [Option.getD_some]
    omega
  · rw [Option.getD_none]
    omega

end Grid

namespace Memory

theorem fresh_footprint? (m : Memory) (name : String) (size : Nat) {shape : List Nat}
    (h : shape ≠ []) : (m.fresh name size shape).footprint? = bytesFrom size shape := by
  have hgrid : m.fresh name size shape = .grid (.contiguous name m.next size shape) :=
    if_neg (by simpa using h)
  rw [hgrid, View.footprint?_eq_bytesFrom]
  exact congrArg (bytesFrom size) (Grid.shape_contiguous name m.next size shape)

/-- The allocation of a grid without elements fails for want of room only if its bytes were not
counted right. -/
theorem alloc_empty_overflows_iff {m : Memory} (hnext : m.next < addressSpace) (name : String)
    {size : Nat} (hsize : size < addressSpace) {shape : List Nat} (hempty : 0 ∈ shape) :
    m.alloc name size shape = .error (.addressOverflow name) ↔
      m.contains name = false ∧ ZeroComesLate size shape := by
  have hfresh := m.fresh_footprint? name size (List.ne_nil_of_mem hempty)
  by_cases hlate : ZeroComesLate size shape
  · rw [bytesFrom_of_late hsize hlate] at hfresh
    rcases m.alloc_cases name size shape with ⟨hname, h⟩ | ⟨hname, _, h⟩ | ⟨_, bytes, hbytes, _⟩
    · simp [h, hname]
    · simp [h, hname, hlate]
    · cases hfresh.symm.trans hbytes
  · rw [bytesFrom_of_not_late hsize hlate, List.prod_eq_zero hempty, Nat.mul_zero,
      if_pos (by decide)] at hfresh
    rcases m.alloc_cases name size shape with ⟨hname, h⟩ | ⟨_, hroom, _⟩ | ⟨_, _, _, _, h⟩
    · simp [h, hname]
    · exact absurd hroom (not_noRoom hfresh hnext)
    · simp [h, hlate]

end Memory

/-- What a grid of any shape counts. The elements are counted exactly, as far as the address space
goes, and so are the bytes, except where a zero comes too late among the extents. There a grid
without elements has no size, its footprint is the largest number, and it cannot be allocated. -/
theorem Grid.sizes_exact_unless_zero_comes_late (g : Grid) (hsize : g.size < addressSpace) :
    g.len = min g.shape.prod (addressSpace - 1) ∧
    (¬ ZeroComesLate g.size g.shape →
      g.footprint? =
        (if g.size * g.shape.prod < addressSpace then some (g.size * g.shape.prod) else none) ∧
      g.footprint = min (g.size * g.shape.prod) (addressSpace - 1)) ∧
    (ZeroComesLate g.size g.shape →
      g.isEmpty = true ∧ g.footprint? = none ∧ g.footprint = addressSpace - 1) ∧
    ∀ (m : Memory) (name : String), m.next < addressSpace → g.isEmpty = true →
      (m.alloc name g.size g.shape = .error (.addressOverflow name) ↔
        m.contains name = false ∧ ZeroComesLate g.size g.shape) := by
  refine ⟨g.len_eq, ?_, ?_, ?_⟩
  · intro hlate
    have hbytes := bytesFrom_of_not_late hsize hlate
    exact ⟨hbytes, footprint_of_footprint?_eq hbytes⟩
  · intro hlate
    have hbytes : g.footprint? = none := bytesFrom_of_late hsize hlate
    exact ⟨g.isEmpty_iff.mpr hlate.1, hbytes, by rw [footprint, hbytes, Option.getD_none]⟩
  · intro m name hnext hempty
    exact Memory.alloc_empty_overflows_iff hnext name hsize (g.isEmpty_iff.mp hempty)

/-- Between two large extents a zero comes in time, and the grid can be allocated just below the end
of the address space. -/
theorem Grid.sizes_exact_with_zero_in_time :
    let g := contiguous "e" 0 32 [2 ^ 40, 0, 2 ^ 40]
    let m := Memory.ofSettings { memoryBase := addressSpace - 1 }
    g.size < addressSpace ∧ g.len = 0 ∧ g.footprint? = some 0 ∧ g.footprint = 0 ∧
    m.alloc "e" 32 [2 ^ 40, 0, 2 ^ 40] ≠ .error (.addressOverflow "e") := by
  intro g m
  have hsize : g.size < addressSpace := by decide
  have hlate : ¬ ZeroComesLate g.size g.shape := by decide +kernel
  obtain ⟨hlen, hexact, _, halloc⟩ := g.sizes_exact_unless_zero_comes_late hsize
  obtain ⟨hbytes, hfootprint⟩ := hexact hlate
  refine ⟨hsize, hlen, hbytes, hfootprint, ?_⟩
  intro hoverflow
  exact hlate ((halloc m "e" (by decide +kernel) (by decide +kernel)).mp hoverflow).2

/-- The same extents with the zero behind them. -/
theorem Grid.zero_comes_late_behind_large_extents :
    let g := contiguous "e" 0 32 [2 ^ 40, 2 ^ 40, 0]
    g.isEmpty = true ∧ g.size * g.shape.prod = 0 ∧
    g.footprint? = none ∧ g.footprint = addressSpace - 1 ∧
    (Memory.ofSettings {}).alloc "e" 32 [2 ^ 40, 2 ^ 40, 0] = .error (.addressOverflow "e") := by
  decide +kernel

end Assembler
