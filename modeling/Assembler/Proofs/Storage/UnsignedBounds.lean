import Assembler.Proofs.Storage.Gapless
import Mathlib.Data.List.Intervals

/-! Slices of the first dimension with unsigned bounds. A bound keeps its bits when it becomes a
signed one. Up to the largest signed number it is brought into the dimension and nothing else, but
behind that it counts from the end. -/

namespace Assembler

namespace Index

/-- Where an unsigned bound falls in a dimension, unless that is behind its end. -/
def place (extent bound : Nat) : Nat :=
  if bound ≤ 0x7fffffffffffffff then bound else extent - (addressSpace - bound)

theorem toInt_signed64 (n : Nat) : (signed64 n).toInt = Int.bmod n addressSpace :=
  Int64.toInt_ofNat'

theorem toInt_signed64_of_le {n : Nat} (h : n ≤ 0x7fffffffffffffff) : (signed64 n).toInt = n := by
  rw [toInt_signed64, addressSpace]
  apply Int.bmod_eq_of_le <;> omega

theorem toInt_signed64_of_large {n : Nat} (hlarge : 0x7fffffffffffffff < n)
    (hn : n < addressSpace) : (signed64 n).toInt = n - addressSpace := by
  rw [toInt_signed64]
  unfold addressSpace Int.bmod at *
  dsimp only
  split <;> omega

theorem clamp_signed64 {extent bound : Nat} (hextent : extent ≤ 0x7fffffffffffffff)
    (hbound : bound < addressSpace) (missing : Nat) :
    clamp (some (signed64 bound)) missing extent = min (place extent bound) extent := by
  rw [clamp_eq_bound hextent, Index.bound, place]
  by_cases hsmall : bound ≤ 0x7fffffffffffffff
  · rw [toInt_signed64_of_le hsmall, if_pos hsmall, if_neg (by omega)]
    omega
  · rw [toInt_signed64_of_large (Nat.lt_of_not_le hsmall) hbound, if_neg hsmall, if_pos (by omega)]
    omega

theorem place_of_le {extent bound : Nat} (h : bound ≤ 0x7fffffffffffffff) :
    place extent bound = bound := if_pos h

theorem place_of_large {extent bound : Nat} (h : ¬ bound ≤ 0x7fffffffffffffff) :
    place extent bound = extent - (addressSpace - bound) := if_neg h

/-- With a larger lower bound the last row is taken, which the bound excludes. -/
theorem filter_place_le_eq_iff {n a : Nat} (hn : n ≤ 0x7fffffffffffffff) (ha : a < addressSpace) :
    (List.range n).filter (place n a ≤ ·) = (List.range n).filter (a ≤ ·) ↔
      a ≤ 0x7fffffffffffffff ∨ n = 0 := by
  constructor
  · intro h
    by_contra hlarge
    rw [not_or] at hlarge
    have hlast : n - 1 ∈ (List.range n).filter (place n a ≤ ·) := by
      simp only [place_of_large hlarge.1, List.mem_filter, List.mem_range, decide_eq_true_eq]
      omega
    rw [h] at hlast
    simp only [List.mem_filter, List.mem_range, decide_eq_true_eq] at hlast
    omega
  · rintro (hsmall | rfl)
    · rw [place_of_le hsmall]
    · rfl

/-- With a larger upper bound the last row is left out, which the bound includes. -/
theorem filter_lt_place_eq_iff {n b : Nat} (hn : n ≤ 0x7fffffffffffffff) (hb : b < addressSpace) :
    (List.range n).filter (· < place n b) = (List.range n).filter (· < b) ↔
      b ≤ 0x7fffffffffffffff ∨ n = 0 := by
  constructor
  · intro h
    by_contra hlarge
    rw [not_or] at hlarge
    have hlast : n - 1 ∈ (List.range n).filter (· < b) := by
      simp only [List.mem_filter, List.mem_range, decide_eq_true_eq]
      omega
    rw [← h] at hlast
    simp only [place_of_large hlarge.1, List.mem_filter, List.mem_range,
      decide_eq_true_eq] at hlast
    omega
  · rintro (hsmall | rfl)
    · rw [place_of_le hsmall]
    · rfl

end Index

theorem Ico_min_left {m n : Nat} (h : m ≤ n) (low : Nat) :
    List.Ico (min low n) m = List.Ico low m := by
  by_cases hlow : low ≤ n
  · rw [Nat.min_eq_left hlow]
  · rw [List.Ico.eq_nil_of_le (by omega), List.Ico.eq_nil_of_le (by omega)]

theorem filter_range_from (low n : Nat) :
    (List.range n).filter (low ≤ ·) = List.Ico (min low n) n := by
  rw [← List.Ico.zero_bot, List.Ico.filter_le, Nat.zero_max, Ico_min_left le_rfl]

theorem filter_range_to (high n : Nat) :
    (List.range n).filter (· < high) = List.Ico 0 (min high n) := by
  rw [← List.Ico.zero_bot, List.Ico.filter_lt, Nat.min_comm]

theorem filter_range_between (low high n : Nat) :
    (List.range n).filter (fun i => low ≤ i ∧ i < high) =
      List.Ico (min low n) (min high n) := by
  simp only [Bool.decide_and, ← List.filter_filter, filter_range_to, List.Ico.filter_le,
    Nat.zero_max]
  rw [Ico_min_left (Nat.min_le_right high n)]

namespace Grid

/-- A grid takes rows of another: its first dimension goes through them in their order, and the
dimensions behind are the same. -/
def TakesRows (g w : Grid) (rows : List Nat) : Prop :=
  w.shape = rows.length :: g.shape.tail ∧
  ∀ j i, rows[j]? = some i → ∀ position, List.Forall₂ (· < ·) position g.shape.tail →
    ∃ c d, w.cellAt (j :: position) = .ok c ∧ g.cellAt (i :: position) = .ok d ∧
      c.addr = d.addr ∧ c.size = d.size

variable {g : Grid} {axis : Axis} {rest : List Axis}

theorem slice_span (hg : g.axes = axis :: rest) (start stop : Option Int64) :
    g.slice (.span start stop none) = .ok
      ⟨indexedName g.name [Index.text (.span start stop none)],
        g.addr + Index.clamp start 0 axis.extent * axis.stride * g.size, g.size,
        ⟨Index.clamp stop axis.extent axis.extent - Index.clamp start 0 axis.extent,
          axis.stride⟩ :: rest⟩ := by
  have happly : (Index.span start stop none).apply g.name 0 axis =
      .ok (Index.clamp start 0 axis.extent * axis.stride,
        some ⟨Index.clamp stop axis.extent axis.extent - Index.clamp start 0 axis.extent,
          axis.stride⟩) := by
    simp [Index.apply, Index.count_unit]
  have hrank : ¬ g.rank < [Index.span start stop none].length := by simp [rank, hg]
  rw [slice, select, if_neg hrank, hg, selectAxes, List.headD_cons, happly, List.tail_cons]
  simp only [selectAxes_whole]
  rfl

/-- Neighbouring positions of the first dimension, from `first` on. -/
theorem takesRows_Ico (hg : g.axes = axis :: rest) {first last : Nat}
    (hlast : last ≤ axis.extent) (name : String) :
    g.TakesRows ⟨name, g.addr + first * axis.stride * g.size, g.size,
      ⟨last - first, axis.stride⟩ :: rest⟩ (List.Ico first last) := by
  have htail : g.shape = axis.extent :: rest.map Axis.extent := by
    rw [shape, hg, List.map_cons]
  constructor
  · rw [List.Ico.length, htail, List.tail_cons]
    rfl
  · intro j i hrow position hposition
    rw [htail, List.tail_cons] at hposition
    obtain ⟨hj, rfl⟩ : j < last - first ∧ first + j = i := by
      obtain ⟨hj, hi⟩ := List.getElem?_eq_some_iff.mp hrow
      rw [List.Ico.length] at hj
      simp only [List.Ico, List.getElem_range', Nat.one_mul] at hi
      exact ⟨hj, hi⟩
    refine ⟨_, _, cellAt_eq (.cons hj hposition), cellAt_eq ?_, ?_, rfl⟩
    · rw [htail]
      exact .cons (by omega) hposition
    · simp only [element, offset, strides, hg, List.map_cons, dot]
      ring

theorem slice_takesRows (hg : g.axes = axis :: rest) (start stop : Option Int64) :
    ∃ w, g.slice (.span start stop none) = .ok w ∧
      g.TakesRows w (List.Ico (Index.clamp start 0 axis.extent)
        (Index.clamp stop axis.extent axis.extent)) :=
  ⟨_, slice_span hg start stop, takesRows_Ico hg (Index.clamp_le le_rfl) _⟩

/-- Slices of the first dimension with unsigned bounds always succeed. They take, in increasing
order, the rows from where the lower bound falls up to where the upper one falls, as far as there
are rows. These are the rows that were asked for as long as the bounds are signed numbers too; with
a larger one, a slice with one bound takes other rows wherever there are any. -/
theorem unsigned_slices_take_rows (g : Grid) {n : Nat} {rest : List Nat}
    (hshape : g.shape = n :: rest) (hn : n ≤ 0x7fffffffffffffff) {a b : Nat}
    (ha : a < addressSpace) (hb : b < addressSpace) :
    (∃ w, g.slice (.range a b) = .ok w ∧
      g.TakesRows w
        ((List.range n).filter fun i => Index.place n a ≤ i ∧ i < Index.place n b)) ∧
    (∃ w, g.slice (.rangeFrom a) = .ok w ∧
      g.TakesRows w ((List.range n).filter (Index.place n a ≤ ·))) ∧
    (∃ w, g.slice (.rangeTo b) = .ok w ∧
      g.TakesRows w ((List.range n).filter (· < Index.place n b))) ∧
    (a ≤ 0x7fffffffffffffff → b ≤ 0x7fffffffffffffff →
      (List.range n).filter (fun i => Index.place n a ≤ i ∧ i < Index.place n b) =
        (List.range n).filter fun i => a ≤ i ∧ i < b) ∧
    ((List.range n).filter (Index.place n a ≤ ·) = (List.range n).filter (a ≤ ·) ↔
      a ≤ 0x7fffffffffffffff ∨ n = 0) ∧
    ((List.range n).filter (· < Index.place n b) = (List.range n).filter (· < b) ↔
      b ≤ 0x7fffffffffffffff ∨ n = 0) := by
  obtain ⟨axis, axes, hg, rfl, -⟩ : ∃ axis axes, g.axes = axis :: axes ∧ axis.extent = n ∧
      axes.map Axis.extent = rest := by
    rw [shape] at hshape
    exact List.map_eq_cons_iff.mp hshape
  have hlow := Index.clamp_signed64 hn ha 0
  have hhigh := Index.clamp_signed64 hn hb axis.extent
  refine ⟨?_, ?_, ?_, ?_, Index.filter_place_le_eq_iff hn ha, Index.filter_lt_place_eq_iff hn hb⟩
  · rw [filter_range_between, ← hlow, ← hhigh]
    exact slice_takesRows hg (some (signed64 a)) (some (signed64 b))
  · rw [filter_range_from, ← hlow]
    exact slice_takesRows hg (some (signed64 a)) none
  · rw [filter_range_to, ← hhigh]
    exact slice_takesRows hg none (some (signed64 b))
  · intro hsmall hsmall'
    rw [Index.place_of_le hsmall, Index.place_of_le hsmall']

/-- Of ten rows the last three, with the largest signed number as upper bound and with none. -/
theorem unsigned_slices_take_rows_of_ten :
    let g := contiguous "m" 64 32 [10, 2]
    g.shape = [10, 2] ∧
    (∃ w, g.slice (.range 7 0x7fffffffffffffff) = .ok w ∧ g.TakesRows w [7, 8, 9]) ∧
    (∃ w, g.slice (.rangeFrom 7) = .ok w ∧ g.TakesRows w [7, 8, 9]) := by
  intro g
  have hshape : g.shape = [10, 2] := by decide
  obtain ⟨hrange, hfrom, _⟩ := g.unsigned_slices_take_rows hshape (by decide)
    (show 7 < addressSpace by decide) (show 0x7fffffffffffffff < addressSpace by decide)
  exact ⟨hshape, hrange, hfrom⟩

/-- The largest unsigned upper bound leaves the last of ten rows out. -/
theorem largest_bound_drops_the_last_row :
    let g := contiguous "line" 0 32 [10]
    (List.range 10).filter (· < addressSpace - 1) = List.range 10 ∧
    ¬ ∃ w, g.slice (.rangeTo (addressSpace - 1)) = .ok w ∧ g.TakesRows w (List.range 10) := by
  intro g
  refine ⟨by decide +kernel, ?_⟩
  rintro ⟨w, hslice, hshape, _⟩
  have hnine : g.slice (.rangeTo (addressSpace - 1)) =
      .ok ⟨"line[:-1]", 0, 32, [⟨9, 1⟩]⟩ := by decide +kernel
  cases hnine.symm.trans hslice
  cases hshape

end Grid

end Assembler
