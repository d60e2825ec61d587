import Assembler.Storage.View
import Mathlib.Algebra.BigOperators.Ring.List
import Mathlib.Data.List.Flatten
import Mathlib.Order.Monotone.Basic
import Mathlib.Tactic.Ring

/-! Selecting from a grid only ever leaves elements out. The elements of a selected view, by
address and in order, are a sublist of the elements of the grid, along any chain of selections. -/

namespace Assembler

/-- How many elements the positions of axes lie behind the first one, in lexicographic order. -/
def offsets : List Axis → List Nat
  | [] => [0]
  | axis :: rest =>
    (List.range axis.extent).flatMap fun i => (offsets rest).map (i * axis.stride + ·)

theorem offsets_eq_map_dot (axes : List Axis) :
    offsets axes =
      (multiIndices (axes.map Axis.extent)).map (dot · (axes.map Axis.stride)) := by
  induction axes with
  | nil => rfl
  | cons axis rest ih =>
    simp only [offsets, ih, List.map_cons, multiIndices, List.map_flatMap, List.map_map]
    rfl

theorem multiIndices_eq_nil_iff (shape : List Nat) : multiIndices shape = [] ↔ 0 ∈ shape := by
  induction shape with
  | nil => simp [multiIndices]
  | cons extent rest ih =>
    rw [multiIndices, List.flatMap_eq_nil_iff, List.mem_cons, ← ih]
    constructor
    · intro h
      by_cases he : extent = 0
      · exact Or.inl he.symm
      · have hfirst := h 0 (List.mem_range.mpr (Nat.pos_of_ne_zero he))
        exact Or.inr (List.map_eq_nil_iff.mp hfirst)
    · rintro (rfl | hrest) i hi
      · exact absurd hi (by simp)
      · rw [hrest, List.map_nil]

namespace Grid

private theorem foldl_len (shape : List Nat) {acc : Nat} (h : acc ≤ addressSpace - 1) :
    shape.foldl (fun acc extent => min (acc * extent) (addressSpace - 1)) acc =
      min (acc * shape.prod) (addressSpace - 1) := by
  induction shape generalizing acc with
  | nil => simp [h]
  | cons extent rest ih =>
    rw [List.foldl_cons, ih (Nat.min_le_right _ _), List.prod_cons, ← Nat.mul_assoc]
    rcases Nat.le_total (acc * extent) (addressSpace - 1) with hfits | hwide
    · rw [Nat.min_eq_left hfits]
    · rw [Nat.min_eq_right hwide]
      -- Once at the limit, only a zero extent leads back below it.
      rcases Nat.eq_zero_or_pos rest.prod with hzero | hpos
      · rw [hzero, Nat.mul_zero, Nat.mul_zero]
      · rw [Nat.min_eq_right (Nat.le_mul_of_pos_right _ hpos),
          Nat.min_eq_right (hwide.trans (Nat.le_mul_of_pos_right _ hpos))]

theorem len_eq (g : Grid) : g.len = min g.shape.prod (addressSpace - 1) := by
  rw [len, foldl_len g.shape (by decide), Nat.one_mul]

theorem isEmpty_iff (g : Grid) : g.isEmpty = true ↔ 0 ∈ g.shape := by
  rw [isEmpty, beq_iff_eq, len_eq, ← List.prod_eq_zero_iff]
  unfold addressSpace
  omega

/-- The test for emptiness changes nothing: a grid with a zero extent has no positions. -/
theorem elements_eq_map (g : Grid) : g.elements = (multiIndices g.shape).map g.element := by
  unfold elements
  split
  · rename_i hempty
    rw [(multiIndices_eq_nil_iff g.shape).mpr (g.isEmpty_iff.mp hempty), List.map_nil]
  · rfl

theorem map_addr_elements (g : Grid) :
    g.elements.map Cell.addr = (offsets g.axes).map fun k => g.addr + k * g.size := by
  rw [elements_eq_map, offsets_eq_map_dot, List.map_map, List.map_map]
  rfl

theorem size_of_mem_elements {g : Grid} {c : Cell} (h : c ∈ g.elements) : c.size = g.size := by
  rw [elements_eq_map] at h
  obtain ⟨position, _, rfl⟩ := List.mem_map.mp h
  rfl

end Grid

/-- Strictly growing positions below a bound are some of all positions below it. -/
theorem map_range_sublist {f : Nat → Nat} (hf : StrictMono f) {count extent : Nat}
    (h : ∀ j < count, f j < extent) :
    ((List.range count).map f).Sublist (List.range extent) := by
  induction count generalizing extent with
  | zero => simp
  | succ count ih =>
    have hlast := h count (Nat.lt_succ_self count)
    have hfront : ((List.range count).map f).Sublist (List.range (f count)) :=
      ih fun j hj => hf hj
    have hsplit : extent = f count + (extent - f count - 1 + 1) := by omega
    rw [List.range_succ, List.map_append, hsplit, List.range_add]
    refine hfront.append ?_
    rw [List.range_succ_eq_map, List.map_cons, List.map_cons, List.map_nil]
    exact List.Sublist.cons_cons _ (List.nil_sublist _)

namespace Index

theorem clamp_some (b : Int64) (missing extent : Nat) :
    clamp (some b) missing extent =
      if b.toInt < 0 then (Int.bmod (extent + b.toInt) addressSpace).toNat
      else min b.toInt.toNat extent := by
  have hsum : (signed64 extent + b).toInt = Int.bmod (extent + b.toInt) addressSpace := by
    rw [Int64.toInt_add, signed64, Int64.toInt_ofNat']
    exact Int.bmod_add_bmod
  simp only [clamp, Int64.lt_iff_toInt_lt, Int64.toInt_zero, Int64.toNatClampNeg, hsum]

/-- A sum that wraps around is one with an extent above all signed numbers, and falls below them. -/
theorem clamp_le {bound : Option Int64} {missing extent : Nat} (h : missing ≤ extent) :
    clamp bound missing extent ≤ extent := by
  cases bound with
  | none => exact h
  | some b =>
    have hlow := b.le_toInt
    rw [clamp_some]
    unfold addressSpace Int.bmod
    dsimp only
    split
    · split <;> omega
    · omega

theorem toNatClampNeg_pos {step : Int64} (h : ¬ step ≤ 0) : 0 < step.toNatClampNeg := by
  rw [Int64.le_iff_toInt_le, Int64.toInt_zero] at h
  unfold Int64.toNatClampNeg
  omega

theorem lt_of_lt_count {start stop step j : Nat} (hstep : 0 < step)
    (h : j < count start stop step) : start + j * step < stop := by
  have hmul : (j + 1) * step ≤ stop - start + (step - 1) :=
    (Nat.le_div_iff_mul_le hstep).mp h
  rw [Nat.add_mul, Nat.one_mul] at hmul
  omega

/-- What an index can do to an axis: drop it at a position inside, or keep evenly spaced positions
inside. -/
theorem apply_ok {name : String} {dim skipped : Nat} {axis : Axis} {index : Index}
    {kept : Option Axis} (h : index.apply name dim axis = .ok (skipped, kept)) :
    (∃ i, i < axis.extent ∧ skipped = i * axis.stride ∧ kept = none) ∨
    ∃ first step count, 0 < step ∧ (∀ j < count, first + j * step < axis.extent) ∧
      skipped = first * axis.stride ∧ kept = some ⟨count, axis.stride * step⟩ := by
  cases index with
  | item i =>
    rw [apply] at h
    split at h
    · rename_i hi
      cases h
      exact Or.inl ⟨i, hi, rfl, rfl⟩
    · cases h
  | span start stop step =>
    rw [apply] at h
    dsimp only at h
    split at h
    · cases h
    · rename_i hstep
      cases h
      have hpos : 0 < (step.getD 1).toNatClampNeg := toNatClampNeg_pos hstep
      refine Or.inr ⟨_, _, _, hpos, ?_, rfl, rfl⟩
      intro j hj
      have hstop : clamp stop axis.extent axis.extent ≤ axis.extent := clamp_le le_rfl
      exact lt_of_lt_of_le (lt_of_lt_count hpos hj) hstop

end Index

theorem selectAxes_cons_ok {name : String} {dim skipped : Nat} {axis : Axis} {axes kept : List Axis}
    {indices : List Index}
    (h : selectAxes name dim (axis :: axes) indices = .ok (skipped, kept)) :
    ∃ first head more rest, (indices.headD .all).apply name dim axis = .ok (first, head) ∧
      selectAxes name (dim + 1) axes indices.tail = .ok (more, rest) ∧
      skipped = first + more ∧ kept = head.toList ++ rest := by
  rw [selectAxes] at h
  cases hhead : (indices.headD .all).apply name dim axis with
  | error fault =>
    rw [hhead] at h
    cases h
  | ok result =>
    obtain ⟨first, head⟩ := result
    cases hrest : selectAxes name (dim + 1) axes indices.tail with
    | error fault =>
      rw [hhead, hrest] at h
      cases h
    | ok result =>
      obtain ⟨more, rest⟩ := result
      rw [hhead, hrest] at h
      cases h
      exact ⟨first, head, more, rest, rfl, rfl, rfl, rfl⟩

/-- Along the axes, selected positions are some of the old ones in their old order. -/
theorem selectAxes_sublist {name : String} {dim skipped : Nat} {axes kept : List Axis}
    {indices : List Index} (h : selectAxes name dim axes indices = .ok (skipped, kept)) :
    ((offsets kept).map (skipped + ·)).Sublist (offsets axes) := by
  induction axes generalizing dim skipped kept indices with
  | nil =>
    rw [selectAxes] at h
    cases h
    exact List.Sublist.refl _
  | cons axis axes ih =>
    obtain ⟨first, head, more, rest, hhead, hrest, rfl, rfl⟩ := selectAxes_cons_ok h
    have hsub := ih hrest
    rcases Index.apply_ok hhead with ⟨i, hi, rfl, rfl⟩ | ⟨start, step, count, hstep, hin, rfl, rfl⟩
    · have hblock : ((offsets axes).map (i * axis.stride + ·)).Sublist (offsets (axis :: axes)) :=
        List.sublist_flatten_of_mem (List.mem_map_of_mem (List.mem_range.mpr hi))
      have hmap := hsub.map (i * axis.stride + ·)
      simp only [List.map_map, Function.comp_def, ← Nat.add_assoc] at hmap
      exact hmap.trans hblock
    · have hmono : StrictMono fun j => start + j * step := by
        intro a b hab
        exact Nat.add_lt_add_left (Nat.mul_lt_mul_of_pos_right hab hstep) _
      have hpositions := map_range_sublist hmono hin
      have hblocks := (hpositions.flatMap fun i =>
        ((offsets rest).map (more + ·)).map (i * axis.stride + ·)).trans
          (List.Sublist.flatMap_right _ fun i _ => hsub.map (i * axis.stride + ·))
      have hkept : ((offsets ((some ⟨count, axis.stride * step⟩ : Option Axis).toList ++ rest)).map
          (start * axis.stride + more + ·)) =
          ((List.range count).map fun j => start + j * step).flatMap fun i =>
            ((offsets rest).map (more + ·)).map (i * axis.stride + ·) := by
        simp only [Option.toList, List.singleton_append, offsets, List.map_flatMap, List.map_map,
          List.flatMap_map, Function.comp_def]
        congr 1
        funext j
        refine List.map_congr_left fun k _ => ?_
        ring
      rw [hkept]
      exact hblocks

namespace View

def cells : View → List Cell
  | .cell c => [c]
  | .grid g => g.elements

def elementSize : View → Nat
  | .cell c => c.size
  | .grid g => g.size

def addresses (v : View) : List Nat := v.cells.map Cell.addr

theorem size_of_mem_cells {v : View} {c : Cell} (h : c ∈ v.cells) : c.size = v.elementSize := by
  cases v with
  | cell d => rw [List.mem_singleton.mp h]; rfl
  | grid g => exact Grid.size_of_mem_elements h

end View

theorem Grid.select_sublist {g : Grid} {indices : List Index} {v : View}
    (h : g.select indices = .ok v) :
    v.elementSize = g.size ∧ v.addresses.Sublist (g.elements.map Cell.addr) := by
  unfold select at h
  split at h
  · cases h
  · cases haxes : selectAxes g.name 0 g.axes indices with
    | error fault =>
      rw [haxes] at h
      cases h
    | ok result =>
      obtain ⟨skipped, axes⟩ := result
      rw [haxes] at h
      have hview := Except.ok.inj h
      have hsub := (selectAxes_sublist haxes).map fun k => g.addr + k * g.size
      rw [← map_addr_elements] at hsub
      have haddr : v.elementSize = g.size ∧
          v.addresses = ((offsets axes).map (skipped + ·)).map fun k => g.addr + k * g.size := by
        subst hview
        cases axes with
        | nil => exact ⟨rfl, rfl⟩
        | cons axis rest =>
          refine ⟨rfl, ?_⟩
          rw [List.map_map]
          refine (map_addr_elements _).trans (List.map_congr_left fun k _ => ?_)
          simp only [Function.comp_apply]
          ring
      exact ⟨haddr.1, haddr.2 ▸ hsub⟩

namespace View

theorem select_ok {v w : View} {indices : List Index} (h : v.select indices = .ok w) :
    ∃ g, v = .grid g ∧ g.select indices = .ok w := by
  cases v with
  | cell c => cases h
  | grid g => exact ⟨g, rfl, h⟩

theorem follow_sublist {v w : View} {path : List (List Index)} (h : v.follow path = .ok w) :
    w.elementSize = v.elementSize ∧ w.addresses.Sublist v.addresses := by
  induction path generalizing v with
  | nil =>
    cases h
    exact ⟨rfl, List.Sublist.refl _⟩
  | cons indices rest ih =>
    rw [follow, List.foldlM_cons] at h
    cases hfirst : v.select indices with
    | error fault =>
      rw [hfirst] at h
      cases h
    | ok u =>
      rw [hfirst] at h
      obtain ⟨hsize, hsub⟩ := ih h
      obtain ⟨g, rfl, hselect⟩ := select_ok hfirst
      obtain ⟨husize, husub⟩ := Grid.select_sublist hselect
      exact ⟨hsize.trans husize, hsub.trans husub⟩

end View

/-- However often a grid is cut down, with whatever strides, the addresses of what is left are a
subsequence of the grid's. So each element left is one of the grid's, of the same size, and no
address comes up more often than in the grid. -/
theorem Grid.reselection_only_selects (g : Grid) {path : List (List Index)} {v : View}
    (h : (View.grid g).follow path = .ok v) :
    v.addresses.Sublist (g.elements.map Cell.addr) ∧
    (∀ c ∈ v.cells, ∃ d ∈ g.elements, d.addr = c.addr ∧ d.size = c.size) ∧
    ∀ a, v.addresses.count a ≤ (g.elements.map Cell.addr).count a := by
  obtain ⟨hsize, hsub⟩ := View.follow_sublist h
  refine ⟨hsub, ?_, fun a => hsub.count_le a⟩
  intro c hc
  obtain ⟨d, hd, haddr⟩ := List.mem_map.mp (hsub.subset (List.mem_map_of_mem hc))
  refine ⟨d, hd, haddr, ?_⟩
  rw [View.size_of_mem_cells hc, hsize]
  exact View.size_of_mem_cells (v := .grid g) hd

/-- Rows that overlap: some addresses come up twice or more among the elements, and a step behind
the end and a bound from the end cut the grid down to two of them. -/
theorem Grid.reselection_of_overlapping_rows :
    let g : Grid := ⟨"g", 100, 4, [⟨3, 1⟩, ⟨4, 1⟩]⟩
    let path : List (List Index) :=
      [[.span (some 1) none none, .span none none (some 3)], [.span none (some (-1)) (some 9)]]
    let v : View := .grid ⟨"g[1:,::3][:-1:9]", 104, 4, [⟨1, 9⟩, ⟨2, 3⟩]⟩
    (View.grid g).follow path = .ok v ∧ v.addresses = [104, 116] ∧
    g.elements.map Cell.addr =
      [100, 104, 108, 112, 104, 108, 112, 116, 108, 112, 116, 120] ∧
    v.addresses.Sublist (g.elements.map Cell.addr) := by
  intro g path v
  have h : (View.grid g).follow path = .ok v := by decide +kernel
  exact ⟨h, by decide +kernel, by decide +kernel, (g.reselection_only_selects h).1⟩

end Assembler
