import Assembler.Proofs.Storage.Reached
import Mathlib.Data.List.Sort

/-! Views without gaps. The bytes from a view's address on, as many as its elements have, are the
bytes of its elements only if each dimension steps over just what lies behind it. Taking a position
of the first dimension, or a run of neighbouring ones, keeps that. -/

namespace Assembler

/-- In every dimension of more than one position the stride is the number of elements behind it. A
single position is never stepped over, so its stride does not matter. -/
def Gapless : List Axis → Prop
  | [] => True
  | axis :: rest =>
    (1 < axis.extent → axis.stride = (rest.map Axis.extent).prod) ∧ Gapless rest

instance decidableGapless : (axes : List Axis) → Decidable (Gapless axes)
  | [] => isTrue trivial
  | _ :: rest => @instDecidableAnd _ _ inferInstance (decidableGapless rest)

theorem length_offsets (axes : List Axis) :
    (offsets axes).length = (axes.map Axis.extent).prod := by
  induction axes with
  | nil => rfl
  | cons axis rest ih => simp [offsets, List.length_flatMap, ih]

/-- The first block of offsets is that of the dimensions behind. -/
theorem offsets_cons_succ (count stride : Nat) (rest : List Axis) :
    offsets (⟨count + 1, stride⟩ :: rest) =
      offsets rest ++ (List.range count).flatMap fun i =>
        (offsets rest).map ((i + 1) * stride + ·) := by
  simp [offsets, List.range_succ_eq_map, List.flatMap_map]

theorem offsets_of_gapless {axes : List Axis} (hpos : 0 ∉ axes.map Axis.extent)
    (h : Gapless axes) : offsets axes = List.range (axes.map Axis.extent).prod := by
  induction axes with
  | nil => rfl
  | cons axis rest ih =>
    obtain ⟨hstride, hrest⟩ := h
    rw [List.map_cons, List.mem_cons, not_or] at hpos
    have hblock := ih hpos.2 hrest
    rw [List.map_cons, List.prod_cons]
    by_cases hextent : 1 < axis.extent
    · rw [offsets, hblock, hstride hextent]
      exact flatMap_range_mul _ _
    · have hone : axis.extent = 1 := by omega
      simp [offsets, hone, hblock]

theorem gapless_of_offsets {axes : List Axis} (hpos : 0 ∉ axes.map Axis.extent)
    (h : offsets axes = List.range (axes.map Axis.extent).prod) : Gapless axes := by
  induction axes with
  | nil => trivial
  | cons axis rest ih =>
    obtain ⟨extent, stride⟩ := axis
    rw [List.map_cons, List.mem_cons, not_or] at hpos
    dsimp only at hpos
    obtain ⟨count, rfl⟩ : ∃ count, extent = count + 1 := ⟨extent - 1, by omega⟩
    rw [List.map_cons, List.prod_cons, offsets_cons_succ, Nat.succ_mul, Nat.add_comm,
      List.range_add] at h
    -- Both lists are cut behind the block of the first position.
    obtain ⟨hblock, hlater⟩ :=
      List.append_inj h ((length_offsets rest).trans List.length_range.symm)
    refine ⟨?_, ih hpos.2 hblock⟩
    dsimp only
    intro hmore
    obtain ⟨others, rfl⟩ : ∃ others, count = others + 1 := ⟨count - 1, by omega⟩
    obtain ⟨later, hprod⟩ : ∃ later, (rest.map Axis.extent).prod = later + 1 := by
      have hne : (rest.map Axis.extent).prod ≠ 0 := by
        intro hzero
        exact hpos.2 (List.prod_eq_zero_iff.mp hzero)
      exact ⟨(rest.map Axis.extent).prod - 1, by omega⟩
    rw [hblock, hprod, Nat.succ_mul, ← Nat.add_assoc] at hlater
    have hhead := congrArg List.head? hlater
    simp [List.range_succ_eq_map] at hhead
    omega

theorem eq_range_of_pairwise_lt {xs : List Nat} (h : xs.Pairwise (· < ·))
    (hlt : ∀ x ∈ xs, x < xs.length) : xs = List.range xs.length := by
  have hsubset : xs ⊆ List.range xs.length := fun x hx => List.mem_range.mpr (hlt x hx)
  have hnodup : xs.Nodup := h.imp fun hxy => Nat.ne_of_lt hxy
  have hsub : xs.Sublist (List.range xs.length) :=
    List.sublist_of_subperm_of_pairwise (List.subperm_of_subset hnodup hsubset)
      (h.imp fun hxy => Nat.le_of_lt hxy) List.pairwise_le_range
  exact hsub.eq_of_length List.length_range.symm

theorem Grid.zero_notMem_shape {g : Grid} (h : g.isEmpty = false) : 0 ∉ g.shape := by
  intro hzero
  rw [g.isEmpty_iff.mpr hzero] at h
  cases h

namespace View.Allocated

/-- Without gaps and with its bytes counted, a view covers the bytes of its elements. -/
theorem extent_eq_bytes {v : View} (h : v.Allocated) : v.extent = v.bytes := by
  obtain ⟨hrow, bytes, hbytes, _⟩ := h
  obtain ⟨n, haddresses, hcount⟩ := hrow.addresses hbytes
  rw [bytes_of_row haddresses, ← hcount, extent, footprint_of_footprint? hbytes]

/-- The bytes a reached grid counts are the bytes of its elements exactly when it is gapless. -/
theorem extent_eq_bytes_iff {v : View} (h : v.Allocated) {path : List (List Index)} {g : Grid}
    (hpath : v.follow path = .ok (.grid g)) (hsize : 0 < g.size) (hnonempty : g.isEmpty = false) :
    (View.grid g).extent = (View.grid g).bytes ↔ Gapless g.axes := by
  have hpos : 0 ∉ g.axes.map Axis.extent := Grid.zero_notMem_shape hnonempty
  obtain ⟨bytes, _, hbytes⟩ := h.footprint? hpath
  have hextent : (View.grid g).extent =
      Set.Ico g.addr (g.addr + (g.axes.map Axis.extent).prod * g.size) := by
    rw [extent, footprint_of_footprint? hbytes, Grid.footprint?_eq hbytes, Nat.mul_comm]
    rfl
  constructor
  · intro hsame
    apply gapless_of_offsets hpos
    have hrising : (offsets g.axes).Pairwise (· < ·) := by
      have haddresses := h.pairwise_addresses hpath
      rw [addresses, cells, Grid.map_addr_elements, List.pairwise_map] at haddresses
      refine haddresses.imp ?_
      intro j k hjk
      have hjk : g.addr + j * g.size + g.size ≤ g.addr + k * g.size := hjk
      by_contra hkj
      have hmul := Nat.mul_le_mul_right g.size (Nat.le_of_not_lt hkj)
      omega
    rw [← length_offsets]
    apply eq_range_of_pairwise_lt hrising
    intro k hk
    have hfirst : g.addr + k * g.size ∈ (View.grid g).bytes := by
      refine mem_bytes_iff.mpr ⟨_, ?_, le_rfl, Nat.lt_add_of_pos_right hsize⟩
      rw [addresses, cells, Grid.map_addr_elements]
      exact List.mem_map_of_mem hk
    rw [← hsame, hextent] at hfirst
    rw [length_offsets]
    have hend := hfirst.2
    exact Nat.lt_of_mul_lt_mul_right (Nat.lt_of_add_lt_add_left hend)
  · intro hgapless
    rw [hextent]
    symm
    apply bytes_of_row (v := .grid g)
    rw [addresses, cells, Grid.map_addr_elements, offsets_of_gapless hpos hgapless]
    rfl

end View.Allocated

theorem Index.count_unit (start stop : Nat) : count start stop 1 = stop - start := by
  simp [count]

/-- Dimensions without an index are taken whole. -/
theorem selectAxes_whole (name : String) (dim : Nat) (axes : List Axis) :
    selectAxes name dim axes [] = .ok (0, axes) := by
  induction axes generalizing dim with
  | nil => rfl
  | cons axis axes ih =>
    have hall : Index.all.apply name dim axis = .ok (0, some axis) := by
      simp [Index.apply, Index.all, Index.clamp, Index.count_unit]
    simp only [selectAxes, List.headD_nil, List.tail_nil, hall, ih]
    rfl

namespace View

theorem rowMajor_iff (v : View) :
    v.RowMajor ↔ v.axes.map Axis.stride = contiguousStrides v.shape := by
  cases v with
  | cell c => exact ⟨fun _ => rfl, fun _ => trivial⟩
  | grid g => exact Iff.rfl

theorem footprint?_eq_prod {v : View} {bytes : Nat} (h : v.footprint? = some bytes) :
    bytes = v.elementSize * v.shape.prod := by
  cases v with
  | cell c =>
    cases h
    exact (Nat.mul_one _).symm
  | grid g => exact Grid.footprint?_eq h

def descend (v : View) (places : List Nat) : Except Fault View :=
  places.foldlM (fun u i => do (← u.toGrid).get i) v

namespace Allocated

variable {g : Grid} {v : View} {axis : Axis} {rest : List Axis}

theorem leading_stride (h : (View.grid g).Allocated) (hg : g.axes = axis :: rest) :
    axis.stride = (rest.map Axis.extent).prod ∧
      rest.map Axis.stride = contiguousStrides (rest.map Axis.extent) := by
  have hrow : g.axes.map Axis.stride = contiguousStrides (g.axes.map Axis.extent) := h.rowMajor
  rw [hg] at hrow
  exact List.cons.inj hrow

/-- Neighbouring positions of the first dimension are again as the allocator hands views out. -/
theorem of_neighbours (h : (View.grid g).Allocated) (hg : g.axes = axis :: rest)
    {indices : List Index} (hselect : g.select indices = .ok v) (hrow : v.RowMajor)
    {first count : Nat} (haddr : v.addr = g.addr + first * axis.stride * g.size)
    (hcount : v.shape.prod = count * (rest.map Axis.extent).prod)
    (hinside : first + count ≤ axis.extent) : v.Allocated := by
  obtain ⟨hstride, _⟩ := h.leading_stride hg
  obtain ⟨_, whole, hwhole, hroom⟩ := h
  obtain ⟨_, _, _, hsize⟩ := Grid.select_fields hselect
  obtain ⟨bytes, _, hbytes⟩ := select_footprint? (v := .grid g) hselect hwhole
  refine ⟨hrow, bytes, hbytes, lt_of_le_of_lt ?_ hroom⟩
  have hwhole := Grid.footprint?_eq hwhole
  rw [Grid.shape, hg, List.map_cons, List.prod_cons, ← hstride] at hwhole
  rw [footprint?_eq_prod hbytes, hsize, hcount, haddr, ← hstride]
  calc g.addr + first * axis.stride * g.size + g.size * (count * axis.stride)
      = g.addr + (first + count) * (axis.stride * g.size) := by ring
    _ ≤ g.addr + axis.extent * (axis.stride * g.size) :=
        Nat.add_le_add_left (Nat.mul_le_mul_right _ hinside) _
    _ = g.addr + whole := by rw [hwhole]; ring

/-- With one index, only the first dimension changes. -/
theorem leading_axis {index : Index} (hselect : g.select [index] = .ok v) :
    ∃ axis rest first kept, g.axes = axis :: rest ∧
      index.apply g.name 0 axis = .ok (first, kept) ∧ v.axes = kept.toList ++ rest ∧
      v.addr = g.addr + first * g.size := by
  obtain ⟨skipped, haxes, haddr, _⟩ := Grid.select_fields hselect
  cases hg : g.axes with
  | nil =>
    have hexcess : g.rank < [index].length := by simp [Grid.rank, hg]
    cases hselect.symm.trans (Grid.select_of_excess hexcess)
  | cons axis rest =>
    rw [hg] at haxes
    obtain ⟨first, kept, more, others, hfirst, hothers, rfl, haxes⟩ := selectAxes_cons_ok haxes
    cases (selectAxes_whole g.name 1 rest).symm.trans hothers
    exact ⟨axis, rest, first, kept, rfl, hfirst, haxes, haddr⟩

theorem get (h : (View.grid g).Allocated) {i : Nat} (hget : g.get i = .ok v) : v.Allocated := by
  obtain ⟨axis, rest, first, kept, hg, hfirst, haxes, haddr⟩ := leading_axis hget
  obtain ⟨_, hrest⟩ := h.leading_stride hg
  simp only [Index.apply] at hfirst
  split at hfirst
  · rename_i hi
    cases hfirst
    have hrow : v.RowMajor := by
      rw [rowMajor_iff, shape, haxes]
      exact hrest
    have hcount : v.shape.prod = 1 * (rest.map Axis.extent).prod := by
      rw [shape, haxes, Nat.one_mul]
      rfl
    exact h.of_neighbours hg hget hrow haddr hcount (Nat.succ_le_of_lt hi)
  · cases hfirst

theorem slice (h : (View.grid g).Allocated) {start stop step : Option Int64}
    (hstep : step = none ∨ step = some 1) {w : Grid}
    (hslice : g.slice (.span start stop step) = .ok w) : (View.grid w).Allocated := by
  have hselect : g.select [.span start stop step] = .ok (.grid w) := by
    rw [Grid.slice] at hslice
    cases hview : g.select [.span start stop step] with
    | error fault =>
      rw [hview] at hslice
      cases hslice
    | ok v =>
      rw [hview] at hslice
      cases v with
      | cell c => cases hslice
      | grid u =>
        cases hslice
        rfl
  obtain ⟨axis, rest, first, kept, hg, hfirst, haxes, haddr⟩ := leading_axis hselect
  obtain ⟨hstride, hrest⟩ := h.leading_stride hg
  have hunit : step.getD 1 = 1 := by
    rcases hstep with rfl | rfl <;> rfl
  simp only [Index.apply, hunit, Int64.toNatClampNeg_one, Index.count_unit, Nat.mul_one] at hfirst
  cases hfirst
  have hlow : Index.clamp start 0 axis.extent ≤ axis.extent := Index.clamp_le (Nat.zero_le _)
  have hhigh : Index.clamp stop axis.extent axis.extent ≤ axis.extent := Index.clamp_le le_rfl
  have hrow : (View.grid w).RowMajor := by
    rw [rowMajor_iff, shape, haxes]
    simp only [Option.toList, List.singleton_append, List.map_cons, contiguousStrides, hrest]
    rw [hstride]
    rfl
  have hcount : (View.grid w).shape.prod =
      (Index.clamp stop axis.extent axis.extent - Index.clamp start 0 axis.extent) *
        (rest.map Axis.extent).prod := by
    rw [shape, haxes]
    exact List.prod_cons
  exact h.of_neighbours hg hselect hrow haddr hcount (by omega)

theorem descend (h : v.Allocated) {places : List Nat} {w : View}
    (hplaces : v.descend places = .ok w) : w.Allocated := by
  induction places generalizing v with
  | nil =>
    cases hplaces
    exact h
  | cons i places ih =>
    rw [View.descend, List.foldlM_cons] at hplaces
    cases v with
    | cell c => cases hplaces
    | grid g =>
      cases hget : g.get i with
      | error fault =>
        have hfirst : (do (← (View.grid g).toGrid).get i) = .error fault := hget
        rw [hfirst] at hplaces
        cases hplaces
      | ok u =>
        have hfirst : (do (← (View.grid g).toGrid).get i) = .ok u := hget
        rw [hfirst] at hplaces
        exact ih (h.get hget) hplaces

end Allocated

end View

end Assembler
