import Assembler.Proofs.Storage.Gapless

/-! Address arithmetic in 64 bits. Indexing multiplies and adds without checks. Here the products
and sums that make up strides, offsets and addresses are repeated with a check on each, and on views
of allocated memory the checks never fail: what the allocator made sure of, that the last byte has
an address, bounds every number on the way. Where a bound falls in its dimension is not checked. It
is found in signed numbers that wrap around, and wherever it falls, it falls inside. -/

namespace Assembler

/-- An outcome that is reached only if no number on the way leaves the address space. -/
abbrev Bounded (α : Type) := ExceptT Fault Option α

namespace Bounded

variable {α β : Type}

def lift (outcome : Except Fault α) : Bounded α := ExceptT.mk (some outcome)

def within (n : Nat) : Bounded Nat := if n < addressSpace then pure n else ExceptT.mk none

theorem within_of_lt {n : Nat} (h : n < addressSpace) : within n = pure n := if_pos h

theorem lift_ok (a : α) : lift (.ok a) = pure a := rfl

theorem mapM_eq_pure {f : α → Bounded β} {g : α → β} {xs : List α}
    (h : ∀ x ∈ xs, f x = pure (g x)) : xs.mapM f = pure (xs.map g) := by
  induction xs with
  | nil => rfl
  | cons x xs ih =>
    obtain ⟨hx, hxs⟩ := List.forall_mem_cons.mp h
    rw [List.mapM_cons, hx, pure_bind, ih hxs, pure_bind, List.map_cons]

end Bounded

open Bounded

def stridesWithin : List Nat → Bounded (List Nat)
  | [] => pure []
  | [_] => pure [1]
  | _ :: extent :: rest => do
    let strides ← stridesWithin (extent :: rest)
    let stride ← within (strides.headD 1 * extent)
    return stride :: strides

def keptWithin : Option Axis → Bounded (List Axis)
  | none => pure []
  | some axis => do return [⟨axis.extent, ← within axis.stride⟩]

def selectAxesWithin (name : String) (dim offset : Nat) :
    List Axis → List Index → Bounded (Nat × List Axis)
  | [], _ => pure (offset, [])
  | axis :: axes, indices => do
    let (skipped, kept) ← lift ((indices.headD .all).apply name dim axis)
    let skipped ← within skipped
    let offset ← within (offset + skipped)
    let kept ← keptWithin kept
    let (total, rest) ← selectAxesWithin name (dim + 1) offset axes indices.tail
    return (total, kept ++ rest)

def dotWithin (sum : Nat) : List Nat → List Nat → Bounded Nat
  | m :: ms, n :: ns => do
    let product ← within (m * n)
    let sum ← within (sum + product)
    dotWithin sum ms ns
  | _, _ => pure sum

namespace Grid

def addressWithin (g : Grid) (offset : Nat) : Bounded Nat := do
  let bytes ← within (offset * g.size)
  within (g.addr + bytes)

def selectWithin (g : Grid) (indices : List Index) : Bounded View :=
  if g.rank < indices.length then
    lift (.error (.excessIndices g.name indices.length g.rank))
  else do
    let (offset, axes) ← selectAxesWithin g.name 0 0 g.axes indices
    let addr ← g.addressWithin offset
    let name := indexedName g.name (indices.map Index.text)
    return if axes.isEmpty then .cell ⟨name, addr, g.size⟩ else .grid ⟨name, addr, g.size, axes⟩

def cellAtWithin (g : Grid) (position : List Nat) : Bounded Cell := do
  lift (← g.selectWithin (position.map .item)).toCell

def elementWithin (g : Grid) (position : List Nat) : Bounded Cell := do
  let addr ← g.addressWithin (← dotWithin 0 position g.strides)
  return ⟨indexedName g.name (position.map toString), addr, g.size⟩

def elementsWithin (g : Grid) : Bounded (List Cell) :=
  if g.isEmpty then pure [] else (multiIndices g.shape).mapM g.elementWithin

end Grid

namespace View

def selectWithin (v : View) (indices : List Index) : Bounded View := do
  (← lift v.toGrid).selectWithin indices

def followWithin (v : View) (path : List (List Index)) : Bounded View :=
  path.foldlM selectWithin v

end View

/-- How many elements the last position of axes lies behind the first one. -/
def reach : List Axis → Nat
  | [] => 0
  | axis :: rest => (axis.extent - 1) * axis.stride + reach rest

namespace Index

/-- An integer, or a slice by single steps that selects something. -/
def UnitStep (extent : Nat) : Index → Prop
  | .item _ => True
  | .span start stop step => step.getD 1 = 1 ∧ clamp start 0 extent < clamp stop extent extent

def Inside (extent : Nat) : Index → Prop
  | .item i => i < extent
  | .span start stop step => UnitStep extent (.span start stop step)

instance (extent : Nat) : (index : Index) → Decidable (index.Inside extent)
  | .item i => inferInstanceAs (Decidable (i < extent))
  | .span _ _ step => inferInstanceAs (Decidable (step.getD 1 = 1 ∧ _ < _))

theorem Inside.unitStep {extent : Nat} {index : Index} (h : index.Inside extent) :
    index.UnitStep extent := by
  cases index with
  | item i => trivial
  | span start stop step => exact h

theorem Inside.not_wrong {name : String} {dim extent : Nat} {index : Index} {fault : Fault}
    (h : index.Inside extent) : ¬ index.Wrong name dim extent fault := by
  intro hwrong
  cases hwrong with
  | outside hi => exact absurd h (Nat.not_lt_of_le hi)
  | @step _ _ step hstep =>
    have hone : step = 1 := h.1
    subst hone
    exact absurd hstep (by decide)

theorem unitStep_all {extent : Nat} (h : 0 < extent) : all.UnitStep extent := ⟨rfl, h⟩

/-- What such an index does: it drops the axis, or leaves neighbouring positions of it. -/
theorem apply_unitStep {name : String} {dim skipped : Nat} {axis : Axis} {index : Index}
    {kept : Option Axis} (hunit : index.UnitStep axis.extent)
    (h : index.apply name dim axis = .ok (skipped, kept)) :
    (skipped ≤ (axis.extent - 1) * axis.stride ∧ kept = none) ∨
    ∃ count, 0 < count ∧ kept = some ⟨count, axis.stride⟩ ∧
      skipped + (count - 1) * axis.stride ≤ (axis.extent - 1) * axis.stride := by
  cases index with
  | item i =>
    simp only [apply] at h
    split at h
    · rename_i hi
      cases h
      exact Or.inl ⟨Nat.mul_le_mul_right _ (by omega), rfl⟩
    · cases h
  | span start stop step =>
    obtain ⟨hstep, hsome⟩ := hunit
    have hhigh : clamp stop axis.extent axis.extent ≤ axis.extent := clamp_le le_rfl
    simp only [apply, hstep, Int64.toNatClampNeg_one, count_unit, Nat.mul_one] at h
    cases h
    refine Or.inr ⟨_, Nat.sub_pos_of_lt hsome, rfl, ?_⟩
    rw [← Nat.add_mul]
    exact Nat.mul_le_mul_right _ (by omega)

end Index

def Indexable (axes : List Axis) : Prop :=
  ∀ axis ∈ axes, 0 < axis.extent ∧ axis.stride < addressSpace

def UnitSteps (axes : List Axis) (indices : List Index) : Prop :=
  ∀ p ∈ indices.zip (axes.map Axis.extent), p.1.UnitStep p.2

theorem UnitSteps.cons {axis : Axis} {axes : List Axis} {indices : List Index}
    (h : UnitSteps (axis :: axes) indices) (hextent : 0 < axis.extent) :
    (indices.headD .all).UnitStep axis.extent ∧ UnitSteps axes indices.tail := by
  cases indices with
  | nil => exact ⟨Index.unitStep_all hextent, List.forall_mem_nil _⟩
  | cons index indices => exact List.forall_mem_cons.mp h

theorem unitSteps_items (axes : List Axis) (position : List Nat) :
    UnitSteps axes (position.map .item) := by
  intro p hp
  obtain ⟨i, _, hi⟩ := List.mem_map.mp (List.of_mem_zip hp).1
  rw [← hi]
  trivial

/-- What is selected ends no farther behind than what it is selected from. -/
theorem selectAxes_reach {name : String} {dim skipped : Nat} {axes kept : List Axis}
    {indices : List Index} (haxes : Indexable axes) (hunit : UnitSteps axes indices)
    (h : selectAxes name dim axes indices = .ok (skipped, kept)) :
    Indexable kept ∧ skipped + reach kept ≤ reach axes := by
  induction axes generalizing dim skipped kept indices with
  | nil =>
    rw [selectAxes] at h
    cases h
    exact ⟨haxes, le_rfl⟩
  | cons axis axes ih =>
    obtain ⟨haxis, haxes⟩ := List.forall_mem_cons.mp haxes
    obtain ⟨hhead, htail⟩ := hunit.cons haxis.1
    obtain ⟨first, head, more, rest, hfirst, hrest, rfl, rfl⟩ := selectAxes_cons_ok h
    obtain ⟨hkept, hreach⟩ := ih haxes htail hrest
    -- An integer gives its axis up, a slice keeps no more of it than lies behind its start.
    rcases Index.apply_unitStep hhead hfirst with ⟨hle, rfl⟩ | ⟨count, hcount, rfl, hle⟩
    · refine ⟨hkept, ?_⟩
      simp only [Option.toList, List.nil_append, reach]
      omega
    · refine ⟨List.forall_mem_cons.mpr ⟨⟨hcount, haxis.2⟩, hkept⟩, ?_⟩
      simp only [Option.toList, List.singleton_append, reach]
      omega

/-- The checks hold as long as the last position can be reached from the elements skipped so far. -/
theorem selectAxesWithin_eq {name : String} {dim offset : Nat} {axes : List Axis}
    {indices : List Index} (haxes : Indexable axes) (hunit : UnitSteps axes indices)
    (hoffset : offset + reach axes < addressSpace) :
    selectAxesWithin name dim offset axes indices =
      lift ((selectAxes name dim axes indices).map fun found => (offset + found.1, found.2)) := by
  induction axes generalizing dim offset indices with
  | nil => rfl
  | cons axis axes ih =>
    obtain ⟨haxis, haxes⟩ := List.forall_mem_cons.mp haxes
    obtain ⟨hhead, htail⟩ := hunit.cons haxis.1
    rw [selectAxesWithin, selectAxes]
    cases hfirst : (indices.headD .all).apply name dim axis with
    | error fault => rfl
    | ok result =>
      obtain ⟨skipped, kept⟩ := result
      have hskipped : skipped ≤ (axis.extent - 1) * axis.stride := by
        rcases Index.apply_unitStep hhead hfirst with ⟨hle, _⟩ | ⟨_, _, _, hle⟩ <;> omega
      have hkept : keptWithin kept = pure kept.toList := by
        rcases Index.apply_unitStep hhead hfirst with ⟨_, rfl⟩ | ⟨count, _, rfl, _⟩
        · rfl
        · rw [keptWithin, within_of_lt haxis.2]
          rfl
      rw [reach] at hoffset
      rw [lift_ok, pure_bind]
      dsimp only
      rw [within_of_lt (by omega), pure_bind, within_of_lt (by omega), pure_bind, hkept, pure_bind,
        ih haxes htail (by omega)]
      cases selectAxes name (dim + 1) axes indices.tail with
      | error fault => rfl
      | ok result =>
        obtain ⟨more, rest⟩ := result
        exact congrArg (fun total => (pure (total, kept.toList ++ rest) : Bounded _))
          (Nat.add_assoc offset skipped more)

theorem dotWithin_eq {sum : Nat} {ms ns : List Nat} (h : sum + dot ms ns < addressSpace) :
    dotWithin sum ms ns = pure (sum + dot ms ns) := by
  induction ms generalizing sum ns with
  | nil => rfl
  | cons m ms ih =>
    cases ns with
    | nil => rfl
    | cons n ns =>
      rw [dot] at h ⊢
      rw [dotWithin, within_of_lt (by omega), pure_bind, within_of_lt (by omega), pure_bind,
        ih (by omega), Nat.add_assoc]

theorem dot_le_reach {position : List Nat} {axes : List Axis}
    (h : List.Forall₂ (· < ·) position (axes.map Axis.extent)) :
    dot position (axes.map Axis.stride) ≤ reach axes := by
  induction axes generalizing position with
  | nil =>
    cases h
    exact le_rfl
  | cons axis axes ih =>
    rw [List.map_cons] at h
    cases h with
    | @cons i _ position _ hi hrest =>
      have hfirst : i * axis.stride ≤ (axis.extent - 1) * axis.stride :=
        Nat.mul_le_mul_right _ (by omega)
      exact Nat.add_le_add hfirst (ih hrest)

theorem Grid.offset_le_reach {g : Grid} {position : List Nat}
    (h : position ∈ multiIndices g.shape) : g.offset position ≤ reach g.axes :=
  dot_le_reach (mem_multiIndices_iff.mp h)

theorem Grid.select_of_inside {g : Grid} {indices : List Index} (hrank : indices.length ≤ g.rank)
    (hinside : ∀ p ∈ indices.zip g.shape, p.1.Inside p.2) : ∃ w, g.select indices = .ok w := by
  cases h : g.select indices with
  | ok w => exact ⟨w, rfl⟩
  | error fault =>
    rw [select_error_iff hrank, selectAxes_error_iff] at h
    obtain ⟨k, ⟨index, extent, hindex, hextent, hwrong⟩, _⟩ := h
    have hmem : (index, extent) ∈ indices.zip g.shape :=
      List.mem_of_getElem? (List.getElem?_zip_eq_some.mpr ⟨hindex, hextent⟩)
    exact absurd hwrong (hinside _ hmem).not_wrong

/-- A view whose elements all end by `limit`, and which can be indexed. -/
structure View.EndsBy (v : View) (limit : Nat) : Prop where
  size : 0 < v.elementSize
  axes : Indexable v.axes
  last : v.addr + reach v.axes * v.elementSize + v.elementSize ≤ limit

namespace View.EndsBy

variable {g : Grid} {v w : View} {limit : Nat}

/-- An offset up to that of the last element is small enough to find its address. -/
theorem addressWithin_eq (h : (View.grid g).EndsBy limit) (hlimit : limit < addressSpace)
    {offset : Nat} (hoffset : offset ≤ reach g.axes) :
    offset < addressSpace ∧ g.addressWithin offset = pure (g.addr + offset * g.size) := by
  have hlast : g.addr + reach g.axes * g.size + g.size ≤ limit := h.last
  have hbytes := Nat.mul_le_mul_right g.size hoffset
  have hself := Nat.le_mul_of_pos_right offset (show 0 < g.size from h.size)
  refine ⟨by omega, ?_⟩
  rw [Grid.addressWithin, within_of_lt (by omega), pure_bind, within_of_lt (by omega)]

theorem select (h : (View.grid g).EndsBy limit) {indices : List Index}
    (hunit : UnitSteps g.axes indices) (hselect : g.select indices = .ok w) : w.EndsBy limit := by
  obtain ⟨skipped, haxes, haddr, hsize⟩ := Grid.select_fields hselect
  obtain ⟨hkept, hreach⟩ := selectAxes_reach h.axes hunit haxes
  have hbytes : (skipped + reach w.axes) * g.size ≤ reach g.axes * g.size :=
    Nat.mul_le_mul_right g.size hreach
  refine ⟨hsize ▸ h.size, hkept, ?_⟩
  calc w.addr + reach w.axes * w.elementSize + w.elementSize
      = g.addr + (skipped + reach w.axes) * g.size + g.size := by
        rw [haddr, hsize, Nat.add_assoc g.addr, ← Nat.add_mul]
    _ ≤ g.addr + reach g.axes * g.size + g.size := by omega
    _ ≤ limit := h.last

theorem selectWithin_eq (h : (View.grid g).EndsBy limit) (hlimit : limit < addressSpace)
    {indices : List Index} (hunit : UnitSteps g.axes indices) :
    g.selectWithin indices = lift (g.select indices) := by
  rw [Grid.selectWithin, Grid.select]
  split
  · rfl
  · have hreach := (h.addressWithin_eq hlimit le_rfl).1
    have haxes : Indexable g.axes := h.axes
    rw [selectAxesWithin_eq haxes hunit (by rwa [Nat.zero_add])]
    cases hselect : selectAxes g.name 0 g.axes indices with
    | error fault => rfl
    | ok result =>
      obtain ⟨skipped, axes⟩ := result
      obtain ⟨_, hskipped⟩ := selectAxes_reach haxes hunit hselect
      have haddress := (h.addressWithin_eq hlimit (show 0 + skipped ≤ reach g.axes by omega)).2
      rw [Except.map, lift_ok, pure_bind]
      dsimp only
      rw [haddress, pure_bind, Nat.zero_add]
      rfl

theorem cellAtWithin_eq (h : (View.grid g).EndsBy limit) (hlimit : limit < addressSpace)
    (position : List Nat) : g.cellAtWithin position = lift (g.cellAt position) := by
  rw [Grid.cellAtWithin, Grid.cellAt, h.selectWithin_eq hlimit (unitSteps_items _ _)]
  cases g.select (position.map .item) <;> rfl

theorem elementsWithin_eq (h : (View.grid g).EndsBy limit) (hlimit : limit < addressSpace) :
    g.elementsWithin = pure g.elements := by
  rw [Grid.elementsWithin, Grid.elements]
  split
  · rfl
  · apply mapM_eq_pure
    intro position hposition
    obtain ⟨hsmall, haddress⟩ := h.addressWithin_eq hlimit (Grid.offset_le_reach hposition)
    have hdot : dotWithin 0 position g.strides = pure (g.offset position) := by
      rw [dotWithin_eq (by rwa [Nat.zero_add]), Nat.zero_add]
      rfl
    rw [Grid.elementWithin, hdot, pure_bind, haddress, pure_bind]
    rfl

theorem cell_end (h : v.EndsBy limit) {c : Cell} (hc : c ∈ v.cells) :
    c.addr + c.size ≤ limit := by
  refine le_trans ?_ h.last
  cases v with
  | cell d =>
    rw [List.mem_singleton.mp hc]
    exact Nat.add_le_add_right (Nat.le_add_right _ _) _
  | grid g =>
    rw [cells, Grid.elements_eq_map] at hc
    obtain ⟨position, hposition, rfl⟩ := List.mem_map.mp hc
    have hoffset := Grid.offset_le_reach hposition
    exact Nat.add_le_add_right (Nat.add_le_add_left (Nat.mul_le_mul_right g.size hoffset) _) _

theorem cellAt_end (h : (View.grid g).EndsBy limit) {position : List Nat} {c : Cell}
    (hcell : g.cellAt position = .ok c) : c.addr + c.size ≤ limit := by
  rw [Grid.cellAt] at hcell
  cases hselect : g.select (position.map .item) with
  | error fault =>
    rw [hselect] at hcell
    cases hcell
  | ok w =>
    rw [hselect] at hcell
    cases w with
    | grid w => cases hcell
    | cell d =>
      cases hcell
      exact (h.select (unitSteps_items _ _) hselect).cell_end (List.mem_singleton.mpr rfl)

end View.EndsBy

namespace View

/-- Each list of a chain selects inside the view that those before it have reached. -/
def Narrows (v : View) : List (List Index) → Prop
  | [] => True
  | indices :: path =>
    ∃ g, v = .grid g ∧ indices.length ≤ g.rank ∧ (∀ p ∈ indices.zip g.shape, p.1.Inside p.2) ∧
      ∀ w, g.select indices = .ok w → w.Narrows path

/-- Along a chain that selects inside, a view is reached, by checked arithmetic too. -/
theorem EndsBy.follow {v : View} {limit : Nat} (h : v.EndsBy limit) (hlimit : limit < addressSpace)
    {path : List (List Index)} (hpath : v.Narrows path) :
    ∃ w, v.follow path = .ok w ∧ v.followWithin path = pure w ∧ w.EndsBy limit := by
  induction path generalizing v with
  | nil => exact ⟨v, rfl, rfl, h⟩
  | cons indices path ih =>
    obtain ⟨g, rfl, hrank, hinside, hrest⟩ := hpath
    have hunit : UnitSteps g.axes indices := fun p hp => (hinside p hp).unitStep
    obtain ⟨u, hselect⟩ := Grid.select_of_inside hrank hinside
    obtain ⟨w, hfollow, hwithin, hw⟩ := ih (h.select hunit hselect) (hrest u hselect)
    have hchecked : (View.grid g).selectWithin indices = pure u := by
      rw [View.selectWithin, toGrid, lift_ok, pure_bind, h.selectWithin_eq hlimit hunit, hselect,
        lift_ok]
    refine ⟨w, ?_, ?_, hw⟩
    · rw [View.follow, List.foldlM_cons, show (View.grid g).select indices = .ok u from hselect]
      exact hfollow
    · rw [followWithin, List.foldlM_cons, hchecked, pure_bind]
      exact hwithin

end View

theorem stridesWithin_eq {shape : List Nat} (h : ∀ extent ∈ shape, 0 < extent)
    (hprod : shape.prod < addressSpace) :
    stridesWithin shape = pure (contiguousStrides shape) := by
  fun_induction stridesWithin shape with
  | case1 => rfl
  | case2 extent => rfl
  | case3 first extent rest ih =>
    obtain ⟨hfirst, hrest⟩ := List.forall_mem_cons.mp h
    have hbehind : (extent :: rest).prod < addressSpace := by
      rw [List.prod_cons] at hprod
      exact lt_of_le_of_lt (Nat.le_mul_of_pos_left _ hfirst) hprod
    have hstride : (contiguousStrides (extent :: rest)).headD 1 * extent = (extent :: rest).prod :=
      Nat.mul_comm _ _
    rw [ih hrest hbehind, pure_bind, hstride, within_of_lt hbehind, pure_bind]
    rfl

theorem contiguous_cons {axis : Axis} {axes : List Axis}
    (h : (axis :: axes).map Axis.stride = contiguousStrides ((axis :: axes).map Axis.extent)) :
    axis.stride = (axes.map Axis.extent).prod ∧
      axes.map Axis.stride = contiguousStrides (axes.map Axis.extent) :=
  List.cons.inj h

/-- Without gaps, the last position is the last of all elements. -/
theorem reach_of_contiguous {axes : List Axis}
    (h : axes.map Axis.stride = contiguousStrides (axes.map Axis.extent))
    (hpos : ∀ extent ∈ axes.map Axis.extent, 0 < extent) :
    reach axes + 1 = (axes.map Axis.extent).prod := by
  induction axes with
  | nil => rfl
  | cons axis axes ih =>
    obtain ⟨hstride, hrest⟩ := contiguous_cons h
    obtain ⟨hfirst, hpos⟩ := List.forall_mem_cons.mp hpos
    obtain ⟨count, hcount⟩ : ∃ count, axis.extent = count + 1 := ⟨axis.extent - 1, by omega⟩
    rw [reach, List.map_cons, List.prod_cons, Nat.add_assoc, ih hrest hpos, hstride, hcount,
      Nat.add_sub_cancel, Nat.succ_mul]

theorem stride_le_of_contiguous {axes : List Axis}
    (h : axes.map Axis.stride = contiguousStrides (axes.map Axis.extent))
    (hpos : ∀ extent ∈ axes.map Axis.extent, 0 < extent) :
    ∀ axis ∈ axes, axis.stride ≤ (axes.map Axis.extent).prod := by
  induction axes with
  | nil => exact List.forall_mem_nil _
  | cons axis axes ih =>
    obtain ⟨hstride, hrest⟩ := contiguous_cons h
    obtain ⟨hfirst, hpos⟩ := List.forall_mem_cons.mp hpos
    have hmore : (axes.map Axis.extent).prod ≤ ((axis :: axes).map Axis.extent).prod := by
      rw [List.map_cons, List.prod_cons]
      exact Nat.le_mul_of_pos_left _ hfirst
    refine List.forall_mem_cons.mpr ⟨hstride ▸ hmore, ?_⟩
    intro other hother
    exact (ih hrest hpos other hother).trans hmore

/-- A view without gaps ends where its bytes end. -/
theorem View.RowMajor.endsBy {v : View} (h : v.RowMajor) (hsize : 0 < v.elementSize)
    (hpos : ∀ extent ∈ v.shape, 0 < extent) {bytes : Nat} (hbytes : v.footprint? = some bytes)
    (hroom : v.addr + bytes < addressSpace) : v.EndsBy (v.addr + bytes) := by
  have hrow := v.rowMajor_iff.mp h
  have hcount := footprint?_eq_prod hbytes
  have hprod := Nat.le_mul_of_pos_left v.shape.prod hsize
  refine ⟨hsize, ?_, ?_⟩
  · intro axis haxis
    have hstride : axis.stride ≤ v.shape.prod := stride_le_of_contiguous hrow hpos axis haxis
    exact ⟨hpos _ (List.mem_map_of_mem haxis), by omega⟩
  · have hreach : reach v.axes + 1 = v.shape.prod := reach_of_contiguous hrow hpos
    rw [hcount, ← hreach, Nat.mul_succ, Nat.mul_comm, Nat.add_assoc]

namespace Memory

theorem fresh_shape (m : Memory) (name : String) (size : Nat) (shape : List Nat) :
    (m.fresh name size shape).shape = shape ∧ (m.fresh name size shape).elementSize = size := by
  unfold fresh
  split
  · rename_i hempty
    exact ⟨(List.isEmpty_iff.mp hempty).symm, rfl⟩
  · exact ⟨Grid.shape_contiguous name m.next size shape, rfl⟩

theorem alloc_endsBy {m after : Memory} {name : String} {size : Nat} {shape : List Nat}
    {view : View} (halloc : m.alloc name size shape = .ok (view, after)) (hsize : 0 < size)
    (hextents : ∀ extent ∈ shape, 0 < extent) :
    view.EndsBy after.next ∧ after.next < addressSpace ∧ shape.prod < addressSpace := by
  obtain ⟨_, rfl, bytes, hbytes, hroom, rfl⟩ := alloc_ok halloc
  obtain ⟨hshape, helement⟩ := m.fresh_shape name size shape
  have haddr := m.fresh_addr name size shape
  have hcount := View.footprint?_eq_prod hbytes
  rw [hshape, helement] at hcount
  have hprod := Nat.le_mul_of_pos_left shape.prod hsize
  refine ⟨?_, hroom, by omega⟩
  have hends := (m.fresh_rowMajor name size shape).endsBy (helement.symm ▸ hsize)
    (hshape.symm ▸ hextents) hbytes (haddr.symm ▸ hroom)
  rwa [haddr] at hends

/-- Address arithmetic on allocated memory stays in 64 bits. With a check on every stride, partial
offset, offset in bytes and address, the strides of the allocation come out right, every chain of
index lists that select inside reaches its view, and so do all elements and single cells of that
view. Every element ends by the allocation pointer. -/
theorem allocated_addresses_in_range {m after : Memory} {name : String} {size : Nat}
    {shape : List Nat} {view : View} (halloc : m.alloc name size shape = .ok (view, after))
    (hsize : 1 ≤ size) (hextents : ∀ extent ∈ shape, 1 ≤ extent) :
    after.next < addressSpace ∧ stridesWithin shape = pure (contiguousStrides shape) ∧
    ∀ path, view.Narrows path →
      ∃ w, view.follow path = .ok w ∧ view.followWithin path = pure w ∧
        (∀ axis ∈ w.axes, axis.stride < addressSpace) ∧
        (∀ c ∈ w.cells, c.addr + c.size ≤ after.next) ∧
        ∀ g, w = .grid g →
          g.elementsWithin = pure g.elements ∧
          ∀ position, g.cellAtWithin position = lift (g.cellAt position) ∧
            ∀ c, g.cellAt position = .ok c → c.addr + c.size ≤ after.next := by
  obtain ⟨hends, hlimit, hprod⟩ := alloc_endsBy halloc hsize hextents
  refine ⟨hlimit, stridesWithin_eq hextents hprod, ?_⟩
  intro path hpath
  obtain ⟨w, hfollow, hwithin, hw⟩ := hends.follow hlimit hpath
  refine ⟨w, hfollow, hwithin, fun axis haxis => (hw.axes axis haxis).2, fun c => hw.cell_end, ?_⟩
  rintro g rfl
  exact ⟨hw.elementsWithin_eq hlimit, fun position =>
    ⟨hw.cellAtWithin_eq hlimit position, fun c => hw.cellAt_end⟩⟩

/-- Two rows of three that end at the last address, and of the second row the last two. In a line
of `2 ^ 63` bytes the sum for the last one wraps around, and finds it. -/
theorem last_addresses_in_range :
    (let m := ofSettings { memoryBase := addressSpace - 193 }
    let path := [[Index.item 1], [.span (some (-2)) none none]]
    ∃ view after g,
      m.alloc "m" 32 [2, 3] = .ok (view, after) ∧ after.next = addressSpace - 1 ∧
      view.Narrows path ∧ view.followWithin path = pure (.grid g) ∧
      g.elementsWithin = pure g.elements ∧
      g.elements.map Cell.addr = [addressSpace - 65, addressSpace - 33] ∧
      ∀ c ∈ g.elements, c.addr + c.size ≤ addressSpace - 1) ∧
    let line := [[Index.span (some (-1)) none none]]
    ∃ view after g,
      (ofSettings {}).alloc "line" 1 [2 ^ 63] = .ok (view, after) ∧ view.Narrows line ∧
      view.followWithin line = pure (.grid g) ∧ g.elements.map Cell.addr = [2 ^ 63 - 1] := by
  constructor
  · intro m path
    let view : View := .grid (.contiguous "m" (addressSpace - 193) 32 [2, 3])
    let row : View := .grid ⟨"m[1]", addressSpace - 97, 32, [⟨3, 1⟩]⟩
    let g : Grid := ⟨"m[1][-2:]", addressSpace - 65, 32, [⟨2, 1⟩]⟩
    have halloc : m.alloc "m" 32 [2, 3] =
        .ok (view, m.grow "m" view 192) := by decide +kernel
    have hrow : view.select [.item 1] = .ok row := by decide +kernel
    have hpath : view.Narrows path := by
      refine ⟨_, rfl, by decide, by decide, ?_⟩
      intro w hw
      cases hrow.symm.trans hw
      exact ⟨_, rfl, by decide, by decide, fun _ _ => trivial⟩
    have hreached : view.follow path = .ok (.grid g) := by decide +kernel
    obtain ⟨_, _, hfollow⟩ := allocated_addresses_in_range halloc (by decide) (by decide)
    obtain ⟨w, hw, hwithin, _, hend, helements⟩ := hfollow path hpath
    cases hreached.symm.trans hw
    exact ⟨view, _, g, halloc, rfl, hpath, hwithin, (helements g rfl).1, by decide +kernel, hend⟩
  · intro line
    let view : View := .grid (.contiguous "line" 0 1 [2 ^ 63])
    let g : Grid := ⟨"line[-1:]", 2 ^ 63 - 1, 1, [⟨1, 1⟩]⟩
    have halloc : (ofSettings {}).alloc "line" 1 [2 ^ 63] =
        .ok (view, (ofSettings {}).grow "line" view (2 ^ 63)) := by decide +kernel
    have hpath : view.Narrows line := ⟨_, rfl, by decide, by decide, fun _ _ => trivial⟩
    have hreached : view.follow line = .ok (.grid g) := by decide +kernel
    obtain ⟨_, _, hfollow⟩ := allocated_addresses_in_range halloc (by decide) (by decide)
    obtain ⟨w, hw, hwithin, _⟩ := hfollow line hpath
    cases hreached.symm.trans hw
    exact ⟨view, _, g, halloc, hpath, hwithin, by decide +kernel⟩

end Memory

end Assembler
