import Assembler.Proofs.Segment.Call
import Assembler.Proofs.Storage.Gapless

/-! Regions that are handed to the machine. A copy of input and a halt push the address of a view
and the bytes that its elements have in all, and the machine takes that many bytes from the address
on. They are the bytes of the view exactly when the view has no gaps. -/

namespace Assembler

def Instruction.region (place size : Instruction) : Set Nat :=
  Set.Ico place.immediate.value (place.immediate.value + size.immediate.value)

namespace Segment

/-- Without a size written for them, a copy of input into a view and a halt with it push the same
size and the same place. -/
structure PushesRegion (s : Segment) (v : View) (place size : Instruction) : Prop where
  pushes_addr : place.Pushes (.ofNat v.addr)
  pushes_footprint : size.Pushes (.ofNat v.footprint)
  copyInput : ∀ offset : Word, offset.size ≤ 32 → ∃ source : Instruction, source.Pushes offset ∧
    s.perform (.copyInput (some (.place v)) (some offset) none) =
      ({ s with code := s.code ++ [size, source, place, .plain .callDataCopy] }, .ok none)
  finish : s.perform (.finish (some (.place v)) none) =
    ({ s with code := s.code ++ [size, place, .plain .returnData] }, .ok none)

theorem exists_pushesRegion (s : Segment) {v : View} (haddr : v.addr < addressSpace)
    (hbytes : v.footprint < addressSpace) :
    ∃ place size, s.PushesRegion v place size ∧ place.region size = v.extent := by
  obtain ⟨place, hplace, hpushplace⟩ := Emission.pushNat_pushes haddr
  obtain ⟨size, hsize, hpushsize⟩ := Emission.pushNat_pushes hbytes
  have hdefault : Emission.push ((none : Option Word).getD (.ofNat v.footprint)) =
      ⟨[size], .ok ()⟩ := hpushsize
  refine ⟨place, size, ⟨hplace, hsize, ?_, ?_⟩, ?_⟩
  · intro offset hoffset
    obtain ⟨source, hsource, hpushsource⟩ := Emission.push_pushes hoffset
    refine ⟨source, hsource, ?_⟩
    rw [perform, emission, Emission.copyInput, Emission.copyOperands, hdefault, hpushsource,
      hpushplace]
    rfl
  · rw [perform, emission, Emission.finish, Emission.regionOperands, hdefault, hpushplace]
    rfl
  · rw [Instruction.region, hplace.immediate, hsize.immediate, Word.value_ofNat, Word.value_ofNat]
    rfl

end Segment

theorem Grid.exists_mem_elements {g : Grid} (h : g.isEmpty = false) : ∃ c, c ∈ g.elements := by
  apply List.exists_mem_of_ne_nil
  rw [elements_eq_map]
  intro hnil
  apply zero_notMem_shape h
  exact (multiIndices_eq_nil_iff g.shape).mp (List.map_eq_nil_iff.mp hnil)

theorem Grid.addr_le_of_mem_elements {g : Grid} {c : Cell} (h : c ∈ g.elements) :
    g.addr ≤ c.addr := by
  rw [elements_eq_map] at h
  obtain ⟨position, _, rfl⟩ := List.mem_map.mp h
  exact Nat.le_add_right _ _

namespace View.Allocated

theorem addr_lt {v : View} (h : v.Allocated) {path : List (List Index)} {g : Grid}
    (hpath : v.follow path = .ok (.grid g)) (hnonempty : g.isEmpty = false) :
    g.addr < addressSpace := by
  obtain ⟨c, hc⟩ := Grid.exists_mem_elements hnonempty
  have hfirst := Grid.addr_le_of_mem_elements hc
  have hend := h.cell_end_lt hpath hc
  omega

/-- What is as the allocator hands it out is copied and handed back to the byte. -/
theorem region_eq_bytes {v : View} (h : v.Allocated) (s : Segment) :
    ∃ place size, s.PushesRegion v place size ∧ place.region size = v.bytes := by
  obtain ⟨_, bytes, hbytes, hroom⟩ := id h
  have hfootprint := footprint_of_footprint? hbytes
  rw [← h.extent_eq_bytes]
  exact s.exists_pushesRegion (by omega) (by omega)

end View.Allocated

/-- For every grid with elements that is selected from an allocated one, the region that is pushed
when no size is written is that of its elements exactly if it has no gaps. So it is for what single
positions of the first dimension lead to, and for a run of neighbouring positions there. -/
theorem Memory.region_exact_iff_gapless (s : Settings) (requests : List Request) {a : Grid}
    (ha : .grid a ∈ (ofSettings s).handed requests) (hsize : 0 < a.size) (segment : Segment) :
    (∀ (path : List (List Index)) (v : Grid), (View.grid a).follow path = .ok (.grid v) →
      v.isEmpty = false →
      ∃ place size, segment.PushesRegion (.grid v) place size ∧
        (place.region size = (View.grid v).bytes ↔ Gapless v.axes)) ∧
    (∀ (places : List Nat) (v : View), (View.grid a).descend places = .ok v →
      ∃ place size, segment.PushesRegion v place size ∧ place.region size = v.bytes) ∧
    ∀ (places : List Nat) (g : Grid) (start stop step : Option Int64) (v : Grid),
      (View.grid a).descend places = .ok (.grid g) → step = none ∨ step = some 1 →
      g.slice (.span start stop step) = .ok v →
      ∃ place size, segment.PushesRegion (.grid v) place size ∧
        place.region size = (View.grid v).bytes := by
  have hallocated := handed_allocated ha
  refine ⟨?_, ?_, ?_⟩
  · intro path v hpath hnonempty
    obtain ⟨bytes, hbytes, hfootprint⟩ := hallocated.footprint? hpath
    have hcount : (View.grid v).footprint < addressSpace := by
      rw [View.footprint_of_footprint? hfootprint]
      exact hbytes
    obtain ⟨place, size, hpushes, hregion⟩ :=
      segment.exists_pushesRegion (v := .grid v) (hallocated.addr_lt hpath hnonempty) hcount
    refine ⟨place, size, hpushes, ?_⟩
    have helement : v.size = a.size := (View.follow_sublist hpath).1
    rw [hregion]
    exact hallocated.extent_eq_bytes_iff hpath (helement ▸ hsize) hnonempty
  · intro places v hplaces
    exact (hallocated.descend hplaces).region_eq_bytes segment
  · intro places g start stop step v hplaces hstep hslice
    exact ((hallocated.descend hplaces).slice hstep hslice).region_eq_bytes segment

/-- Of four rows of three elements, the middle column is not what its region holds. The last three
rows are. -/
theorem Memory.region_exact_iff_gapless_of_rows :
    let a := Grid.contiguous "m" 64 32 [4, 3]
    let requests : List Request := [.view "pad" 64 [], .grid "m" [4, 3]]
    let column : Grid := ⟨"m[:,1]", 96, 32, [⟨4, 3⟩]⟩
    let rows : Grid := ⟨"m[-3:]", 160, 32, [⟨3, 3⟩, ⟨3, 1⟩]⟩
    let segment := Segment.empty "main" ⟨0, 4⟩
    .grid a ∈ (ofSettings {}).handed requests ∧ 0 < a.size ∧
    ((View.grid a).follow [[.all, .item 1]] = .ok (.grid column) ∧
      ∃ place size, segment.PushesRegion (.grid column) place size ∧
        place.region size ≠ (View.grid column).bytes) ∧
    (a.slice (.span (some (-3)) none none) = .ok rows ∧
      ∃ place size, segment.PushesRegion (.grid rows) place size ∧
        place.region size = (View.grid rows).bytes) := by
  intro a requests column rows segment
  have ha : .grid a ∈ (ofSettings {}).handed requests := by decide +kernel
  have hsize : 0 < a.size := by decide
  have hcolumn : (View.grid a).follow [[.all, .item 1]] = .ok (.grid column) := by decide +kernel
  have hrows : a.slice (.span (some (-3)) none none) = .ok rows := by decide +kernel
  obtain ⟨hselected, _, hsliced⟩ := region_exact_iff_gapless {} requests ha hsize segment
  obtain ⟨place, size, hpushes, hregion⟩ := hselected _ _ hcolumn (by decide)
  refine ⟨ha, hsize, ⟨hcolumn, place, size, hpushes, ?_⟩, hrows, ?_⟩
  · rw [ne_eq, hregion]
    decide
  · exact hsliced [] a _ _ _ _ rfl (Or.inl rfl) hrows

end Assembler
