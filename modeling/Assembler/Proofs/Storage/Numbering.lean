import Assembler.Proofs.Storage.Accounting

/-! Register slots of allocated elements. When elements are as wide as registers and memory starts
on a register boundary, the slots of all elements are consecutive numbers in the order of
allocation, whatever shapes were asked for and whichever requests failed. -/

namespace Assembler

theorem Registers.slot_of_addr {r : Registers} {c : Cell} {k : Nat} (hwidth : 0 < r.width)
    (haddr : c.addr = r.base + k * r.width) : r.slot c = .ok k := by
  have hbase : ¬ c.addr < r.base := by
    rw [haddr]
    exact Nat.not_lt_of_le (Nat.le_add_right _ _)
  have hoffset : c.addr - r.base = k * r.width := by
    rw [haddr]
    exact Nat.add_sub_cancel_left _ _
  rw [slot, if_neg hbase, if_neg (Nat.ne_of_gt hwidth), hoffset, if_pos (Nat.mul_mod_left _ _),
    Nat.mul_div_cancel _ hwidth]

theorem View.RowMajor.addresses {v : View} (h : v.RowMajor) {bytes : Nat}
    (hbytes : v.footprint? = some bytes) :
    ∃ n, v.addresses = (List.range n).map (fun k => v.addr + k * v.elementSize) ∧
      bytes = n * v.elementSize := by
  cases v with
  | cell c =>
    refine ⟨1, ?_, ?_⟩
    · simp [View.addresses, View.cells, View.addr]
    · rw [Nat.one_mul]
      exact (Option.some.inj hbytes).symm
  | grid g =>
    refine ⟨g.shape.prod, Grid.RowMajor.addresses h, ?_⟩
    rw [Grid.footprint?_eq hbytes, Nat.mul_comm]
    rfl

/-- Views of one element size that stand side by side are one long row of elements. -/
theorem Tiles.addresses {start stop width : Nat} {views : List View} (h : Tiles start views stop)
    (hrow : ∀ v ∈ views, v.RowMajor) (hsize : ∀ v ∈ views, v.elementSize = width) :
    ∃ n, views.flatMap View.addresses = (List.range n).map (fun k => start + k * width) ∧
      stop = start + n * width := by
  induction views generalizing start with
  | nil =>
    refine ⟨0, rfl, ?_⟩
    rw [Nat.zero_mul]
    exact h.symm
  | cons v rest ih =>
    obtain ⟨hstart, bytes, hbytes, hrest⟩ := h
    obtain ⟨hv, hrow⟩ := List.forall_mem_cons.mp hrow
    obtain ⟨hwidth, hsize⟩ := List.forall_mem_cons.mp hsize
    obtain ⟨n, hfirst, hn⟩ := hv.addresses hbytes
    obtain ⟨m, hlater, hstop⟩ := ih hrest hrow hsize
    rw [hwidth] at hfirst hn
    refine ⟨n + m, ?_, ?_⟩
    · rw [List.flatMap_cons, hfirst, hlater, hstart, List.range_add, List.map_append, List.map_map]
      congr 1
      apply List.map_congr_left
      intro k _
      simp only [Function.comp_apply, hn, Nat.add_mul, Nat.add_assoc]
    · rw [hstop, hn, Nat.add_mul, Nat.add_assoc]

namespace Memory

def Request.IsDefault : Request → Prop
  | .view _ _ _ => False
  | .cell _ | .grid _ _ => True

instance : DecidablePred Request.IsDefault
  | .view _ _ _ => isFalse id
  | .cell _ | .grid _ _ => isTrue trivial

def handed (m : Memory) : List Request → List View
  | [] => []
  | r :: rest =>
    match m.answer r with
    | .ok given => given :: (m.serve r).handed rest
    | .error _ => (m.serve r).handed rest

theorem elementSize_recorded (m : Memory) {r : Request} (h : r.IsDefault) :
    (m.recorded r).elementSize = m.elementSize := by
  cases r with
  | view name size shape => exact absurd h id
  | cell name => rfl
  | grid name shape =>
    simp only [recorded, fresh]
    split <;> rfl

theorem elementSize_of_mem_granted {m : Memory} {requests : List Request}
    (h : ∀ r ∈ requests, r.IsDefault) {v : View} (hv : v ∈ m.granted requests) :
    v.elementSize = m.elementSize := by
  induction requests generalizing m with
  | nil => exact absurd hv List.not_mem_nil
  | cons r rest ih =>
    obtain ⟨hr, hrest⟩ := List.forall_mem_cons.mp h
    have hlater : v ∈ (m.serve r).granted rest → v.elementSize = m.elementSize := by
      intro hmem
      rw [ih hrest hmem, serve_keeps (f := Memory.elementSize) fun _ _ _ _ => rfl]
    rw [granted] at hv
    cases hanswer : m.answer r with
    | error fault =>
      simp only [hanswer] at hv
      exact hlater hv
    | ok given =>
      simp only [hanswer] at hv
      rcases List.mem_cons.mp hv with rfl | hmem
      · exact m.elementSize_recorded hr
      · exact hlater hmem

theorem addresses_single (name : String) (addr size : Nat) :
    (View.grid (.contiguous name addr size [1])).addresses = [addr] := by
  have hrow := (Grid.contiguous_rowMajor name addr size [1]).addresses
  rw [Grid.shape_contiguous] at hrow
  rw [View.addresses, View.cells, hrow]
  simp [Grid.contiguous]

/-- A request hands back the elements that it records, up to their names. -/
theorem addresses_of_answer {m : Memory} {r : Request} {given : View}
    (h : m.answer r = .ok given) : given.addresses = (m.recorded r).addresses := by
  cases halloc : m.alloc r.name (r.size m) r.shape with
  | error fault =>
    rw [answer_of_error halloc] at h
    cases h
  | ok result =>
    obtain ⟨view, after⟩ := result
    obtain ⟨_, rfl, _⟩ := alloc_ok halloc
    cases r with
    | view name size shape =>
      rw [answer, show m.alloc name size shape = .ok (_, after) from halloc] at h
      cases h
      rfl
    | cell name =>
      have hcell : m.alloc name m.elementSize [] = .ok (_, after) := halloc
      rw [answer, allocCell, hcell] at h
      cases h
      rfl
    | grid name shape =>
      have hgrid : m.alloc name m.elementSize shape = .ok (_, after) := halloc
      rw [answer, allocGrid, hgrid] at h
      cases shape with
      | nil =>
        cases h
        exact addresses_single _ _ _
      | cons extent rest =>
        cases h
        rfl

theorem addresses_handed (m : Memory) (requests : List Request) :
    (m.handed requests).flatMap View.addresses = (m.granted requests).flatMap View.addresses := by
  induction requests generalizing m with
  | nil => rfl
  | cons r rest ih =>
    rw [handed, granted]
    cases hanswer : m.answer r with
    | error fault =>
      dsimp only
      exact ih (m.serve r)
    | ok given =>
      dsimp only
      rw [List.flatMap_cons, List.flatMap_cons, addresses_of_answer hanswer, ih (m.serve r)]

/-- After requests of the default element size, the elements of all allocations are one row. -/
theorem row_of_granted (s : Settings) {requests : List Request}
    (h : ∀ r ∈ requests, r.IsDefault) :
    ∃ n, ((ofSettings s).granted requests).flatMap View.addresses =
        (List.range n).map (fun k => s.memoryBase + k * s.elementSize) ∧
      ((ofSettings s).run requests).next = s.memoryBase + n * s.elementSize := by
  have hinv := run_preserves_invariant (ofSettings_invariant s) requests
  have hviews : ((ofSettings s).run requests).views = (ofSettings s).granted requests :=
    (ofSettings s).run_views requests
  have htiles := hinv.tiles
  have hrow := hinv.rowMajor
  rw [run_base, hviews] at htiles
  rw [hviews] at hrow
  exact htiles.addresses hrow fun v hv => elementSize_of_mem_granted h hv

theorem slot_of_getElem? {s : Settings} {first : Nat} (hpos : 0 < s.elementSize)
    (hsize : s.elementSize = 8 * s.registerLimbs)
    (hbase : s.memoryBase = s.registerBase + first * s.elementSize) {cells : List Cell} {n : Nat}
    (hcells : cells.map Cell.addr =
      (List.range n).map fun k => s.memoryBase + k * s.elementSize)
    {k : Nat} {c : Cell} (hc : cells[k]? = some c) : s.registers.slot c = .ok (first + k) := by
  have haddr : c.addr = s.memoryBase + k * s.elementSize := by
    have hmap : (cells.map Cell.addr)[k]? = some c.addr := by
      rw [List.getElem?_map, hc, Option.map_some]
    rw [hcells, List.getElem?_map] at hmap
    obtain ⟨j, hj, haddr⟩ := Option.map_eq_some_iff.mp hmap
    obtain ⟨_, rfl⟩ := List.getElem?_eq_some_iff.mp hj
    rw [← haddr, List.getElem_range]
  have hwidth : s.registers.width = s.elementSize := hsize.symm
  apply Registers.slot_of_addr
  · rw [hwidth]
    exact hpos
  · rw [haddr, hbase, hwidth, Nat.add_mul, Nat.add_assoc]
    rfl

/-- Elements as wide as registers are numbered by their slots. After any requests for cells and
grids of the default element size, failing ones among them, the elements handed out so far have the
slots from the first one on, in the order of allocation; so each has a slot, no two share one, and
together they fill what is allocated. The recorded views have the same slots. -/
theorem slots_number_elements (s : Settings) (first : Nat) (hpos : 0 < s.elementSize)
    (hsize : s.elementSize = 8 * s.registerLimbs)
    (hbase : s.memoryBase = s.registerBase + first * s.elementSize) (requests : List Request)
    (h : ∀ r ∈ requests, r.IsDefault) :
    let m := (ofSettings s).run requests
    let cells := ((ofSettings s).handed requests).flatMap View.cells
    (∀ (k : Nat) (c : Cell), cells[k]? = some c → m.slot c = .ok (first + k)) ∧
    (∀ (j k : Nat) (c d : Cell), cells[j]? = some c → cells[k]? = some d →
      m.slot c = m.slot d → j = k) ∧
    m.used = cells.length * s.elementSize ∧
    ∀ (k : Nat) (c : Cell), (m.views.flatMap View.cells)[k]? = some c →
      m.slot c = .ok (first + k) := by
  intro m cells
  obtain ⟨n, hrow, hnext⟩ := row_of_granted s h
  have hregisters : m.registers = s.registers :=
    run_keeps (f := Memory.registers) (fun _ _ _ _ => rfl) _ requests
  have hcells : cells.map Cell.addr =
      (List.range n).map fun k => s.memoryBase + k * s.elementSize := by
    rw [← hrow, ← addresses_handed, List.map_flatMap]
    rfl
  have hslot : ∀ (k : Nat) (c : Cell), cells[k]? = some c → m.slot c = .ok (first + k) := by
    intro k c hc
    rw [slot, hregisters]
    exact slot_of_getElem? hpos hsize hbase hcells hc
  refine ⟨hslot, ?_, ?_, ?_⟩
  · intro j k c d hc hd heq
    rw [hslot j c hc, hslot k d hd] at heq
    have hsum := Except.ok.inj heq
    omega
  · have hlen : cells.length = n := by
      have hlengths := congrArg List.length hcells
      rwa [List.length_map, List.length_map, List.length_range] at hlengths
    have hfirst : m.base = s.memoryBase := run_base _ requests
    rw [used, hfirst, hlen, show m.next = s.memoryBase + n * s.elementSize from hnext]
    exact Nat.add_sub_cancel_left _ _
  · intro k c hc
    have hviews : m.views = (ofSettings s).granted requests := (ofSettings s).run_views requests
    have hrecorded : (m.views.flatMap View.cells).map Cell.addr =
        (List.range n).map fun k => s.memoryBase + k * s.elementSize := by
      rw [hviews, ← hrow, List.map_flatMap]
      rfl
    rw [slot, hregisters]
    exact slot_of_getElem? hpos hsize hbase hrecorded hc

/-- Six-limb registers from slot two on: a grid without elements, one without dimensions and a name
that is taken leave no gap between the cell, the grid and the last element. -/
theorem slots_number_elements_of_six_limbs :
    let s : Settings :=
      { memoryBase := 160, registerBase := 64, registerLimbs := 6, elementSize := 48 }
    let requests : List Request :=
      [.cell "a", .grid "none" [2, 0, 3], .grid "g" [2, 2], .cell "a", .grid "one" []]
    let m := (ofSettings s).run requests
    let cells := ((ofSettings s).handed requests).flatMap View.cells
    cells.map Cell.name = ["a", "g[0,0]", "g[0,1]", "g[1,0]", "g[1,1]", "one[0]"] ∧
    (∀ r ∈ requests, r.IsDefault) ∧
    ∀ (k : Nat) (c : Cell), cells[k]? = some c → m.slot c = .ok (2 + k) := by
  intro s requests m cells
  have hdefault : ∀ r ∈ requests, r.IsDefault := by decide
  exact ⟨by decide +kernel, hdefault,
    (slots_number_elements s 2 (by decide) (by decide) (by decide) requests hdefault).1⟩

end Memory

end Assembler
