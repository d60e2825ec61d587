import Assembler.Proofs.Storage.Numbering
import Assembler.Proofs.Storage.Slicing

/-! Views that are reached from allocated memory. Along any chain of selections the elements rise
through the allocation without meeting, none of them ends behind it, and the bytes of a view can be
counted because those of the allocation could be. -/

namespace Assembler

/-- A view as the allocator hands it out: laid out without gaps, and with its last byte in the
address space. -/
structure View.Allocated (v : View) : Prop where
  rowMajor : v.RowMajor
  room : ∃ bytes, v.footprint? = some bytes ∧ v.addr + bytes < addressSpace

namespace Memory

theorem fresh_allocated {m after : Memory} {name : String} {size : Nat} {shape : List Nat}
    {view : View} (h : m.alloc name size shape = .ok (view, after)) : view.Allocated := by
  obtain ⟨_, rfl, bytes, hbytes, hroom, _⟩ := alloc_ok h
  refine ⟨m.fresh_rowMajor name size shape, bytes, hbytes, ?_⟩
  rw [fresh_addr]
  exact hroom

/-- A cell that is handed back as a grid is one of a single element. -/
theorem single_allocated {c : Cell} (h : (View.cell c).Allocated) :
    (View.grid (.contiguous c.name c.addr c.size [1])).Allocated := by
  obtain ⟨_, bytes, hbytes, hroom⟩ := h
  cases hbytes
  refine ⟨Grid.contiguous_rowMajor _ _ _ _, c.size, ?_, hroom⟩
  have hfits : c.size * 1 < addressSpace := by
    have hend : c.addr + c.size < addressSpace := hroom
    omega
  have hfootprint : bytesFrom c.size [1] = some c.size := by
    rw [bytesFrom_cons, if_pos hfits, Nat.mul_one]
    rfl
  exact hfootprint

theorem answer_allocated {m : Memory} {r : Request} {given : View} (h : m.answer r = .ok given) :
    given.Allocated := by
  cases halloc : m.alloc r.name (r.size m) r.shape with
  | error fault =>
    rw [answer_of_error halloc] at h
    cases h
  | ok result =>
    obtain ⟨view, after⟩ := result
    have hview := fresh_allocated halloc
    cases r with
    | view name size shape =>
      have halloc : m.alloc name size shape = .ok (view, after) := halloc
      simp only [answer, halloc] at h
      cases h
      exact hview
    | cell name =>
      have halloc : m.alloc name m.elementSize [] = .ok (view, after) := halloc
      obtain ⟨_, rfl, _⟩ := alloc_ok halloc
      simp only [answer, allocCell, halloc] at h
      cases h
      exact hview
    | grid name shape =>
      have halloc : m.alloc name m.elementSize shape = .ok (view, after) := halloc
      simp only [answer, allocGrid, halloc] at h
      cases view with
      | cell c =>
        cases h
        exact single_allocated hview
      | grid g =>
        cases h
        exact hview

theorem handed_allocated {m : Memory} {requests : List Request} {v : View}
    (h : v ∈ m.handed requests) : v.Allocated := by
  induction requests generalizing m with
  | nil => exact absurd h List.not_mem_nil
  | cons r rest ih =>
    rw [handed] at h
    cases hanswer : m.answer r with
    | error fault =>
      simp only [hanswer] at h
      exact ih h
    | ok given =>
      simp only [hanswer] at h
      rcases List.mem_cons.mp h with rfl | hlater
      · exact answer_allocated hanswer
      · exact ih hlater

end Memory

/-- A selection has no more bytes than it was selected from, also on the way from the first extent
to the last. -/
theorem selectAxes_bytesFrom {name : String} {dim skipped : Nat} {axes kept : List Axis}
    {indices : List Index} (h : selectAxes name dim axes indices = .ok (skipped, kept))
    {less start bytes : Nat} (hless : less ≤ start)
    (hbytes : bytesFrom start (axes.map Axis.extent) = some bytes) :
    ∃ fewer ≤ bytes, bytesFrom less (kept.map Axis.extent) = some fewer := by
  induction axes generalizing dim skipped kept indices less start with
  | nil =>
    rw [selectAxes] at h
    cases h
    cases hbytes
    exact ⟨less, hless, rfl⟩
  | cons axis axes ih =>
    obtain ⟨first, head, more, rest, hhead, hrest, rfl, rfl⟩ := selectAxes_cons_ok h
    rw [List.map_cons] at hbytes
    obtain ⟨hfits, hbytes⟩ := bytesFrom_cons_eq_some hbytes
    rcases Index.apply_ok hhead with ⟨i, hi, _, rfl⟩ | ⟨low, step, count, hstep, hin, _, rfl⟩
    · have hdropped : less ≤ start * axis.extent :=
        hless.trans (Nat.le_mul_of_pos_right start (by omega))
      exact ih hrest hdropped hbytes
    · have hcount : count ≤ axis.extent := by
        by_contra hmore
        have hlast := hin axis.extent (by omega)
        have hstride := Nat.le_mul_of_pos_right axis.extent hstep
        omega
      have hproduct := Nat.mul_le_mul hless hcount
      obtain ⟨fewer, hfewer, hsome⟩ := ih hrest hproduct hbytes
      refine ⟨fewer, hfewer, ?_⟩
      simp only [Option.toList, List.singleton_append, List.map_cons, bytesFrom_cons]
      rw [if_pos (lt_of_le_of_lt hproduct hfits)]
      exact hsome

namespace View

theorem footprint?_eq_bytesFrom (v : View) : v.footprint? = bytesFrom v.elementSize v.shape := by
  cases v with
  | cell c => rfl
  | grid g => rfl

theorem select_footprint? {v w : View} {indices : List Index} (h : v.select indices = .ok w)
    {bytes : Nat} (hbytes : v.footprint? = some bytes) :
    ∃ fewer ≤ bytes, w.footprint? = some fewer := by
  obtain ⟨g, rfl, hselect⟩ := select_ok h
  obtain ⟨skipped, haxes, _, hsize⟩ := Grid.select_fields hselect
  rw [footprint?_eq_bytesFrom, hsize]
  exact selectAxes_bytesFrom haxes le_rfl hbytes

theorem follow_footprint? {v w : View} {path : List (List Index)} (h : v.follow path = .ok w)
    {bytes : Nat} (hbytes : v.footprint? = some bytes) :
    ∃ fewer ≤ bytes, w.footprint? = some fewer := by
  induction path generalizing v bytes with
  | nil =>
    cases h
    exact ⟨bytes, le_rfl, hbytes⟩
  | cons indices rest ih =>
    rw [follow, List.foldlM_cons] at h
    cases hfirst : v.select indices with
    | error fault =>
      rw [hfirst] at h
      cases h
    | ok u =>
      rw [hfirst] at h
      obtain ⟨some, hsome, hu⟩ := select_footprint? hfirst hbytes
      obtain ⟨fewer, hfewer, hw⟩ := ih h hu
      exact ⟨fewer, hfewer.trans hsome, hw⟩

namespace Allocated

variable {v w : View} {path : List (List Index)}

theorem footprint? (h : v.Allocated) (hpath : v.follow path = .ok w) :
    ∃ bytes < addressSpace, w.footprint? = some bytes := by
  obtain ⟨_, bytes, hbytes, hroom⟩ := h
  obtain ⟨fewer, hfewer, hw⟩ := follow_footprint? hpath hbytes
  exact ⟨fewer, by omega, hw⟩

/-- Each element of a reached view ends where the next one starts, or before. -/
theorem pairwise_addresses (h : v.Allocated) (hpath : v.follow path = .ok w) :
    w.addresses.Pairwise fun a b => a + w.elementSize ≤ b := by
  obtain ⟨hrow, bytes, hbytes, _⟩ := h
  obtain ⟨hsize, hsub⟩ := follow_sublist hpath
  obtain ⟨n, haddresses, _⟩ := hrow.addresses hbytes
  refine List.Pairwise.sublist hsub ?_
  rw [haddresses, hsize, List.pairwise_map]
  refine List.pairwise_lt_range.imp ?_
  intro j k hjk
  have hnext := Nat.mul_le_mul_right v.elementSize (Nat.succ_le_of_lt hjk)
  rw [Nat.succ_mul] at hnext
  omega

theorem cell_end_lt (h : v.Allocated) (hpath : v.follow path = .ok w) {c : Cell}
    (hc : c ∈ w.cells) : c.addr + c.size < addressSpace := by
  obtain ⟨hrow, bytes, hbytes, hroom⟩ := h
  obtain ⟨_, hend⟩ := hrow.cell_within hbytes hpath hc
  rw [footprint_of_footprint? hbytes] at hend
  omega

end Allocated

end View

end Assembler
