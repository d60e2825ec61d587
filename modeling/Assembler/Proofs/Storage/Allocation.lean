import Assembler.Proofs.Storage.Selection
import Assembler.Storage.Memory
import Mathlib.Data.List.Nodup
import Mathlib.Order.CompletePartialOrder
import Mathlib.Order.Interval.Set.Disjoint

/-! Runs of the allocator. Allocations lie side by side from the base on, each grid among them fills
its part without gaps, and so views of different allocations share no byte, however they were
selected. -/

namespace Assembler

/-- The state behind an operation that leaves it alone when it fails. -/
def settle {α σ : Type} (before : σ) : Except Fault (α × σ) → σ
  | .ok (_, after) => after
  | .error _ => before

namespace Memory

inductive Request where
  | view (name : String) (size : Nat) (shape : List Nat)
  | cell (name : String)
  | grid (name : String) (shape : List Nat)
  deriving DecidableEq, Repr

def serve (m : Memory) : Request → Memory
  | .view name size shape => settle m (m.alloc name size shape)
  | .cell name => settle m (m.allocCell name)
  | .grid name shape => settle m (m.allocGrid name shape)

def run (m : Memory) (requests : List Request) : Memory := requests.foldl serve m

/-- A view has no size in the address space, or it does not fit behind the pointer. -/
def NoRoom (m : Memory) (v : View) : Prop :=
  v.footprint? = none ∨ ∃ bytes, v.footprint? = some bytes ∧ addressSpace ≤ m.next + bytes

/-- The names in use decide first, then the room that is left. -/
theorem alloc_cases (m : Memory) (name : String) (size : Nat) (shape : List Nat) :
    (m.contains name = true ∧ m.alloc name size shape = .error (.alreadyAllocated name)) ∨
    (m.contains name = false ∧ m.NoRoom (m.fresh name size shape) ∧
      m.alloc name size shape = .error (.addressOverflow name)) ∨
    (m.contains name = false ∧ ∃ bytes, (m.fresh name size shape).footprint? = some bytes ∧
      m.next + bytes < addressSpace ∧
      m.alloc name size shape =
        .ok (m.fresh name size shape, m.grow name (m.fresh name size shape) bytes)) := by
  cases hname : m.contains name with
  | true => exact Or.inl ⟨rfl, by rw [alloc, if_pos hname]⟩
  | false =>
    refine Or.inr ?_
    have hnew : ¬ m.contains name = true := by simp [hname]
    cases hbytes : (m.fresh name size shape).footprint? with
    | none =>
      refine Or.inl ⟨rfl, Or.inl hbytes, ?_⟩
      rw [alloc, if_neg hnew]
      simp only [hbytes]
    | some bytes =>
      by_cases hroom : m.next + bytes < addressSpace
      · refine Or.inr ⟨rfl, bytes, rfl, hroom, ?_⟩
        rw [alloc, if_neg hnew]
        simp only [hbytes, if_pos hroom]
      · refine Or.inl ⟨rfl, Or.inr ⟨bytes, hbytes, Nat.le_of_not_lt hroom⟩, ?_⟩
        rw [alloc, if_neg hnew]
        simp only [hbytes, if_neg hroom]

theorem alloc_ok {m after : Memory} {name : String} {size : Nat} {shape : List Nat} {view : View}
    (h : m.alloc name size shape = .ok (view, after)) :
    m.contains name = false ∧ view = m.fresh name size shape ∧
      ∃ bytes, view.footprint? = some bytes ∧ m.next + bytes < addressSpace ∧
        after = m.grow name view bytes := by
  rcases m.alloc_cases name size shape with
    ⟨_, hfail⟩ | ⟨_, _, hfail⟩ | ⟨hname, bytes, hbytes, hroom, hok⟩
  · cases h.symm.trans hfail
  · cases h.symm.trans hfail
  · cases h.symm.trans hok
    exact ⟨hname, rfl, bytes, hbytes, hroom, rfl⟩

theorem settle_allocCell (m : Memory) (name : String) :
    settle m (m.allocCell name) = settle m (m.alloc name m.elementSize []) := by
  rw [allocCell]
  cases h : m.alloc name m.elementSize [] with
  | error fault => rfl
  | ok result =>
    obtain ⟨view, after⟩ := result
    obtain ⟨_, rfl, _⟩ := alloc_ok h
    rfl

theorem settle_allocGrid (m : Memory) (name : String) (shape : List Nat) :
    settle m (m.allocGrid name shape) = settle m (m.alloc name m.elementSize shape) := by
  rw [allocGrid]
  cases h : m.alloc name m.elementSize shape with
  | error fault => rfl
  | ok result =>
    obtain ⟨view, after⟩ := result
    cases view <;> rfl

namespace Request

def name : Request → String
  | .view name _ _ => name
  | .cell name => name
  | .grid name _ => name

def shape : Request → List Nat
  | .view _ _ shape => shape
  | .cell _ => []
  | .grid _ shape => shape

def size (m : Memory) : Request → Nat
  | .view _ size _ => size
  | .cell _ => m.elementSize
  | .grid _ _ => m.elementSize

end Request

def answer (m : Memory) : Request → Except Fault View
  | .view name size shape => (m.alloc name size shape).map Prod.fst
  | .cell name => (m.allocCell name).map fun result => .cell result.1
  | .grid name shape => (m.allocGrid name shape).map fun result => .grid result.1

def recorded (m : Memory) (r : Request) : View := m.fresh r.name (r.size m) r.shape

/-- The memory once the allocation behind a request is done. The answer is given the form that was
asked for only afterwards, when a failure could not take the allocation back. -/
def commit (m : Memory) (r : Request) : Memory :=
  settle m (m.alloc r.name (r.size m) r.shape)

theorem serve_eq_commit (m : Memory) (r : Request) : m.serve r = m.commit r := by
  cases r with
  | view name size shape => rfl
  | cell name => exact m.settle_allocCell name
  | grid name shape => exact m.settle_allocGrid name shape

theorem answer_of_error {m : Memory} {r : Request} {fault : Fault}
    (h : m.alloc r.name (r.size m) r.shape = .error fault) : m.answer r = .error fault := by
  cases r with
  | view name size shape =>
    rw [answer, show m.alloc name size shape = .error fault from h]
    rfl
  | cell name =>
    rw [answer, allocCell, show m.alloc name m.elementSize [] = .error fault from h]
    rfl
  | grid name shape =>
    rw [answer, allocGrid, show m.alloc name m.elementSize shape = .error fault from h]
    rfl

theorem answer_of_ok {m after : Memory} {r : Request} {view : View}
    (h : m.alloc r.name (r.size m) r.shape = .ok (view, after)) :
    ∃ given, m.answer r = .ok given := by
  cases r with
  | view name size shape =>
    rw [answer, show m.alloc name size shape = .ok (view, after) from h]
    exact ⟨_, rfl⟩
  | cell name =>
    obtain ⟨_, rfl, _⟩ := alloc_ok h
    refine ⟨m.fresh name m.elementSize [], ?_⟩
    rw [answer, allocCell, show m.alloc name m.elementSize [] = .ok (_, after) from h]
    rfl
  | grid name shape =>
    rw [answer, allocGrid, show m.alloc name m.elementSize shape = .ok (view, after) from h]
    cases view with
    | cell c => exact ⟨_, rfl⟩
    | grid g => exact ⟨_, rfl⟩

/-- Everything a request can do. -/
theorem request_cases (m : Memory) (r : Request) :
    (m.contains r.name = true ∧ m.answer r = .error (.alreadyAllocated r.name) ∧
      m.commit r = m) ∨
    (m.contains r.name = false ∧ m.NoRoom (m.recorded r) ∧
      m.answer r = .error (.addressOverflow r.name) ∧ m.commit r = m) ∨
    (m.contains r.name = false ∧ ∃ bytes, (m.recorded r).footprint? = some bytes ∧
      m.next + bytes < addressSpace ∧ (∃ given, m.answer r = .ok given) ∧
      m.commit r = m.grow r.name (m.recorded r) bytes) := by
  rcases m.alloc_cases r.name (r.size m) r.shape with
    ⟨hname, h⟩ | ⟨hname, hover, h⟩ | ⟨hname, bytes, hbytes, hroom, h⟩
  · exact Or.inl ⟨hname, answer_of_error h, by rw [commit, h]; rfl⟩
  · exact Or.inr (Or.inl ⟨hname, hover, answer_of_error h, by rw [commit, h]; rfl⟩)
  · exact Or.inr (Or.inr ⟨hname, bytes, hbytes, hroom, answer_of_ok h, by rw [commit, h]; rfl⟩)

/-- What every request preserves holds after any run. -/
theorem run_preserves {P : Memory → Prop} (hstep : ∀ m r, P m → P (m.serve r)) {m : Memory}
    (h : P m) (requests : List Request) : P (m.run requests) := by
  induction requests generalizing m with
  | nil => exact h
  | cons r rest ih => exact ih (hstep m r h)

end Memory

theorem flatMap_range_mul (count length : Nat) :
    ((List.range count).flatMap fun i => (List.range length).map (i * length + ·)) =
      List.range (count * length) := by
  induction count with
  | zero => simp
  | succ count ih =>
    rw [List.range_succ, List.flatMap_append, ih, List.flatMap_singleton, Nat.succ_mul,
      List.range_add]

/-- Without gaps, the positions in lexicographic order are numbered one by one. -/
theorem map_dot_contiguousStrides (shape : List Nat) :
    (multiIndices shape).map (dot · (contiguousStrides shape)) = List.range shape.prod := by
  induction shape with
  | nil => rfl
  | cons extent rest ih =>
    rw [List.prod_cons, ← flatMap_range_mul, ← ih]
    simp only [multiIndices, contiguousStrides, List.map_flatMap, List.map_map]
    rfl

theorem bytesFrom_cons (size extent : Nat) (shape : List Nat) :
    bytesFrom size (extent :: shape) =
      if size * extent < addressSpace then bytesFrom (size * extent) shape else none := by
  rw [bytesFrom, List.foldlM_cons]
  split <;> rfl

theorem bytesFrom_cons_eq_some {size extent bytes : Nat} {shape : List Nat}
    (h : bytesFrom size (extent :: shape) = some bytes) :
    size * extent < addressSpace ∧ bytesFrom (size * extent) shape = some bytes := by
  rw [bytesFrom_cons] at h
  split at h
  · rename_i hfits
    exact ⟨hfits, h⟩
  · cases h

theorem bytesFrom_eq_mul_prod {size bytes : Nat} {shape : List Nat}
    (h : bytesFrom size shape = some bytes) : bytes = size * shape.prod := by
  induction shape generalizing size with
  | nil =>
    cases h
    simp
  | cons extent rest ih =>
    obtain ⟨_, hrest⟩ := bytesFrom_cons_eq_some h
    rw [ih hrest, List.prod_cons, Nat.mul_assoc]

namespace Grid

def RowMajor (g : Grid) : Prop := g.strides = contiguousStrides g.shape

theorem shape_contiguous (name : String) (addr size : Nat) (shape : List Nat) :
    (contiguous name addr size shape).shape = shape := by
  simp only [Grid.shape, contiguous]
  induction shape with
  | nil => rfl
  | cons extent rest ih => rw [contiguousStrides, List.zipWith_cons_cons, List.map_cons, ih]

theorem strides_contiguous (name : String) (addr size : Nat) (shape : List Nat) :
    (contiguous name addr size shape).strides = contiguousStrides shape := by
  simp only [strides, contiguous]
  induction shape with
  | nil => rfl
  | cons extent rest ih => rw [contiguousStrides, List.zipWith_cons_cons, List.map_cons, ih]

theorem contiguous_rowMajor (name : String) (addr size : Nat) (shape : List Nat) :
    (contiguous name addr size shape).RowMajor := by
  rw [RowMajor, shape_contiguous, strides_contiguous]

theorem RowMajor.addresses {g : Grid} (h : g.RowMajor) :
    g.elements.map Cell.addr = (List.range g.shape.prod).map fun k => g.addr + k * g.size := by
  rw [map_addr_elements, offsets_eq_map_dot, ← map_dot_contiguousStrides, ← h]
  rfl

theorem footprint?_eq {g : Grid} {bytes : Nat} (h : g.footprint? = some bytes) :
    bytes = g.size * g.shape.prod :=
  bytesFrom_eq_mul_prod h

end Grid

namespace View

def RowMajor : View → Prop
  | .cell _ => True
  | .grid g => g.RowMajor

theorem footprint_of_footprint? {v : View} {bytes : Nat} (h : v.footprint? = some bytes) :
    v.footprint = bytes := by
  cases v with
  | cell c => exact Option.some.inj h
  | grid g =>
    change g.footprint?.getD (addressSpace - 1) = bytes
    rw [show g.footprint? = some bytes from h, Option.getD_some]

/-- Every element of a view without gaps lies in the bytes that the view covers. -/
theorem RowMajor.element_within {v : View} (h : v.RowMajor) {bytes : Nat}
    (hbytes : v.footprint? = some bytes) {a : Nat} (ha : a ∈ v.addresses) :
    v.addr ≤ a ∧ a + v.elementSize ≤ v.addr + bytes := by
  cases v with
  | cell c =>
    cases List.mem_singleton.mp ha
    cases hbytes
    exact ⟨le_rfl, le_rfl⟩
  | grid g =>
    change a ∈ g.elements.map Cell.addr at ha
    rw [Grid.RowMajor.addresses h] at ha
    obtain ⟨k, hk, rfl⟩ := List.mem_map.mp ha
    have hlast := Nat.mul_le_mul_right g.size (Nat.succ_le_of_lt (List.mem_range.mp hk))
    rw [Nat.succ_mul] at hlast
    rw [Grid.footprint?_eq hbytes, Nat.mul_comm g.size]
    change g.addr ≤ g.addr + k * g.size ∧ g.addr + k * g.size + g.size ≤ _
    dsimp only [View.addr]
    omega

theorem RowMajor.cell_within {v w : View} (h : v.RowMajor) {bytes : Nat}
    (hbytes : v.footprint? = some bytes) {path : List (List Index)}
    (hpath : v.follow path = .ok w) {c : Cell} (hc : c ∈ w.cells) :
    v.addr ≤ c.addr ∧ c.addr + c.size ≤ v.addr + v.footprint := by
  obtain ⟨hsize, hsub⟩ := follow_sublist hpath
  have hmem : c.addr ∈ v.addresses := hsub.subset (List.mem_map_of_mem hc)
  rw [size_of_mem_cells hc, hsize, footprint_of_footprint? hbytes]
  exact h.element_within hbytes hmem

end View

/-- Views stand side by side, the first at `start` and the last up to `stop`. -/
def Tiles (start : Nat) : List View → Nat → Prop
  | [], stop => start = stop
  | v :: rest, stop =>
    v.addr = start ∧ ∃ bytes, v.footprint? = some bytes ∧ Tiles (start + bytes) rest stop

namespace Tiles

theorem append {start stop bytes : Nat} {views : List View} {v : View}
    (h : Tiles start views stop) (haddr : v.addr = stop) (hbytes : v.footprint? = some bytes) :
    Tiles start (views ++ [v]) (stop + bytes) := by
  induction views generalizing start with
  | nil =>
    cases h
    exact ⟨haddr, bytes, hbytes, rfl⟩
  | cons u rest ih =>
    obtain ⟨hu, size, hsize, hrest⟩ := h
    exact ⟨hu, size, hsize, ih hrest⟩

theorem footprint_of_mem {start stop : Nat} {views : List View} (h : Tiles start views stop)
    {v : View} (hv : v ∈ views) : start ≤ v.addr ∧ ∃ bytes, v.footprint? = some bytes := by
  induction views generalizing start with
  | nil => cases hv
  | cons u rest ih =>
    obtain ⟨hu, bytes, hbytes, hrest⟩ := h
    rcases List.mem_cons.mp hv with rfl | hv
    · exact ⟨le_of_eq hu.symm, bytes, hbytes⟩
    · obtain ⟨hstart, hsome⟩ := ih hrest hv
      exact ⟨by omega, hsome⟩

theorem apart {start stop : Nat} {views : List View} (h : Tiles start views stop) {a b : View}
    (ha : a ∈ views) (hb : b ∈ views) (hne : a ≠ b) :
    a.addr + a.footprint ≤ b.addr ∨ b.addr + b.footprint ≤ a.addr := by
  induction views generalizing start with
  | nil => cases ha
  | cons u rest ih =>
    obtain ⟨hu, bytes, hbytes, hrest⟩ := h
    have hend : u.addr + u.footprint = start + bytes := by
      rw [hu, View.footprint_of_footprint? hbytes]
    rcases List.mem_cons.mp ha with rfl | hma
    · rcases List.mem_cons.mp hb with rfl | hmb
      · exact absurd rfl hne
      · exact Or.inl (hend ▸ (hrest.footprint_of_mem hmb).1)
    · rcases List.mem_cons.mp hb with rfl | hmb
      · exact Or.inr (hend ▸ (hrest.footprint_of_mem hma).1)
      · exact ih hrest hma hmb

end Tiles

namespace Memory

/-- The index leads every name to the view of that name, and to nothing else. -/
def Indexes (m : Memory) : Prop :=
  ∀ (name : String) (i : Nat), m.index.lookup name = some i ↔
    ∃ v, m.views[i]? = some v ∧ v.name = name

namespace Indexes

variable {m : Memory}

theorem find?_eq_some_iff (h : m.Indexes) (name : String) (v : View) :
    m.find? name = some v ↔ v ∈ m.views ∧ v.name = name := by
  rw [find?, Option.bind_eq_some_iff]
  constructor
  · rintro ⟨i, hi, hv⟩
    obtain ⟨u, hu, hname⟩ := (h name i).mp hi
    cases hu.symm.trans hv
    exact ⟨List.mem_of_getElem? hv, hname⟩
  · rintro ⟨hmem, hname⟩
    obtain ⟨i, hi⟩ := List.getElem?_of_mem hmem
    exact ⟨i, (h name i).mpr ⟨v, hi, hname⟩, hi⟩

theorem contains_iff (h : m.Indexes) (name : String) :
    m.contains name = true ↔ name ∈ m.views.map View.name := by
  rw [contains, Option.isSome_iff_exists, List.mem_map]
  constructor
  · rintro ⟨i, hi⟩
    obtain ⟨v, hv, hname⟩ := (h name i).mp hi
    exact ⟨v, List.mem_of_getElem? hv, hname⟩
  · rintro ⟨v, hmem, hname⟩
    obtain ⟨i, hi⟩ := List.getElem?_of_mem hmem
    exact ⟨i, (h name i).mpr ⟨v, hi, hname⟩⟩

/-- One name cannot lead to two views. -/
theorem nodup (h : m.Indexes) : (m.views.map View.name).Nodup := by
  rw [List.nodup_iff_getElem?_ne_getElem?]
  intro i j hlt hj hsame
  rw [List.length_map] at hj
  have hv := List.getElem?_eq_getElem hj
  rw [List.getElem?_map, List.getElem?_map, hv, Option.map_some] at hsame
  obtain ⟨u, hu, hname⟩ := Option.map_eq_some_iff.mp hsame
  have hfirst := (h _ i).mpr ⟨u, hu, hname⟩
  have hsecond := (h _ j).mpr ⟨_, hv, rfl⟩
  cases hfirst.symm.trans hsecond
  exact lt_irrefl i hlt

/-- A new name is entered with the position that its view is given. -/
theorem grow (h : m.Indexes) {name : String} {view : View} (hname : view.name = name)
    (hnew : m.contains name = false) (bytes : Nat) : (m.grow name view bytes).Indexes := by
  intro other i
  have hnone : m.index.lookup name = none := by
    rwa [contains, Option.isSome_eq_false_iff, Option.isNone_iff_eq_none] at hnew
  rw [Memory.grow, List.lookup_cons]
  rcases Nat.lt_trichotomy i m.views.length with hlt | rfl | hgt
  · rw [List.getElem?_append_left hlt, ← h other i]
    by_cases hother : other = name
    · subst other
      simp [hnone, Nat.ne_of_gt hlt]
    · simp [beq_eq_false_iff_ne.mpr hother]
  · rw [List.getElem?_concat_length]
    by_cases hother : other = name
    · simp [hother, hname]
    · have hbehind : ¬ m.index.lookup other = some m.views.length := by
        rw [h, List.getElem?_eq_none le_rfl]
        simp
      simp [beq_eq_false_iff_ne.mpr hother, hbehind, hname, Ne.symm hother]
  · have hout : (m.views ++ [view])[i]? = none := by
      rw [List.getElem?_eq_none_iff, List.length_append]
      exact hgt
    by_cases hother : other = name
    · simp [hother, hout, Nat.ne_of_lt hgt]
    · have hbehind : ¬ m.index.lookup other = some i := by
        rw [h, List.getElem?_eq_none (Nat.le_of_lt hgt)]
        simp
      simp [beq_eq_false_iff_ne.mpr hother, hbehind, hout]

end Indexes

structure Invariant (m : Memory) : Prop where
  tiles : Tiles m.base m.views m.next
  rowMajor : ∀ v ∈ m.views, v.RowMajor
  indexes : m.Indexes

theorem fresh_addr (m : Memory) (name : String) (size : Nat) (shape : List Nat) :
    (m.fresh name size shape).addr = m.next := by
  unfold fresh
  split <;> rfl

theorem fresh_rowMajor (m : Memory) (name : String) (size : Nat) (shape : List Nat) :
    (m.fresh name size shape).RowMajor := by
  unfold fresh
  split
  · trivial
  · exact Grid.contiguous_rowMajor _ _ _ _

theorem ofSettings_invariant (s : Settings) : (ofSettings s).Invariant :=
  ⟨rfl, fun _ hv => absurd hv List.not_mem_nil, by simp [Indexes, ofSettings]⟩

theorem recorded_name (m : Memory) (r : Request) : (m.recorded r).name = r.name := by
  unfold recorded fresh
  split <;> rfl

theorem serve_preserves_invariant (m : Memory) (r : Request) (h : m.Invariant) :
    (m.serve r).Invariant := by
  rw [serve_eq_commit]
  rcases m.request_cases r with
    ⟨_, _, hsame⟩ | ⟨_, _, _, hsame⟩ | ⟨hname, bytes, hbytes, _, _, hnext⟩
  · rw [hsame]
    exact h
  · rw [hsame]
    exact h
  · rw [hnext]
    refine ⟨h.tiles.append (m.fresh_addr _ _ _) hbytes, ?_,
      h.indexes.grow (m.recorded_name r) hname bytes⟩
    intro v hv
    rcases List.mem_append.mp hv with hold | hfresh
    · exact h.rowMajor v hold
    · rw [List.mem_singleton.mp hfresh]
      exact m.fresh_rowMajor _ _ _

theorem run_preserves_invariant {m : Memory} (h : m.Invariant) (requests : List Request) :
    (m.run requests).Invariant :=
  run_preserves serve_preserves_invariant h requests

end Memory

def Cell.extent (c : Cell) : Set Nat := Set.Ico c.addr (c.addr + c.size)

def View.extent (v : View) : Set Nat := Set.Ico v.addr (v.addr + v.footprint)

def View.bytes (v : View) : Set Nat := {b | ∃ c ∈ v.cells, b ∈ c.extent}

theorem View.mem_bytes_iff {v : View} {b : Nat} :
    b ∈ v.bytes ↔ ∃ a ∈ v.addresses, b ∈ Set.Ico a (a + v.elementSize) := by
  constructor
  · rintro ⟨c, hc, hb⟩
    refine ⟨c.addr, List.mem_map_of_mem hc, ?_⟩
    rw [← size_of_mem_cells hc]
    exact hb
  · rintro ⟨a, ha, hb⟩
    obtain ⟨c, hc, rfl⟩ := List.mem_map.mp ha
    refine ⟨c, hc, ?_⟩
    rw [← size_of_mem_cells hc] at hb
    exact hb

/-- A view whose elements follow each other covers just their bytes. -/
theorem View.bytes_of_row {v : View} {n : Nat}
    (h : v.addresses = (List.range n).map fun k => v.addr + k * v.elementSize) :
    v.bytes = Set.Ico v.addr (v.addr + n * v.elementSize) := by
  ext b
  rw [mem_bytes_iff, h]
  constructor
  · rintro ⟨a, ha, hlow, hhigh⟩
    obtain ⟨k, hk, rfl⟩ := List.mem_map.mp ha
    have hlast := Nat.mul_le_mul_right v.elementSize (Nat.succ_le_of_lt (List.mem_range.mp hk))
    rw [Nat.succ_mul] at hlast
    exact ⟨by omega, by omega⟩
  · rintro ⟨hlow, hhigh⟩
    -- The byte belongs to the element that counts as many whole elements before it.
    have hinside : b - v.addr < v.elementSize * n := by
      rw [Nat.mul_comm]
      omega
    have hpos : 0 < v.elementSize := Nat.pos_of_mul_pos_right (Nat.zero_lt_of_lt hinside)
    have hk := Nat.div_lt_of_lt_mul hinside
    have hdiv := Nat.div_add_mod (b - v.addr) v.elementSize
    have hmod := Nat.mod_lt (b - v.addr) hpos
    refine ⟨_, List.mem_map_of_mem (List.mem_range.mpr hk), ?_⟩
    rw [Set.mem_Ico, Nat.mul_comm ((b - v.addr) / v.elementSize)]
    omega

/-- Views of different allocations never meet. After any requests, whatever is selected from two
allocations of different names, the elements stay inside their own allocation and share no byte. -/
theorem Memory.selections_apart (s : Settings) (requests : List Request) {m n : String}
    (hne : m ≠ n) {a b v w : View} {path path' : List (List Index)}
    (ha : ((ofSettings s).run requests).find? m = some a)
    (hb : ((ofSettings s).run requests).find? n = some b)
    (hv : a.follow path = .ok v) (hw : b.follow path' = .ok w) :
    (∀ c ∈ v.cells, ∀ d ∈ w.cells, Disjoint c.extent d.extent) ∧
    (∀ c ∈ v.cells, c.extent ⊆ a.extent) ∧ (∀ d ∈ w.cells, d.extent ⊆ b.extent) := by
  have hinv := run_preserves_invariant (ofSettings_invariant s) requests
  obtain ⟨hma, hna⟩ := (hinv.indexes.find?_eq_some_iff m a).mp ha
  obtain ⟨hmb, hnb⟩ := (hinv.indexes.find?_eq_some_iff n b).mp hb
  have hab : a ≠ b := by
    rintro rfl
    exact hne (hna.symm.trans hnb)
  obtain ⟨_, abytes, habytes⟩ := hinv.tiles.footprint_of_mem hma
  obtain ⟨_, bbytes, hbbytes⟩ := hinv.tiles.footprint_of_mem hmb
  have hin : ∀ c ∈ v.cells, a.addr ≤ c.addr ∧ c.addr + c.size ≤ a.addr + a.footprint :=
    fun c hc => (hinv.rowMajor a hma).cell_within habytes hv hc
  have hin' : ∀ d ∈ w.cells, b.addr ≤ d.addr ∧ d.addr + d.size ≤ b.addr + b.footprint :=
    fun d hd => (hinv.rowMajor b hmb).cell_within hbbytes hw hd
  refine ⟨?_, ?_, ?_⟩
  · intro c hc d hd
    have hc := hin c hc
    have hd := hin' d hd
    rw [Cell.extent, Cell.extent, Set.Ico_disjoint_Ico]
    rcases hinv.tiles.apart hma hmb hab with h | h <;> omega
  · intro c hc
    exact Set.Ico_subset_Ico (hin c hc).1 (hin c hc).2
  · intro d hd
    exact Set.Ico_subset_Ico (hin' d hd).1 (hin' d hd).2

/-- Two grids cut from both ends; a third request fails. -/
theorem Memory.selections_apart_two_grids :
    let memory := (ofSettings {}).run [.grid "a" [2, 3], .grid "b" [4], .cell "a"]
    let v : View := .grid ⟨"a[1][-2:]", 128, 32, [⟨2, 1⟩]⟩
    let w : View := .grid ⟨"b[::3]", 192, 32, [⟨2, 3⟩]⟩
    memory.find? "a" = some (.grid (.contiguous "a" 0 32 [2, 3])) ∧
    memory.find? "b" = some (.grid (.contiguous "b" 192 32 [4])) ∧
    (v.cells.map Cell.addr = [128, 160] ∧ w.cells.map Cell.addr = [192, 288]) ∧
    ∀ c ∈ v.cells, ∀ d ∈ w.cells, Disjoint c.extent d.extent := by
  refine ⟨by decide +kernel, by decide +kernel, by decide +kernel, ?_⟩
  exact (selections_apart {} [.grid "a" [2, 3], .grid "b" [4], .cell "a"]
    (show "a" ≠ "b" by decide) (by decide +kernel) (by decide +kernel)
    (show (View.grid (.contiguous "a" 0 32 [2, 3])).follow
        [[.item 1], [.span (some (-2)) none none]] = .ok _ by decide +kernel)
    (show (View.grid (.contiguous "b" 192 32 [4])).follow
        [[.span none none (some 3)]] = .ok _ by decide +kernel)).1

end Assembler
