import Assembler.Proofs.Storage.Allocation
import Mathlib.Data.List.Forall2

/-! The elements of a grid as dials show them that turn like those of an odometer. Every position
comes up once, in lexicographic order, and the element shown there is the one that full indexing
gives. -/

namespace Assembler

namespace Dials

/-- Turns the dials before `dim` on by one, the last of them first. A dial that has gone round goes
back to zero and takes the dial before it along. -/
def carry (shape : List Nat) : Nat → List Nat → Option (List Nat)
  | 0, _ => none
  | dim + 1, position =>
    let turned := position.getD dim 0 + 1
    if turned < shape.getD dim 0 then some (position.set dim turned)
    else carry shape dim (position.set dim 0)

def advance (shape position : List Nat) : Option (List Nat) := carry shape shape.length position

/-- What is read off the dials from a position on, until all of them have gone round. -/
inductive Shows {α : Type} (read : List Nat → α) (shape : List Nat) : List Nat → List α → Prop
  | last {position : List Nat} (h : advance shape position = none) :
      Shows read shape position [read position]
  | next {position following : List Nat} {shown : List α}
      (h : advance shape position = some following) (rest : Shows read shape following shown) :
      Shows read shape position (read position :: shown)

theorem Shows.unique {α : Type} {read : List Nat → α} {shape position : List Nat}
    {shown shown' : List α} (h : Shows read shape position shown)
    (h' : Shows read shape position shown') : shown = shown' := by
  induction h generalizing shown' with
  | last hlast =>
    cases h' with
    | last => rfl
    | next hnext => cases hlast.symm.trans hnext
  | next hnext _ ih =>
    cases h' with
    | last hlast => cases hlast.symm.trans hnext
    | next hsame hrest =>
      cases hnext.symm.trans hsame
      rw [ih hrest]

def rewind : Nat → List Nat → List Nat
  | 0, position => position
  | dim + 1, position => rewind dim (position.set dim 0)

theorem rewind_eq {dim : Nat} {position : List Nat} (h : dim ≤ position.length) :
    rewind dim position = List.replicate dim 0 ++ position.drop dim := by
  induction dim generalizing position with
  | zero => rfl
  | succ dim ih =>
    rw [rewind, ih (by rw [List.length_set]; omega), List.replicate_succ', List.append_assoc]
    have hdrop : (position.set dim 0).drop dim = 0 :: position.drop (dim + 1) := by
      rw [List.drop_eq_getElem_cons (by rw [List.length_set]; omega), List.getElem_set_self,
        List.drop_set_of_lt (Nat.lt_succ_self dim)]
    rw [hdrop]
    rfl

theorem carry_of_lt {shape position : List Nat} {dim : Nat}
    (h : position.getD dim 0 + 1 < shape.getD dim 0) :
    carry shape (dim + 1) position = some (position.set dim (position.getD dim 0 + 1)) := if_pos h

theorem carry_of_not_lt {shape position : List Nat} {dim : Nat}
    (h : ¬ position.getD dim 0 + 1 < shape.getD dim 0) :
    carry shape (dim + 1) position = carry shape dim (position.set dim 0) := if_neg h

/-- A dial put in front moves only when all behind it have gone round. -/
theorem carry_cons (extent i dim : Nat) (shape position : List Nat) :
    carry (extent :: shape) (dim + 1) (i :: position) =
      match carry shape dim position with
      | some following => some (i :: following)
      | none => if i + 1 < extent then some ((i + 1) :: rewind dim position) else none := by
  induction dim generalizing position with
  | zero => rfl
  | succ dim ih =>
    by_cases h : position.getD dim 0 + 1 < shape.getD dim 0
    · have hfront : (i :: position).getD (dim + 1) 0 + 1 < (extent :: shape).getD (dim + 1) 0 := h
      rw [carry_of_lt h, carry_of_lt hfront]
      rfl
    · have hfront : ¬ (i :: position).getD (dim + 1) 0 + 1 < (extent :: shape).getD (dim + 1) 0 := h
      rw [carry_of_not_lt h, carry_of_not_lt hfront, List.set_cons_succ, ih, rewind]

theorem advance_cons {shape position : List Nat} (h : position.length = shape.length)
    (extent i : Nat) :
    advance (extent :: shape) (i :: position) =
      match advance shape position with
      | some following => some (i :: following)
      | none =>
        if i + 1 < extent then some ((i + 1) :: List.replicate shape.length 0) else none := by
  rw [advance, List.length_cons, carry_cons, rewind_eq (le_of_eq h.symm), ← h, List.drop_length,
    List.append_nil, h]
  rfl

theorem length_of_carry {shape position following : List Nat} {dim : Nat}
    (h : carry shape dim position = some following) : following.length = position.length := by
  induction dim generalizing position with
  | zero => cases h
  | succ dim ih =>
    by_cases hturn : position.getD dim 0 + 1 < shape.getD dim 0
    · rw [carry_of_lt hturn] at h
      cases h
      exact List.length_set
    · rw [carry_of_not_lt hturn] at h
      rw [ih h, List.length_set]

variable {α : Type} {read : List Nat → α} {shape : List Nat}

theorem Shows.block {extent i : Nat} {position : List Nat} {shown more : List α}
    (h : Shows (fun p => read (i :: p)) shape position shown)
    (hlen : position.length = shape.length)
    (hmore : i + 1 < extent →
      Shows read (extent :: shape) ((i + 1) :: List.replicate shape.length 0) more)
    (hend : ¬ i + 1 < extent → more = []) :
    Shows read (extent :: shape) (i :: position) (shown ++ more) := by
  induction h with
  | last hlast =>
    have hstep := advance_cons hlen extent i
    rw [hlast] at hstep
    by_cases hi : i + 1 < extent
    · rw [if_pos hi] at hstep
      exact .next hstep (hmore hi)
    · rw [if_neg hi] at hstep
      rw [hend hi]
      exact .last hstep
  | next hnext _ ih =>
    have hstep := advance_cons hlen extent i
    rw [hnext] at hstep
    exact .next hstep (ih ((length_of_carry hnext).trans hlen))

/-- The first dial goes on from `start` to its end, and the others go round at each step. -/
theorem Shows.blocks {extent start count : Nat} {positions : List (List Nat)}
    (hround : ∀ i, Shows (fun p => read (i :: p)) shape (List.replicate shape.length 0)
      (positions.map fun p => read (i :: p)))
    (hstart : start + (count + 1) = extent) :
    Shows read (extent :: shape) (start :: List.replicate shape.length 0)
      ((List.range' start (count + 1)).flatMap fun i => positions.map fun p => read (i :: p)) := by
  induction count generalizing start with
  | zero =>
    rw [List.range'_one, List.flatMap_singleton, ← List.append_nil (positions.map _)]
    apply (hround start).block List.length_replicate
    · intro hnext
      omega
    · intro _
      rfl
  | succ count ih =>
    rw [List.range'_succ, List.flatMap_cons]
    apply (hround start).block List.length_replicate
    · intro _
      exact ih (by omega)
    · intro hlast
      omega

/-- From zeros on the dials show all positions, if each of them can stand at zero. -/
theorem shows_multiIndices (read : List Nat → α) {shape : List Nat} (h : 0 ∉ shape) :
    Shows read shape (List.replicate shape.length 0) ((multiIndices shape).map read) := by
  induction shape generalizing read with
  | nil => exact .last rfl
  | cons extent shape ih =>
    rw [List.mem_cons, not_or] at h
    obtain ⟨count, rfl⟩ : ∃ count, extent = count + 1 := ⟨extent - 1, by omega⟩
    have hblocks :=
      Shows.blocks (fun i => ih (fun p => read (i :: p)) h.2) (Nat.zero_add (count + 1))
    rw [← List.range_eq_range'] at hblocks
    rw [multiIndices, List.map_flatMap, List.length_cons, List.replicate_succ]
    simpa only [List.map_map, Function.comp_def] using hblocks

end Dials

theorem mem_multiIndices_iff {shape position : List Nat} :
    position ∈ multiIndices shape ↔ List.Forall₂ (· < ·) position shape := by
  induction shape generalizing position with
  | nil => simp [multiIndices]
  | cons extent shape ih =>
    simp only [multiIndices, List.mem_flatMap, List.mem_range, List.mem_map, ih,
      List.forall₂_cons_right_iff]
    constructor
    · rintro ⟨i, hi, rest, hrest, rfl⟩
      exact ⟨i, rest, hi, hrest, rfl⟩
    · rintro ⟨i, rest, hi, hrest, rfl⟩
      exact ⟨i, hi, rest, hrest, rfl⟩

theorem multiIndices_lexicographic (shape : List Nat) :
    (multiIndices shape).Pairwise (List.Lex (· < ·)) := by
  induction shape with
  | nil => exact List.pairwise_singleton _ _
  | cons extent shape ih =>
    rw [multiIndices, List.pairwise_flatMap]
    constructor
    · intro i _
      rw [List.pairwise_map]
      exact ih.imp fun hlt => .cons hlt
    · apply List.pairwise_lt_range.imp
      intro i j hij p hp q hq
      obtain ⟨_, _, rfl⟩ := List.mem_map.mp hp
      obtain ⟨_, _, rfl⟩ := List.mem_map.mp hq
      exact .rel hij

theorem selectAxes_items {position : List Nat} {axes : List Axis}
    (h : List.Forall₂ (· < ·) position (axes.map Axis.extent)) (name : String) (dim : Nat) :
    selectAxes name dim axes (position.map .item) =
      .ok (dot position (axes.map Axis.stride), []) := by
  induction axes generalizing position dim with
  | nil =>
    cases h
    rfl
  | cons axis axes ih =>
    rw [List.map_cons] at h
    cases h with
    | @cons i _ position _ hi hrest =>
      have hfirst : (Index.item i).apply name dim axis = .ok (i * axis.stride, none) := if_pos hi
      simp only [selectAxes, List.map_cons, List.headD_cons, List.tail_cons, hfirst,
        ih hrest (dim + 1)]
      rfl

namespace Grid

theorem cellAt_eq {g : Grid} {position : List Nat} (h : List.Forall₂ (· < ·) position g.shape) :
    g.cellAt position = .ok (g.element position) := by
  have hrank : ¬ g.rank < (position.map Index.item).length := by
    rw [List.length_map, h.length_eq, Grid.shape, List.length_map]
    exact Nat.lt_irrefl _
  have hname : (position.map Index.item).map Index.text = position.map toString := by
    rw [List.map_map]
    rfl
  have hselect : g.select (position.map .item) = .ok (.cell (g.element position)) := by
    rw [select, if_neg hrank, selectAxes_items h, hname]
    rfl
  rw [cellAt, hselect]
  rfl

/-- The cells that dials over the grid's shape show; none if an extent is zero. -/
def Walks (g : Grid) (cells : List Cell) : Prop :=
  if g.isEmpty then cells = []
  else Dials.Shows g.element g.shape (List.replicate g.rank 0) cells

theorem walks_iff (g : Grid) (cells : List Cell) : g.Walks cells ↔ cells = g.elements := by
  unfold Walks
  split
  · rename_i hempty
    rw [elements, if_pos hempty]
  · rename_i hempty
    have hshape : 0 ∉ g.shape := fun hzero => hempty (g.isEmpty_iff.mpr hzero)
    have hshows := Dials.shows_multiIndices g.element hshape
    have hrank : g.shape.length = g.rank := List.length_map _
    rw [hrank, ← elements_eq_map] at hshows
    constructor
    · intro hcells
      exact hcells.unique hshows
    · rintro rfl
      exact hshows

theorem elements_forall₂_cellAt (g : Grid) :
    List.Forall₂ (fun position c => g.cellAt position = .ok c) (multiIndices g.shape)
      g.elements := by
  rw [elements_eq_map, List.forall₂_map_right_iff, List.forall₂_same]
  intro position hposition
  exact cellAt_eq (mem_multiIndices_iff.mp hposition)

namespace RowMajor

variable {g : Grid}

theorem length_elements (h : g.RowMajor) : g.elements.length = g.shape.prod := by
  have hlen := congrArg List.length h.addresses
  rwa [List.length_map, List.length_map, List.length_range] at hlen

theorem addr_of_getElem? (h : g.RowMajor) {n : Nat} {c : Cell} (hc : g.elements[n]? = some c) :
    c.addr = g.addr + n * g.size := by
  have hn : n < g.shape.prod := h.length_elements ▸ (List.getElem?_eq_some_iff.mp hc).1
  have haddr := congrArg (·[n]?) h.addresses
  simpa [hc, List.getElem?_range hn] using haddr

theorem mem_extent_iff (h : g.RowMajor) (b : Nat) :
    (∃ c ∈ g.elements, b ∈ c.extent) ↔
      b ∈ Set.Ico g.addr (g.addr + g.size * g.elements.length) := by
  have hbytes : (View.grid g).bytes = Set.Ico g.addr (g.addr + g.shape.prod * g.size) :=
    View.bytes_of_row h.addresses
  rw [h.length_elements, Nat.mul_comm, ← hbytes]
  rfl

end RowMajor

/-- The elements of a grid, whatever its shape and strides. The dials come to an end and have then
shown just these; they stand for the positions inside the shape, in lexicographic order, and each
is what indexing with its position gives. Laid out without gaps, they follow each other from the
first address on and leave no byte out. -/
theorem elements_enumerate_positions :
    (∀ g : Grid,
      (∀ cells, g.Walks cells ↔ cells = g.elements) ∧
      ∃ positions : List (List Nat),
        positions.Pairwise (List.Lex (· < ·)) ∧
        (∀ position, position ∈ positions ↔ List.Forall₂ (· < ·) position g.shape) ∧
        List.Forall₂ (fun position c => g.cellAt position = .ok c) positions g.elements) ∧
    ∀ (name : String) (addr size : Nat) (shape : List Nat), shape.prod < addressSpace →
      (contiguous name addr size shape).elements.length =
        (contiguous name addr size shape).len ∧
      (∀ (n : Nat) (c : Cell), (contiguous name addr size shape).elements[n]? = some c →
        c.addr = addr + n * size) ∧
      ∀ b, (∃ c ∈ (contiguous name addr size shape).elements, b ∈ c.extent) ↔
        b ∈ Set.Ico addr (addr + size * (contiguous name addr size shape).len) := by
  constructor
  · intro g
    exact ⟨g.walks_iff, multiIndices g.shape, multiIndices_lexicographic g.shape,
      fun _ => mem_multiIndices_iff, g.elements_forall₂_cellAt⟩
  · intro name addr size shape hshape
    have hrow := contiguous_rowMajor name addr size shape
    have hlen : (contiguous name addr size shape).elements.length =
        (contiguous name addr size shape).len := by
      rw [hrow.length_elements, len_eq, shape_contiguous]
      omega
    refine ⟨hlen, fun n c hc => hrow.addr_of_getElem? hc, fun b => ?_⟩
    rw [← hlen]
    exact hrow.mem_extent_iff b

/-- Two rows of three elements: the last is the sixth, and together they fill 192 bytes. -/
theorem elements_enumerate_two_rows :
    let g := contiguous "m" 64 32 [2, 3]
    [2, 3].prod < addressSpace ∧ g.cellAt [1, 2] = .ok ⟨"m[1,2]", 224, 32⟩ ∧
    g.elements[5]? = some ⟨"m[1,2]", 224, 32⟩ ∧ 224 = 64 + 5 * 32 ∧
    g.elements.length = g.len ∧
    ∀ b, (∃ c ∈ g.elements, b ∈ c.extent) ↔ b ∈ Set.Ico 64 (64 + 32 * g.len) := by
  intro g
  have hprod : [2, 3].prod < addressSpace := by decide
  have hlast : g.elements[5]? = some ⟨"m[1,2]", 224, 32⟩ := by decide +kernel
  obtain ⟨hlen, haddr, hbytes⟩ := elements_enumerate_positions.2 "m" 64 32 [2, 3] hprod
  exact ⟨hprod, by decide +kernel, hlast, haddr 5 _ hlast, hlen, hbytes⟩

end Grid

end Assembler
