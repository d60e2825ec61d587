import Assembler.Proofs.Storage.Elements

/-! Indexing is slicing in its usual sense. Bounds that are negative count from the end and all are
brought into the dimension, a position of what was selected stands for a position of the grid, and
an index list that cannot be taken is refused for its lowest dimension at fault. -/

namespace Assembler

structure Slice where
  start : Nat
  stop : Nat
  step : Nat
  deriving DecidableEq, Repr

def Slice.HasLength (s : Slice) (len : Nat) : Prop := ∀ j, j < len ↔ s.start + j * s.step < s.stop

inductive Choice where
  | single (i : Nat)
  | slice (s : Slice)
  deriving DecidableEq, Repr

def Choice.slice? : Choice → Option Slice
  | .single _ => none
  | .slice s => some s

namespace Index

/-- Where a bound of a slice falls: a negative one has the extent added, and then it is moved into
`0 .. extent`. -/
def bound (extent missing : Nat) : Option Int64 → Nat
  | none => missing
  | some b =>
    (max 0 (min (if b.toInt < 0 then b.toInt + extent else b.toInt) extent)).toNat

def choice (extent : Nat) : Index → Choice
  | .item i => .single i
  | .span start stop step =>
    .slice ⟨bound extent 0 start, bound extent extent stop, (step.getD 1).toNatClampNeg⟩

/-- An index that dimension `dim` cannot take, with its fault. -/
inductive Wrong (name : String) (dim extent : Nat) : Index → Fault → Prop
  | outside {i : Nat} (h : extent ≤ i) :
      Wrong name dim extent (.item i) (.outOfBounds name dim i extent)
  | step {start stop : Option Int64} {step : Int64} (h : step ≤ 0) :
      Wrong name dim extent (.span start stop (some step)) (.invalidStep name dim step.toInt)

end Index

def choices : List Nat → List Index → List Choice
  | [], _ => []
  | extent :: shape, indices => (indices.headD .all).choice extent :: choices shape indices.tail

def slices (shape : List Nat) (indices : List Index) : List Slice :=
  (choices shape indices).filterMap Choice.slice?

/-- The position that a position of the selection stands for. -/
def origin : List Choice → List Nat → List Nat
  | [], _ => []
  | .single i :: rest, position => i :: origin rest position
  | .slice s :: rest, position =>
    (s.start + position.headD 0 * s.step) :: origin rest position.tail

/-- The index of dimension `first + k` is wrong, where `shape` and `indices` are those from
dimension `first` on. -/
def WrongFrom (name : String) (first : Nat) (shape : List Nat) (indices : List Index) (k : Nat)
    (fault : Fault) : Prop :=
  ∃ index extent, indices[k]? = some index ∧ shape[k]? = some extent ∧
    index.Wrong name (first + k) extent fault

namespace Index

theorem clamp_eq_bound {extent : Nat} (h : extent ≤ 0x7fffffffffffffff) (b : Option Int64)
    (missing : Nat) : clamp b missing extent = bound extent missing b := by
  cases b with
  | none => rfl
  | some b =>
    have hlow := b.le_toInt
    rw [clamp_some, bound]
    split
    · have hsum : Int.bmod (extent + b.toInt) addressSpace = extent + b.toInt := by
        unfold addressSpace
        apply Int.bmod_eq_of_le <;> omega
      rw [hsum]
      omega
    · omega

theorem hasLength_count {s : Slice} (h : 0 < s.step) :
    s.HasLength (count s.start s.stop s.step) := by
  intro j
  constructor
  · exact lt_of_lt_count h
  · intro hj
    have hmul : (j + 1) * s.step ≤ s.stop - s.start + (s.step - 1) := by
      rw [Nat.add_mul, Nat.one_mul]
      omega
    exact (Nat.le_div_iff_mul_le h).mpr hmul

theorem apply_error_iff {name : String} {dim : Nat} {axis : Axis} {index : Index} {fault : Fault} :
    index.apply name dim axis = .error fault ↔ index.Wrong name dim axis.extent fault := by
  constructor
  · intro h
    cases index with
    | item i =>
      simp only [apply] at h
      split at h
      · cases h
      · rename_i hi
        cases h
        exact .outside (Nat.le_of_not_lt hi)
    | span start stop step =>
      simp only [apply] at h
      split at h
      · rename_i hstep
        cases h
        cases step with
        | none => exact absurd hstep (by decide)
        | some step => exact .step hstep
      · cases h
  · intro h
    cases h with
    | outside hi => exact if_neg (Nat.not_lt_of_le hi)
    | step hstep => exact if_pos hstep

/-- What an index that can be taken does, by what is asked of the dimension. -/
theorem apply_ok_choice {name : String} {dim skipped : Nat} {axis : Axis} {index : Index}
    {kept : Option Axis} (hextent : axis.extent ≤ 0x7fffffffffffffff)
    (h : index.apply name dim axis = .ok (skipped, kept)) :
    (∃ i, index.choice axis.extent = .single i ∧ i < axis.extent ∧
      skipped = i * axis.stride ∧ kept = none) ∨
    ∃ s len, index.choice axis.extent = .slice s ∧ s.stop ≤ axis.extent ∧ s.HasLength len ∧
      skipped = s.start * axis.stride ∧ kept = some ⟨len, axis.stride * s.step⟩ := by
  cases index with
  | item i =>
    simp only [apply] at h
    split at h
    · rename_i hi
      cases h
      exact Or.inl ⟨i, rfl, hi, rfl, rfl⟩
    · cases h
  | span start stop step =>
    simp only [apply] at h
    split at h
    · cases h
    · rename_i hstep
      cases h
      have hlow := clamp_eq_bound hextent start 0
      have hhigh := clamp_eq_bound hextent stop axis.extent
      refine Or.inr ⟨⟨_, _, _⟩, _, rfl, ?_, hasLength_count ?_, ?_, ?_⟩
      · rw [← hhigh]
        exact clamp_le le_rfl
      · exact toNatClampNeg_pos hstep
      · rw [hlow]
      · rw [hlow, hhigh]

end Index

theorem wrongFrom_zero {name : String} {first extent : Nat} {shape : List Nat} {index : Index}
    {indices : List Index} {fault : Fault} :
    WrongFrom name first (extent :: shape) (index :: indices) 0 fault ↔
      index.Wrong name first extent fault := by
  simp [WrongFrom]

theorem wrongFrom_succ {name : String} {first extent k : Nat} {shape : List Nat} {index : Index}
    {indices : List Index} {fault : Fault} :
    WrongFrom name first (extent :: shape) (index :: indices) (k + 1) fault ↔
      WrongFrom name (first + 1) shape indices k fault := by
  simp only [WrongFrom, List.getElem?_cons_succ, Nat.add_assoc, Nat.add_comm 1 k]

theorem selectAxes_cons_error_iff {name : String} {dim : Nat} {axis : Axis} {axes : List Axis}
    {indices : List Index} {fault : Fault} :
    selectAxes name dim (axis :: axes) indices = .error fault ↔
      (indices.headD .all).apply name dim axis = .error fault ∨
      (∃ result, (indices.headD .all).apply name dim axis = .ok result) ∧
        selectAxes name (dim + 1) axes indices.tail = .error fault := by
  rw [selectAxes]
  cases hhead : (indices.headD .all).apply name dim axis with
  | error other => simp [bind, Except.bind]
  | ok result =>
    cases hrest : selectAxes name (dim + 1) axes indices.tail with
    | error other => simp [bind, Except.bind]
    | ok more => simp [bind, Except.bind, pure, Except.pure]

/-- The lowest dimension at fault decides. -/
theorem selectAxes_error_iff {name : String} {dim : Nat} {axes : List Axis} {indices : List Index}
    {fault : Fault} :
    selectAxes name dim axes indices = .error fault ↔
      ∃ k, WrongFrom name dim (axes.map Axis.extent) indices k fault ∧
        ∀ lower < k, ∀ other, ¬ WrongFrom name dim (axes.map Axis.extent) indices lower other := by
  induction axes generalizing dim indices with
  | nil => simp [selectAxes, WrongFrom]
  | cons axis axes ih =>
    rw [selectAxes_cons_error_iff, List.map_cons]
    cases indices with
    | nil =>
      constructor
      · rintro (hhead | ⟨_, hrest⟩)
        · cases Index.apply_error_iff.mp hhead
        · obtain ⟨k, ⟨_, _, hk, _⟩, _⟩ := ih.mp hrest
          simp at hk
      · rintro ⟨k, ⟨_, _, hk, _⟩, _⟩
        simp at hk
    | cons index indices =>
      rw [List.headD_cons, List.tail_cons]
      constructor
      · rintro (hhead | ⟨⟨result, hhead⟩, hrest⟩)
        · refine ⟨0, wrongFrom_zero.mpr (Index.apply_error_iff.mp hhead), ?_⟩
          intro lower hlower
          omega
        · obtain ⟨k, hk, hlowest⟩ := ih.mp hrest
          refine ⟨k + 1, wrongFrom_succ.mpr hk, ?_⟩
          intro lower hlower other hwrong
          cases lower with
          | zero =>
            have hfails := Index.apply_error_iff.mpr (wrongFrom_zero.mp hwrong)
            cases hhead.symm.trans hfails
          | succ lower => exact hlowest lower (by omega) other (wrongFrom_succ.mp hwrong)
      · rintro ⟨k, hk, hlowest⟩
        cases k with
        | zero => exact Or.inl (Index.apply_error_iff.mpr (wrongFrom_zero.mp hk))
        | succ k =>
          refine Or.inr ⟨?_, ih.mpr ⟨k, wrongFrom_succ.mp hk, ?_⟩⟩
          · cases hhead : index.apply name dim axis with
            | error other =>
              have hwrong := Index.apply_error_iff.mp hhead
              exact absurd (wrongFrom_zero.mpr hwrong) (hlowest 0 (by omega) other)
            | ok result => exact ⟨result, rfl⟩
          · intro lower hlower other hwrong
            exact hlowest (lower + 1) (by omega) other (wrongFrom_succ.mpr hwrong)

/-- Along the axes, each place of the selection is as many elements away as the position that it
stands for. -/
theorem selectAxes_origin {name : String} {dim skipped : Nat} {axes kept : List Axis}
    {indices : List Index} (hextents : ∀ axis ∈ axes, axis.extent ≤ 0x7fffffffffffffff)
    (h : selectAxes name dim axes indices = .ok (skipped, kept)) :
    List.Forall₂ Slice.HasLength (slices (axes.map Axis.extent) indices)
      (kept.map Axis.extent) ∧
    ∀ position, List.Forall₂ (· < ·) position (kept.map Axis.extent) →
      List.Forall₂ (· < ·) (origin (choices (axes.map Axis.extent) indices) position)
        (axes.map Axis.extent) ∧
      skipped + dot position (kept.map Axis.stride) =
        dot (origin (choices (axes.map Axis.extent) indices) position)
          (axes.map Axis.stride) := by
  induction axes generalizing dim skipped kept indices with
  | nil =>
    rw [selectAxes] at h
    cases h
    refine ⟨.nil, ?_⟩
    intro position hposition
    cases hposition
    exact ⟨.nil, rfl⟩
  | cons axis axes ih =>
    obtain ⟨hextent, hextents⟩ := List.forall_mem_cons.mp hextents
    obtain ⟨first, head, more, rest, hhead, hrest, rfl, rfl⟩ := selectAxes_cons_ok h
    obtain ⟨hlengths, horigin⟩ := ih hextents hrest
    simp only [List.map_cons, slices, choices]
    rcases Index.apply_ok_choice hextent hhead with
      ⟨i, hchoice, hi, rfl, rfl⟩ | ⟨s, len, hchoice, hstop, hlen, rfl, rfl⟩
    · simp only [hchoice]
      refine ⟨hlengths, ?_⟩
      intro position hposition
      obtain ⟨hinside, hdot⟩ := horigin position hposition
      refine ⟨.cons hi hinside, ?_⟩
      simp only [origin, dot, Option.toList, List.nil_append]
      omega
    · simp only [hchoice, Option.toList, List.singleton_append, List.map_cons]
      refine ⟨.cons hlen hlengths, ?_⟩
      intro position hposition
      cases hposition with
      | @cons j _ position _ hj hposition =>
        obtain ⟨hinside, hdot⟩ := horigin position hposition
        have hplace := (hlen j).mp hj
        refine ⟨.cons (lt_of_lt_of_le hplace hstop) hinside, ?_⟩
        simp only [origin, dot, List.headD_cons, List.tail_cons, ← hdot]
        ring

namespace View

def axes : View → List Axis
  | .cell _ => []
  | .grid g => g.axes

def shape (v : View) : List Nat := v.axes.map Axis.extent

def cellAt? : View → List Nat → Option Cell
  | .cell c, position => if position = [] then some c else none
  | .grid g, position => (g.cellAt position).toOption

theorem cellAt?_of_inside {v : View} {position : List Nat}
    (h : List.Forall₂ (· < ·) position v.shape) :
    ∃ c, v.cellAt? position = some c ∧
      c.addr = v.addr + dot position (v.axes.map Axis.stride) * v.elementSize ∧
      c.size = v.elementSize := by
  cases v with
  | cell c =>
    cases h
    exact ⟨c, rfl, by simp [dot, addr], rfl⟩
  | grid g => exact ⟨_, congrArg Except.toOption (Grid.cellAt_eq h), rfl, rfl⟩

end View

namespace Grid

def WrongAt (g : Grid) (indices : List Index) (dim : Nat) (fault : Fault) : Prop :=
  ∃ index extent, indices[dim]? = some index ∧ g.shape[dim]? = some extent ∧
    index.Wrong g.name dim extent fault

theorem wrongAt_iff {g : Grid} {indices : List Index} {dim : Nat} {fault : Fault} :
    g.WrongAt indices dim fault ↔ WrongFrom g.name 0 g.shape indices dim fault := by
  simp only [WrongAt, WrongFrom, Nat.zero_add]

theorem select_of_excess {g : Grid} {indices : List Index} (h : g.rank < indices.length) :
    g.select indices = .error (.excessIndices g.name indices.length g.rank) := if_pos h

theorem select_error_iff {g : Grid} {indices : List Index} (h : indices.length ≤ g.rank)
    {fault : Fault} :
    g.select indices = .error fault ↔ selectAxes g.name 0 g.axes indices = .error fault := by
  rw [select, if_neg (Nat.not_lt_of_le h)]
  cases selectAxes g.name 0 g.axes indices with
  | error other => simp [bind, Except.bind]
  | ok result => simp [bind, Except.bind, pure, Except.pure]

theorem select_ok_axes {g : Grid} {indices : List Index} {v : View} (h : g.select indices = .ok v) :
    ∃ skipped axes, selectAxes g.name 0 g.axes indices = .ok (skipped, axes) ∧
      ((axes = [] ∧ v = .cell ⟨indexedName g.name (indices.map Index.text),
          g.addr + skipped * g.size, g.size⟩) ∨
        axes ≠ [] ∧ v = .grid ⟨indexedName g.name (indices.map Index.text),
          g.addr + skipped * g.size, g.size, axes⟩) := by
  unfold select at h
  split at h
  · cases h
  · cases haxes : selectAxes g.name 0 g.axes indices with
    | error fault =>
      rw [haxes] at h
      cases h
    | ok result =>
      obtain ⟨skipped, axes⟩ := result
      rw [haxes] at h
      refine ⟨skipped, axes, rfl, ?_⟩
      cases axes with
      | nil => exact Or.inl ⟨rfl, (Except.ok.inj h).symm⟩
      | cons axis rest => exact Or.inr ⟨List.cons_ne_nil _ _, (Except.ok.inj h).symm⟩

theorem select_fields {g : Grid} {indices : List Index} {v : View} (h : g.select indices = .ok v) :
    ∃ skipped, selectAxes g.name 0 g.axes indices = .ok (skipped, v.axes) ∧
      v.addr = g.addr + skipped * g.size ∧ v.elementSize = g.size := by
  obtain ⟨skipped, axes, haxes, hview⟩ := select_ok_axes h
  rcases hview with ⟨rfl, rfl⟩ | ⟨_, rfl⟩
  · exact ⟨skipped, haxes, rfl, rfl⟩
  · exact ⟨skipped, haxes, rfl, rfl⟩

/-- A selection of a grid: its shape, and the element at each of its positions. -/
theorem select_origin {g : Grid} {indices : List Index}
    (hextents : ∀ extent ∈ g.shape, extent ≤ 0x7fffffffffffffff) {v : View}
    (h : g.select indices = .ok v) :
    List.Forall₂ Slice.HasLength (slices g.shape indices) v.shape ∧
    ∀ position, List.Forall₂ (· < ·) position v.shape →
      List.Forall₂ (· < ·) (origin (choices g.shape indices) position) g.shape ∧
      ∃ c d, v.cellAt? position = some c ∧
        g.cellAt (origin (choices g.shape indices) position) = .ok d ∧
        c.addr = d.addr ∧ c.size = d.size := by
  obtain ⟨skipped, haxes, haddr, hsize⟩ := select_fields h
  obtain ⟨hlengths, horigin⟩ :=
    selectAxes_origin (fun axis haxis => hextents _ (List.mem_map_of_mem haxis)) haxes
  refine ⟨hlengths, ?_⟩
  intro position hposition
  obtain ⟨hinside, hdot⟩ := horigin position hposition
  obtain ⟨c, hc, hcaddr, hcsize⟩ := View.cellAt?_of_inside hposition
  refine ⟨hinside, c, _, hc, cellAt_eq hinside, ?_, hcsize.trans hsize⟩
  rw [hcaddr, haddr, hsize, Nat.add_assoc, ← Nat.add_mul, hdot]
  rfl

/-- Indexing in full. A list with an index too many is refused, else the lowest dimension whose
index is outside or steps by nothing or backwards decides the fault, and without one the grid is
indexed. Each slice then keeps a dimension, each integer drops one, and every position of the result
is the element of the grid that it stands for. -/
theorem select_is_standard_slicing (g : Grid) (indices : List Index)
    (hextents : ∀ extent ∈ g.shape, extent ≤ 0x7fffffffffffffff) :
    (g.rank < indices.length →
      g.select indices = .error (.excessIndices g.name indices.length g.rank)) ∧
    (indices.length ≤ g.rank → ∀ fault, g.select indices = .error fault ↔
      ∃ dim, g.WrongAt indices dim fault ∧
        ∀ lower < dim, ∀ other, ¬ g.WrongAt indices lower other) ∧
    (indices.length ≤ g.rank → (∀ dim fault, ¬ g.WrongAt indices dim fault) →
      ∃ v, g.select indices = .ok v) ∧
    ∀ v, g.select indices = .ok v →
      List.Forall₂ Slice.HasLength (slices g.shape indices) v.shape ∧
      ((∃ c, v = .cell c) ↔ slices g.shape indices = []) ∧
      ∀ position, List.Forall₂ (· < ·) position v.shape →
        List.Forall₂ (· < ·) (origin (choices g.shape indices) position) g.shape ∧
        ∃ c d, v.cellAt? position = some c ∧
          g.cellAt (origin (choices g.shape indices) position) = .ok d ∧
          c.addr = d.addr ∧ c.size = d.size := by
  have hfaults : indices.length ≤ g.rank → ∀ fault, g.select indices = .error fault ↔
      ∃ dim, g.WrongAt indices dim fault ∧
        ∀ lower < dim, ∀ other, ¬ g.WrongAt indices lower other := by
    intro hrank fault
    simp only [select_error_iff hrank, selectAxes_error_iff, wrongAt_iff]
    exact Iff.rfl
  refine ⟨select_of_excess, hfaults, ?_, ?_⟩
  · intro hrank hright
    cases h : g.select indices with
    | error fault =>
      obtain ⟨dim, hwrong, _⟩ := (hfaults hrank fault).mp h
      exact absurd hwrong (hright dim fault)
    | ok v => exact ⟨v, rfl⟩
  · intro v h
    obtain ⟨hlengths, horigin⟩ := select_origin hextents h
    refine ⟨hlengths, ?_, horigin⟩
    obtain ⟨_, axes, _, hview⟩ := select_ok_axes h
    rcases hview with ⟨rfl, rfl⟩ | ⟨hkept, rfl⟩
    · exact ⟨fun _ => List.forall₂_nil_right_iff.mp hlengths, fun _ => ⟨_, rfl⟩⟩
    · constructor
      · rintro ⟨c, hcell⟩
        cases hcell
      · intro hnone
        rw [hnone] at hlengths
        exact absurd (List.map_eq_nil_iff.mp (List.forall₂_nil_left_iff.mp hlengths)) hkept

/-- Of a grid of four planes, every second from the third last on, the second row, and of ten
columns every third below the eighth. The last place stands for `[3, 1, 6]`. Asked for a fourth row,
the grid names that dimension, not the step of zero behind it. -/
theorem select_is_standard_slicing_of_planes :
    let g := contiguous "m" 64 32 [4, 3, 10]
    let indices : List Index :=
      [.span (some (-3)) none (some 2), .item 1, .span (some (-100)) (some 8) (some 3)]
    let chosen : List Choice := [.slice ⟨1, 4, 2⟩, .single 1, .slice ⟨0, 8, 3⟩]
    (∀ extent ∈ g.shape, extent ≤ 0x7fffffffffffffff) ∧ choices g.shape indices = chosen ∧
    (∃ v, g.select indices = .ok v ∧ v.shape = [2, 3] ∧ origin chosen [1, 2] = [3, 1, 6] ∧
      ∃ c d, v.cellAt? [1, 2] = some c ∧ g.cellAt [3, 1, 6] = .ok d ∧ c.addr = d.addr) ∧
    g.select [.all, .item 3, .span none none (some 0)] = .error (.outOfBounds "m" 1 3 3) := by
  intro g indices chosen
  have hextents : ∀ extent ∈ g.shape, extent ≤ 0x7fffffffffffffff := by decide
  have hchosen : choices g.shape indices = chosen := by decide +kernel
  have hselect : g.select indices =
      .ok (.grid ⟨"m[-3::2,1,-100:8:3]", 1344, 32, [⟨2, 60⟩, ⟨3, 3⟩]⟩) := by decide +kernel
  obtain ⟨_, _, _, hok⟩ := select_is_standard_slicing g indices hextents
  obtain ⟨_, _, horigin⟩ := hok _ hselect
  have hplace : List.Forall₂ (· < ·) [1, 2] [2, 3] := by simp
  obtain ⟨_, c, d, hc, hd, haddr, _⟩ := horigin [1, 2] hplace
  rw [hchosen] at hd
  refine ⟨hextents, hchosen, ⟨_, hselect, rfl, rfl, c, d, hc, hd, haddr⟩, ?_⟩
  obtain ⟨_, hfault, _, _⟩ :=
    select_is_standard_slicing g [.all, .item 3, .span none none (some 0)] hextents
  refine (hfault (by decide) _).mpr ⟨1, ⟨.item 3, 3, rfl, rfl, .outside (by decide)⟩, ?_⟩
  rintro lower hlower other ⟨index, extent, hindex, _, hwrong⟩
  have hfirst : lower = 0 := by omega
  subst hfirst
  cases hindex
  cases hwrong

end Grid

end Assembler
