import Assembler.Proofs.Storage.Elements
import Assembler.Storage.ValueTree

/-! Values paired with the elements of a grid. Elements are counted by their positions and values
are collected from the tree, each without looking at the other. For a tree of the grid's shape the
two agree: an element meets the leaf that its position leads to. -/

namespace Assembler

theorem forall₂_range_getElem? {α : Type} (items : List α) :
    List.Forall₂ (fun i item => items[i]? = some item) (List.range items.length) items := by
  rw [List.forall₂_iff_get]
  refine ⟨List.length_range, ?_⟩
  intro i hrange hi
  simp

namespace ValueTree

/-- A tree of exactly this shape: at each level lists of as many children as the extent says, and
words below the last. -/
inductive Rectangular : ValueTree → List Nat → Prop
  | leaf (value : Word) : Rectangular (.leaf value) []
  | node {children : List ValueTree} {shape : List Nat}
      (h : ∀ child ∈ children, Rectangular child shape) :
      Rectangular (.node children) (children.length :: shape)

def leafAt? : ValueTree → List Nat → Option Word
  | .leaf value, [] => some value
  | .node children, i :: path => children[i]?.bind fun child => child.leafAt? path
  | _, _ => none

theorem allHaveShape_iff (children : List ValueTree) (shape : List Nat) :
    allHaveShape children shape = true ↔ ∀ child ∈ children, child.hasShape shape = true := by
  induction children with
  | nil => simp [allHaveShape]
  | cons child others ih => simp [allHaveShape, ih]

theorem allLeaves_eq_flatMap (children : List ValueTree) :
    allLeaves children = children.flatMap leaves := by
  induction children with
  | nil => rfl
  | cons child others ih => simp [allLeaves, ih]

theorem hasShape_iff (values : ValueTree) (shape : List Nat) :
    values.hasShape shape = true ↔ values.Rectangular shape := by
  induction shape generalizing values with
  | nil =>
    cases values with
    | leaf value => exact ⟨fun _ => .leaf value, fun _ => by simp [hasShape]⟩
    | node children =>
      constructor
      · intro h
        simp [hasShape] at h
      · intro h
        cases h
  | cons extent shape ih =>
    cases values with
    | leaf value =>
      constructor
      · intro h
        simp [hasShape] at h
      · intro h
        cases h
    | node children =>
      simp only [hasShape, Bool.and_eq_true, beq_iff_eq, allHaveShape_iff, ih]
      constructor
      · rintro ⟨rfl, h⟩
        exact .node h
      · intro h
        cases h with
        | node h => exact ⟨rfl, h⟩

theorem leafAt?_eq_some_iff {values : ValueTree} {shape position : List Nat}
    (h : values.Rectangular shape) :
    (∃ value, values.leafAt? position = some value) ↔ List.Forall₂ (· < ·) position shape := by
  induction h generalizing position with
  | leaf value =>
    cases position with
    | nil => simp [leafAt?]
    | cons i path => simp [leafAt?]
  | @node children shape _ ih =>
    cases position with
    | nil => simp [leafAt?]
    | cons i path =>
      rw [List.forall₂_cons]
      constructor
      · rintro ⟨value, hvalue⟩
        obtain ⟨child, hchild, hleaf⟩ := Option.bind_eq_some_iff.mp hvalue
        obtain ⟨hi, rfl⟩ := List.getElem?_eq_some_iff.mp hchild
        exact ⟨hi, (ih _ (List.getElem_mem hi)).mp ⟨value, hleaf⟩⟩
      · rintro ⟨hi, hpath⟩
        obtain ⟨value, hleaf⟩ := (ih _ (List.getElem_mem hi)).mpr hpath
        refine ⟨value, Option.bind_eq_some_iff.mpr ⟨_, List.getElem?_eq_getElem hi, hleaf⟩⟩

/-- From left to right, the leaves stand at the positions of the shape in their order. -/
theorem Rectangular.forall₂_leaves {values : ValueTree} {shape : List Nat}
    (h : values.Rectangular shape) :
    List.Forall₂ (fun position value => values.leafAt? position = some value)
      (multiIndices shape) values.leaves := by
  induction h with
  | leaf value => simp [multiIndices, leaves, leafAt?]
  | @node children shape _ ih =>
    rw [multiIndices, leaves, allLeaves_eq_flatMap]
    refine List.rel_flatMap (forall₂_range_getElem? children) ?_
    intro i child hchild
    rw [List.forall₂_map_left_iff]
    refine (ih child (List.mem_of_getElem? hchild)).imp ?_
    intro position value hleaf
    rw [leafAt?, hchild]
    exact hleaf

end ValueTree

theorem forall₂_zip {α β γ : Type} {r : α → β → Prop} {s : α → γ → Prop} {xs : List α} {ys : List β}
    {zs : List γ} (hr : List.Forall₂ r xs ys) (hs : List.Forall₂ s xs zs) :
    List.Forall₂ (fun x pair => r x pair.1 ∧ s x pair.2) xs (ys.zip zs) := by
  induction hr generalizing zs with
  | nil => exact .nil
  | cons hx _ ih =>
    cases hs with
    | cons hz hrest => exact .cons ⟨hx, hz⟩ (ih hrest)

namespace Grid

theorem zip_of_rectangular {g : Grid} {values : ValueTree} (h : values.Rectangular g.shape) :
    g.zip values = .ok (g.elements.zip values.leaves) :=
  if_pos ((values.hasShape_iff g.shape).mpr h)

theorem zip_of_not_rectangular {g : Grid} {values : ValueTree} (h : ¬ values.Rectangular g.shape) :
    g.zip values = .error (.wrongShape g.name g.shape) :=
  if_neg fun hshape => h ((values.hasShape_iff g.shape).mp hshape)

theorem forall₂_zip_leaves {g : Grid} {values : ValueTree} (h : values.Rectangular g.shape) :
    List.Forall₂ (fun position pair => g.cellAt position = .ok pair.1 ∧
      values.leafAt? position = some pair.2) (multiIndices g.shape)
      (g.elements.zip values.leaves) :=
  forall₂_zip g.elements_forall₂_cellAt h.forall₂_leaves

theorem length_elements_eq_leaves {g : Grid} {values : ValueTree} (h : values.Rectangular g.shape) :
    g.elements.length = values.leaves.length :=
  g.elements_forall₂_cellAt.length_eq.symm.trans h.forall₂_leaves.length_eq

/-- Values are paired with a grid exactly when they have its shape. Then there is one pair for each
position inside, in lexicographic order, of the element that the position names and the leaf that it
leads to. The positions are those of all leaves, and no element and no leaf is left over. -/
theorem zip_pairs_positions (g : Grid) (values : ValueTree) :
    ((∃ pairs, g.zip values = .ok pairs) ↔ values.Rectangular g.shape) ∧
    (¬ values.Rectangular g.shape → g.zip values = .error (.wrongShape g.name g.shape)) ∧
    ∀ pairs, g.zip values = .ok pairs →
      ∃ positions : List (List Nat),
        positions.Pairwise (List.Lex (· < ·)) ∧
        (∀ position, position ∈ positions ↔ List.Forall₂ (· < ·) position g.shape) ∧
        (∀ position, position ∈ positions ↔ ∃ value, values.leafAt? position = some value) ∧
        List.Forall₂ (fun position pair => g.cellAt position = .ok pair.1 ∧
          values.leafAt? position = some pair.2) positions pairs ∧
        pairs.map Prod.fst = g.elements ∧ pairs.map Prod.snd = values.leaves := by
  have hshape : ∀ pairs, g.zip values = .ok pairs → values.Rectangular g.shape := by
    intro pairs hpairs
    by_contra h
    cases hpairs.symm.trans (zip_of_not_rectangular h)
  refine ⟨?_, zip_of_not_rectangular, ?_⟩
  · constructor
    · rintro ⟨pairs, hpairs⟩
      exact hshape pairs hpairs
    · intro h
      exact ⟨_, zip_of_rectangular h⟩
  · intro pairs hpairs
    have h := hshape pairs hpairs
    cases hpairs.symm.trans (zip_of_rectangular h)
    have hlen := length_elements_eq_leaves h
    refine ⟨multiIndices g.shape, multiIndices_lexicographic g.shape,
      fun _ => mem_multiIndices_iff, ?_, forall₂_zip_leaves h,
      List.map_fst_zip (le_of_eq hlen), List.map_snd_zip (le_of_eq hlen.symm)⟩
    intro position
    rw [ValueTree.leafAt?_eq_some_iff h]
    exact mem_multiIndices_iff

/-- Two rows of which every second element is taken: the fourth pair is the last element of the
second row with the last value, and a value more in one row is refused. -/
theorem zip_pairs_positions_of_columns :
    let g : Grid := ⟨"m[:,::2]", 64, 32, [⟨2, 3⟩, ⟨2, 2⟩]⟩
    let word : Nat → ValueTree := fun n => .leaf (.ofNat n)
    let values : ValueTree := .node [.node [word 1, word 2], .node [word 3, word 4]]
    let wide : ValueTree := .node [.node [word 1, word 2], .node [word 3, word 4, word 5]]
    values.Rectangular g.shape ∧
    (∃ pairs, g.zip values = .ok pairs ∧ pairs.map Prod.fst = g.elements ∧
      pairs.map Prod.snd = values.leaves ∧
      pairs[3]? = some (⟨"m[:,::2][1,1]", 224, 32⟩, .ofNat 4)) ∧
    g.zip wide = .error (.wrongShape "m[:,::2]" [2, 2]) := by
  intro g word values wide
  have hshape : values.Rectangular g.shape := (values.hasShape_iff _).mp (by decide +kernel)
  have hwide : ¬ wide.Rectangular g.shape := by
    rw [← ValueTree.hasShape_iff]
    decide +kernel
  obtain ⟨hok, _, hpairs⟩ := zip_pairs_positions g values
  obtain ⟨pairs, hzip⟩ := hok.mpr hshape
  obtain ⟨_, _, _, _, _, hcells, hwords⟩ := hpairs pairs hzip
  refine ⟨hshape, ⟨pairs, hzip, hcells, hwords, ?_⟩, (zip_pairs_positions g wide).2.1 hwide⟩
  cases hzip.symm.trans (zip_of_rectangular hshape)
  decide +kernel

end Grid

end Assembler
