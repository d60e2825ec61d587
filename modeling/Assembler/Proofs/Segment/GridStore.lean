import Assembler.Proofs.Segment.Call
import Assembler.Proofs.Storage.Pairing
import Assembler.Proofs.Storage.Reached

/-! Stores to a grid. Each element takes three instructions, in the order of the positions, up to
the first value that no push can hold. The code is run on a machine with a stack and bytes of
memory: a store always writes a whole word, so the values stay apart only where elements are that
large. -/

namespace Assembler

def Stores (w : Word) (addr : Nat) (code : List Instruction) : Prop :=
  ∃ value place : Instruction, value.Pushes w ∧ place.Pushes (.ofNat addr) ∧
    code = [value, place, .plain .mstore]

theorem Stores.stackChange {w : Word} {addr : Nat} {code : List Instruction}
    (h : Stores w addr code) : Assembler.stackChange code = 0 := by
  obtain ⟨value, place, hvalue, hplace, rfl⟩ := h
  have hmstore : (Instruction.plain .mstore).opcode.stackChange = -2 := rfl
  simp only [Assembler.stackChange, hvalue.stackChange, hplace.stackChange, hmstore]
  omega

abbrev StoresPairs : List (Cell × Word) → List (List Instruction) → Prop :=
  List.Forall₂ fun pair code => Stores pair.2 pair.1.addr code

theorem StoresPairs.stackChange {pairs : List (Cell × Word)} {triples : List (List Instruction)}
    (h : StoresPairs pairs triples) : Assembler.stackChange triples.flatten = 0 := by
  induction h with
  | nil => rfl
  | cons hfirst _ ih =>
    rw [List.flatten_cons, stackChange_append, hfirst.stackChange, ih]
    rfl

namespace Emission

theorem storeAll_cons {c : Cell} {w : Word} (hw : w.size ≤ 32) (hc : c.addr < addressSpace)
    (rest : List (Cell × Word)) :
    ∃ triple, Stores w c.addr triple ∧ storeAll ((c, w) :: rest) =
      ⟨triple ++ (storeAll rest).code, (storeAll rest).outcome⟩ := by
  obtain ⟨value, hvalue, hpushvalue⟩ := push_pushes hw
  obtain ⟨place, hplace, hpushplace⟩ := pushNat_pushes hc
  refine ⟨_, ⟨value, place, hvalue, hplace, rfl⟩, ?_⟩
  rw [storeAll, hpushvalue, hpushplace]
  rfl

theorem storeAll_wide {w : Word} (h : 32 < w.size) (c : Cell) (rest : List (Cell × Word)) :
    storeAll ((c, w) :: rest) = fail (.valueTooWide w.size 32) := by
  rw [storeAll, push_of_wide (show ¬ w.size < 33 by omega)]
  rfl

/-- Pairs that can be stored are, before anything is emitted for those behind them. -/
theorem storeAll_append {front : List (Cell × Word)}
    (h : ∀ pair ∈ front, pair.2.size ≤ 32 ∧ pair.1.addr < addressSpace)
    (rest : List (Cell × Word)) :
    ∃ triples, StoresPairs front triples ∧ storeAll (front ++ rest) =
      ⟨triples.flatten ++ (storeAll rest).code, (storeAll rest).outcome⟩ := by
  induction front with
  | nil => exact ⟨[], .nil, rfl⟩
  | cons pair front ih =>
    rw [List.forall_mem_cons] at h
    obtain ⟨triples, htriples, hrest⟩ := ih h.2
    obtain ⟨triple, htriple, hfirst⟩ := storeAll_cons h.1.1 h.1.2 (front ++ rest)
    refine ⟨triple :: triples, .cons htriple htriples, ?_⟩
    rw [List.cons_append, hfirst, hrest, List.flatten_cons, List.append_assoc]

theorem store_of_rectangular {g : Grid} {values : ValueTree} (h : values.Rectangular g.shape) :
    store (some (.place (.grid g))) (some values) = storeAll (g.elements.zip values.leaves) := by
  rw [store, Grid.zip_of_rectangular h]
  rfl

theorem store_of_not_rectangular {g : Grid} {value : Option ValueTree}
    (h : ∀ values, value = some values → ¬ values.Rectangular g.shape) :
    store (some (.place (.grid g))) value = fail (.wrongShape g.name g.shape) := by
  cases value with
  | none => rfl
  | some values =>
    rw [store, Grid.zip_of_not_rectangular (h values rfl)]
    rfl

end Emission

structure Machine where
  stack : List Word
  memory : Nat → UInt8

def wordRange (addr : Nat) : Set Nat := Set.Ico addr (addr + 32)

namespace Machine

def write (memory : Nat → UInt8) (addr : Nat) (bytes : List UInt8) (b : Nat) : UInt8 :=
  if addr ≤ b then bytes[b - addr]?.getD (memory b) else memory b

def load (memory : Nat → UInt8) (addr : Nat) : Word :=
  .ofBytes ((List.range 32).map fun k => memory (addr + k))

/-- Stores need pushes only, so anything else stops the machine. -/
def step (m : Machine) (i : Instruction) : Option Machine :=
  match i.opcode, m.stack with
  | .push _, stack => some { m with stack := i.immediate :: stack }
  | .mstore, address :: value :: rest =>
    some ⟨rest, write m.memory address.value (value.padded 32)⟩
  | _, _ => none

def run (code : List Instruction) (m : Machine) : Option Machine := code.foldlM step m

theorem run_append (code more : List Instruction) (m : Machine) :
    run (code ++ more) m = (run code m).bind (run more) := List.foldlM_append

theorem step_push {i : Instruction} {w : Word} (h : i.Pushes w) (m : Machine) :
    step m i = some { m with stack := w :: m.stack } := by
  obtain ⟨n, hop, _⟩ := h.narrowest
  simp [step, hop, h.immediate]

theorem run_stores {w : Word} {addr : Nat} {code : List Instruction} (h : Stores w addr code)
    (m : Machine) :
    run code m = some { m with memory := write m.memory addr (w.padded 32) } := by
  obtain ⟨value, place, hvalue, hplace, rfl⟩ := h
  simp only [run, List.foldlM_cons, List.foldlM_nil, step_push hvalue, step_push hplace,
    Option.bind_eq_bind, Option.bind_some]
  simp [step, Instruction.plain, Word.value_ofNat]

theorem write_of_notMem {memory : Nat → UInt8} {addr b : Nat} {w : Word} (hw : w.size ≤ 32)
    (h : b ∉ wordRange addr) : write memory addr (w.padded 32) b = memory b := by
  rw [write]
  split
  · rename_i hb
    have hout : (w.padded 32).length ≤ b - addr := by
      rw [Word.length_padded hw]
      by_contra hin
      exact h ⟨hb, by omega⟩
    rw [List.getElem?_eq_none hout, Option.getD_none]
  · rfl

theorem load_write {w : Word} (hw : w.size ≤ 32) (memory : Nat → UInt8) (addr : Nat) :
    load (write memory addr (w.padded 32)) addr = w := by
  have hlen := Word.length_padded hw
  have hbytes : ((List.range 32).map fun k => write memory addr (w.padded 32) (addr + k)) =
      w.padded 32 := by
    apply List.ext_getElem
    · simp [hlen]
    · intro k _ hk
      simp [write, hk]
  rw [load, hbytes, Word.ofBytes_padded]

/-- A word is not changed by what is written beside it. -/
theorem load_write_of_disjoint {w : Word} (hw : w.size ≤ 32) (memory : Nat → UInt8)
    {addr other : Nat} (h : Disjoint (wordRange addr) (wordRange other)) :
    load (write memory other (w.padded 32)) addr = load memory addr := by
  rw [load, load]
  congr 1
  apply List.map_congr_left
  intro k hk
  have hin : addr + k ∈ wordRange addr :=
    ⟨Nat.le_add_right _ _, Nat.add_lt_add_left (List.mem_range.mp hk) _⟩
  exact write_of_notMem hw (Set.disjoint_left.mp h hin)

def writeAll (memory : Nat → UInt8) (pairs : List (Cell × Word)) : Nat → UInt8 :=
  pairs.foldl (fun memory pair => write memory pair.1.addr (pair.2.padded 32)) memory

theorem run_storesPairs {pairs : List (Cell × Word)} {triples : List (List Instruction)}
    (h : StoresPairs pairs triples) (m : Machine) :
    run triples.flatten m = some { m with memory := writeAll m.memory pairs } := by
  induction h generalizing m with
  | nil => rfl
  | cons hfirst _ ih =>
    rw [List.flatten_cons, run_append, run_stores hfirst, Option.bind_some, ih]
    rfl

variable {pairs : List (Cell × Word)}

theorem writeAll_of_notMem (hsize : ∀ pair ∈ pairs, pair.2.size ≤ 32) (memory : Nat → UInt8)
    {b : Nat} (h : ∀ pair ∈ pairs, b ∉ wordRange pair.1.addr) :
    writeAll memory pairs b = memory b := by
  induction pairs generalizing memory with
  | nil => rfl
  | cons pair pairs ih =>
    rw [List.forall_mem_cons] at hsize h
    exact (ih hsize.2 _ h.2).trans (write_of_notMem hsize.1 h.1)

theorem load_writeAll_of_disjoint (hsize : ∀ pair ∈ pairs, pair.2.size ≤ 32)
    (memory : Nat → UInt8) {addr : Nat}
    (h : ∀ pair ∈ pairs, Disjoint (wordRange addr) (wordRange pair.1.addr)) :
    load (writeAll memory pairs) addr = load memory addr := by
  induction pairs generalizing memory with
  | nil => rfl
  | cons pair pairs ih =>
    rw [List.forall_mem_cons] at hsize h
    exact (ih hsize.2 _ h.2).trans (load_write_of_disjoint hsize.1 memory h.1)

/-- Words stored apart are all there in the end. -/
theorem load_writeAll (hsize : ∀ pair ∈ pairs, pair.2.size ≤ 32)
    (hapart : pairs.Pairwise fun p q => Disjoint (wordRange p.1.addr) (wordRange q.1.addr))
    (memory : Nat → UInt8) {pair : Cell × Word} (h : pair ∈ pairs) :
    load (writeAll memory pairs) pair.1.addr = pair.2 := by
  induction pairs generalizing memory with
  | nil => cases h
  | cons first pairs ih =>
    rw [List.forall_mem_cons] at hsize
    rw [List.pairwise_cons] at hapart
    rcases List.mem_cons.mp h with rfl | hlater
    · exact (load_writeAll_of_disjoint hsize.2 _ hapart.1).trans (load_write hsize.1 memory _)
    · exact ih hsize.2 hapart.2 _ hlater

end Machine

theorem exists_of_forall₂_of_mem {α β : Type} {r : α → β → Prop} {xs : List α} {ys : List β}
    (h : List.Forall₂ r xs ys) {y : β} (hy : y ∈ ys) : ∃ x ∈ xs, r x y := by
  induction h with
  | nil => cases hy
  | cons hfirst _ ih =>
    rcases List.mem_cons.mp hy with rfl | hlater
    · exact ⟨_, List.mem_cons_self, hfirst⟩
    · obtain ⟨x, hx, hr⟩ := ih hlater
      exact ⟨x, List.mem_cons_of_mem _ hx, hr⟩

theorem forall₂_comp {α β γ : Type} {r : α → β → Prop} {s : β → γ → Prop} {xs : List α}
    {ys : List β} {zs : List γ} (hr : List.Forall₂ r xs ys) (hs : List.Forall₂ s ys zs) :
    List.Forall₂ (fun x z => ∃ y, r x y ∧ s y z) xs zs := by
  induction hr generalizing zs with
  | nil =>
    cases hs
    exact .nil
  | cons hx _ ih =>
    cases hs with
    | cons hz hrest => exact .cons ⟨_, hx, hz⟩ (ih hrest)

/-- What is related to a list is cut where the list is. -/
theorem forall₂_cut {α β : Type} {r : α → β → Prop} {xs : List α} {before after : List β} {y : β}
    (h : List.Forall₂ r xs (before ++ y :: after)) :
    ∃ front x back, xs = front ++ x :: back ∧ List.Forall₂ r front before ∧ r x y := by
  have hfront := List.forall₂_take_append _ _ _ h
  have hback := List.forall₂_drop_append _ _ _ h
  obtain ⟨x, back, hx, _, hdrop⟩ := List.forall₂_cons_right_iff.mp hback
  refine ⟨_, x, back, ?_, hfront, hx⟩
  rw [← hdrop, List.take_append_drop]

theorem View.Allocated.words_apart {v : View} (h : v.Allocated) {path : List (List Index)}
    {g : Grid} (hpath : v.follow path = .ok (.grid g)) (hsize : 32 ≤ g.size) :
    g.elements.Pairwise fun c d => Disjoint (wordRange c.addr) (wordRange d.addr) := by
  have haddresses := h.pairwise_addresses hpath
  rw [addresses, cells, List.pairwise_map] at haddresses
  refine haddresses.imp ?_
  intro c d hcd
  have hcd : c.addr + g.size ≤ d.addr := hcd
  rw [Set.disjoint_left]
  rintro b ⟨_, hend⟩ ⟨hstart, _⟩
  omega

/-- The three instructions that stand for a position: the leaf that it leads to is stored in the
element that it names. -/
def Grid.StoresAt (g : Grid) (values : ValueTree) (position : List Nat)
    (code : List Instruction) : Prop :=
  ∃ c w, g.cellAt position = .ok c ∧ values.leafAt? position = some w ∧ Stores w c.addr code

def ValueTree.Pushable (values : ValueTree) : Prop :=
  ∀ position w, values.leafAt? position = some w → w.size ≤ 32

namespace Grid

variable {g : Grid} {values : ValueTree} {positions : List (List Nat)} {pairs : List (Cell × Word)}

theorem storesAt_of_pairs {triples : List (List Instruction)}
    (hpairs : List.Forall₂ (fun position pair => g.cellAt position = .ok pair.1 ∧
      values.leafAt? position = some pair.2) positions pairs)
    (h : StoresPairs pairs triples) : List.Forall₂ (g.StoresAt values) positions triples := by
  refine (forall₂_comp hpairs h).imp ?_
  rintro position triple ⟨pair, ⟨hcell, hleaf⟩, hstores⟩
  exact ⟨pair.1, pair.2, hcell, hleaf, hstores⟩

theorem pair_mem_of_position (h : values.Rectangular g.shape) {position : List Nat} {c : Cell}
    {w : Word} (hcell : g.cellAt position = .ok c) (hleaf : values.leafAt? position = some w) :
    (c, w) ∈ g.elements.zip values.leaves := by
  have hin := mem_multiIndices_iff.mpr ((ValueTree.leafAt?_eq_some_iff h).mp ⟨w, hleaf⟩)
  obtain ⟨pair, hpair, hcell', hleaf'⟩ := exists_of_forall₂_of_mem (forall₂_zip_leaves h).flip hin
  cases hcell.symm.trans hcell'
  cases hleaf.symm.trans hleaf'
  exact hpair

theorem size_of_pair_mem (h : values.Rectangular g.shape) (hfit : values.Pushable)
    {pair : Cell × Word} (hpair : pair ∈ g.elements.zip values.leaves) : pair.2.size ≤ 32 := by
  obtain ⟨position, _, _, hleaf⟩ := exists_of_forall₂_of_mem (forall₂_zip_leaves h) hpair
  exact hfit position _ hleaf

end Grid

namespace Segment

variable {g : Grid} {values : ValueTree}

theorem emission_store_ok (s : Segment) (h : values.Rectangular g.shape) (hfit : values.Pushable)
    (haddr : ∀ c ∈ g.elements, c.addr < addressSpace) :
    ∃ triples, StoresPairs (g.elements.zip values.leaves) triples ∧
      s.emission (.store (some (.place (.grid g))) (some values)) =
        ⟨triples.flatten, .ok none⟩ := by
  have hpairs : ∀ pair ∈ g.elements.zip values.leaves,
      pair.2.size ≤ 32 ∧ pair.1.addr < addressSpace := by
    intro pair hpair
    exact ⟨Grid.size_of_pair_mem h hfit hpair, haddr _ (List.of_mem_zip hpair).1⟩
  obtain ⟨triples, htriples, hcode⟩ := Emission.storeAll_append hpairs []
  refine ⟨triples, htriples, ?_⟩
  rw [List.append_nil] at hcode
  rw [emission, Emission.store_of_rectangular h, hcode]
  exact congrArg (Emission.mk · _) (List.append_nil _)

/-- The first leaf too wide for a push ends the emission behind the stores of those before it. -/
theorem emission_store_wide (s : Segment) (h : values.Rectangular g.shape)
    (hwide : ¬ values.Pushable) (haddr : ∀ c ∈ g.elements, c.addr < addressSpace) :
    ∃ before pair after triples,
      g.elements.zip values.leaves = before ++ pair :: after ∧ 32 < pair.2.size ∧
      (∀ earlier ∈ before, earlier.2.size ≤ 32) ∧ StoresPairs before triples ∧
      s.emission (.store (some (.place (.grid g))) (some values)) =
        ⟨triples.flatten, .error (.valueTooWide pair.2.size 32)⟩ := by
  have hsome : ((g.elements.zip values.leaves).find? fun pair => 32 < pair.2.size).isSome := by
    rw [List.find?_isSome]
    by_contra hnone
    apply hwide
    intro position w hleaf
    have hcell := Grid.cellAt_eq ((ValueTree.leafAt?_eq_some_iff h).mp ⟨w, hleaf⟩)
    by_contra hw
    exact hnone ⟨_, Grid.pair_mem_of_position h hcell hleaf, by simpa using hw⟩
  obtain ⟨pair, hfound⟩ := Option.isSome_iff_exists.mp hsome
  obtain ⟨hpair, before, after, hsplit, hbefore⟩ := List.find?_eq_some_iff_append.mp hfound
  have hbefore : ∀ earlier ∈ before, earlier.2.size ≤ 32 := by
    intro earlier hearlier
    simpa using hbefore earlier hearlier
  have hpair : 32 < pair.2.size := by simpa using hpair
  have hfront : ∀ earlier ∈ before, earlier.2.size ≤ 32 ∧ earlier.1.addr < addressSpace := by
    intro earlier hearlier
    have hmem : earlier ∈ g.elements.zip values.leaves := by simp [hsplit, hearlier]
    exact ⟨hbefore earlier hearlier, haddr _ (List.of_mem_zip hmem).1⟩
  obtain ⟨triples, htriples, hcode⟩ := Emission.storeAll_append hfront (pair :: after)
  refine ⟨before, pair, after, triples, hsplit, hpair, hbefore, htriples, ?_⟩
  rw [Emission.storeAll_wide hpair] at hcode
  rw [emission, Emission.store_of_rectangular h, hsplit, hcode]
  exact congrArg (Emission.mk · _) (List.append_nil _)

/-- Where words do not overlap, the machine finds every leaf in its element after the store, and all
other bytes as they were. -/
theorem run_store (s : Segment) (h : values.Rectangular g.shape) (hfit : values.Pushable)
    (haddr : ∀ c ∈ g.elements, c.addr < addressSpace)
    (hapart : g.elements.Pairwise fun c d => Disjoint (wordRange c.addr) (wordRange d.addr))
    (m : Machine) :
    ∃ memory : Nat → UInt8,
      Machine.run (s.emission (.store (some (.place (.grid g))) (some values))).code m =
        some { m with memory := memory } ∧
      (∀ position c w, g.cellAt position = .ok c → values.leafAt? position = some w →
        Machine.load memory c.addr = w) ∧
      ∀ b, (∀ c ∈ g.elements, b ∉ wordRange c.addr) → memory b = m.memory b := by
  obtain ⟨triples, htriples, hemission⟩ := s.emission_store_ok h hfit haddr
  have hwords : ∀ pair ∈ g.elements.zip values.leaves, pair.2.size ≤ 32 :=
    fun _ hpair => Grid.size_of_pair_mem h hfit hpair
  refine ⟨Machine.writeAll m.memory (g.elements.zip values.leaves), ?_, ?_, ?_⟩
  · rw [hemission]
    exact Machine.run_storesPairs htriples m
  · intro position c w hcell hleaf
    rw [← List.map_fst_zip (le_of_eq (Grid.length_elements_eq_leaves h)),
      List.pairwise_map] at hapart
    exact Machine.load_writeAll hwords hapart m.memory (Grid.pair_mem_of_position h hcell hleaf)
  · intro b hb
    apply Machine.writeAll_of_notMem hwords
    intro pair hpair
    exact hb _ (List.of_mem_zip hpair).1

/-- A store to a grid of values that are missing or of another shape emits nothing. For values of
its shape it emits the stores of the positions inside in lexicographic order, all of them if every
leaf can be pushed, and else those in front of the first that cannot. For a view of an allocated
grid of whole words no store writes over another, and the machine finds every leaf in its element.
-/
theorem store_to_grid_stores_leaves (s : Segment) (g : Grid) :
    (∀ value : Option ValueTree,
      (∀ values, value = some values → ¬ values.Rectangular g.shape) →
      s.perform (.store (some (.place (.grid g))) value) =
        (s, .error (.wrongShape g.name g.shape))) ∧
    (∀ values : ValueTree, values.Rectangular g.shape →
      (∀ c ∈ g.elements, c.addr < addressSpace) →
      ∃ positions : List (List Nat),
        positions.Pairwise (List.Lex (· < ·)) ∧
        (∀ position, position ∈ positions ↔ List.Forall₂ (· < ·) position g.shape) ∧
        (values.Pushable → ∃ triples : List (List Instruction),
          List.Forall₂ (g.StoresAt values) positions triples ∧
          s.perform (.store (some (.place (.grid g))) (some values)) =
            ({ s with code := s.code ++ triples.flatten }, .ok none) ∧
          stackChange (s.code ++ triples.flatten) = stackChange s.code) ∧
        (¬ values.Pushable →
          ∃ (before after : List (List Nat)) (position : List Nat) (w : Word)
            (triples : List (List Instruction)),
            positions = before ++ position :: after ∧
            values.leafAt? position = some w ∧ 32 < w.size ∧
            (∀ earlier ∈ before, ∀ u, values.leafAt? earlier = some u → u.size ≤ 32) ∧
            List.Forall₂ (g.StoresAt values) before triples ∧
            s.perform (.store (some (.place (.grid g))) (some values)) =
              ({ s with code := s.code ++ triples.flatten }, .error (.valueTooWide w.size 32)))) ∧
    ∀ (settings : Settings) (requests : List Memory.Request) (a : Grid) (path : List (List Index)),
      .grid a ∈ (Memory.ofSettings settings).handed requests → 32 ≤ a.size →
      (View.grid a).follow path = .ok (.grid g) →
      g.elements.Pairwise (fun c d => Disjoint (wordRange c.addr) (wordRange d.addr)) ∧
      ∀ values : ValueTree, values.Rectangular g.shape → values.Pushable → ∀ m : Machine,
        ∃ memory : Nat → UInt8,
          Machine.run (s.emission (.store (some (.place (.grid g))) (some values))).code m =
            some { m with memory := memory } ∧
          (∀ position c w, g.cellAt position = .ok c → values.leafAt? position = some w →
            Machine.load memory c.addr = w) ∧
          ∀ b, (∀ c ∈ g.elements, b ∉ wordRange c.addr) → memory b = m.memory b := by
  refine ⟨?_, ?_, ?_⟩
  · intro value h
    rw [perform, emission, Emission.store_of_not_rectangular h]
    simp [Emission.silent, Emission.fail, Emission.map, Except.map]
  · intro values h haddr
    have hpaired := Grid.forall₂_zip_leaves h
    refine ⟨multiIndices g.shape, multiIndices_lexicographic g.shape,
      fun _ => mem_multiIndices_iff, ?_, ?_⟩
    · intro hfit
      obtain ⟨triples, htriples, hemission⟩ := s.emission_store_ok h hfit haddr
      refine ⟨triples, Grid.storesAt_of_pairs hpaired htriples, ?_, ?_⟩
      · rw [perform, hemission]
      · rw [stackChange_append, htriples.stackChange, Int.add_zero]
    · intro hwide
      obtain ⟨before, pair, after, triples, hsplit, hpair, hbefore, htriples, hemission⟩ :=
        s.emission_store_wide h hwide haddr
      rw [hsplit] at hpaired
      obtain ⟨front, position, back, hpositions, hfront, _, hleaf⟩ := forall₂_cut hpaired
      refine ⟨front, back, position, pair.2, triples, hpositions, hleaf, hpair, ?_,
        Grid.storesAt_of_pairs hfront htriples, ?_⟩
      · intro earlier hearlier u hu
        obtain ⟨p, hp, _, hleaf⟩ := exists_of_forall₂_of_mem hfront.flip hearlier
        cases hu.symm.trans hleaf
        exact hbefore p hp
      · rw [perform, hemission]
  · intro settings requests a path ha hsize hpath
    have hallocated := Memory.handed_allocated ha
    have helement : g.size = a.size := (View.follow_sublist hpath).1
    have hapart := hallocated.words_apart hpath (helement ▸ hsize)
    refine ⟨hapart, ?_⟩
    intro values h hfit m
    have haddr : ∀ c ∈ g.elements, c.addr < addressSpace := by
      intro c hc
      have hend := hallocated.cell_end_lt hpath hc
      omega
    exact s.run_store h hfit haddr hapart m

/-- Every second element of two rows of three: the store of four leaves leaves the last one in the
last element. With a second leaf of 33 bytes, only the store of the first is there. -/
theorem store_to_grid_stores_leaves_of_columns :
    let s := Segment.empty "main" ⟨0, 4⟩
    let a := Grid.contiguous "m" 0 32 [2, 3]
    let g : Grid := ⟨"m[:,::2]", 0, 32, [⟨2, 3⟩, ⟨2, 2⟩]⟩
    let word : Nat → ValueTree := fun n => .leaf (.ofNat n)
    let values : ValueTree := .node [.node [word 1, word 2], .node [word 3, word 4]]
    let wide : ValueTree := .node [.node [word 1, word (2 ^ 256)], .node [word 3, word 4]]
    (.grid a ∈ (Memory.ofSettings {}).handed [.grid "m" [2, 3]] ∧ 32 ≤ a.size ∧
      (View.grid a).follow [[.all, .span none none (some 2)]] = .ok (.grid g) ∧
      values.Rectangular g.shape ∧ values.Pushable) ∧
    (∀ m : Machine, ∃ memory : Nat → UInt8,
      Machine.run (s.emission (.store (some (.place (.grid g))) (some values))).code m =
        some { m with memory := memory } ∧
      Machine.load memory 160 = .ofNat 4) ∧
    (wide.Rectangular g.shape ∧ ¬ wide.Pushable ∧ (∀ c ∈ g.elements, c.addr < addressSpace)) ∧
    ∃ (before : List (List Nat)) (triples : List (List Instruction)),
      List.Forall₂ (g.StoresAt wide) before triples ∧ triples.flatten.length = 3 ∧
      s.perform (.store (some (.place (.grid g))) (some wide)) =
        ({ s with code := triples.flatten }, .error (.valueTooWide 33 32)) := by
  intro s a g word values wide
  have ha : .grid a ∈ (Memory.ofSettings {}).handed [.grid "m" [2, 3]] := by decide +kernel
  have hsize : 32 ≤ a.size := by decide
  have hpath : (View.grid a).follow [[.all, .span none none (some 2)]] = .ok (.grid g) := by
    decide +kernel
  have hshape : values.Rectangular g.shape := (values.hasShape_iff _).mp (by decide +kernel)
  have hwideshape : wide.Rectangular g.shape := (wide.hasShape_iff _).mp (by decide +kernel)
  have hfit : values.Pushable := by
    intro position w hleaf
    obtain ⟨c, hc⟩ : ∃ c, g.cellAt position = .ok c :=
      ⟨_, Grid.cellAt_eq ((ValueTree.leafAt?_eq_some_iff hshape).mp ⟨w, hleaf⟩)⟩
    have hmem := (List.of_mem_zip (Grid.pair_mem_of_position hshape hc hleaf)).2
    have hall : ∀ u ∈ values.leaves, u.size ≤ 32 := by decide +kernel
    exact hall w hmem
  have hnot : ¬ wide.Pushable := by
    intro hpush
    have hleaf : wide.leafAt? [0, 1] = some (.ofNat (2 ^ 256)) := rfl
    have hbound := (Word.size_ofNat_le_iff _ 32).mp (hpush _ _ hleaf)
    omega
  have haddr : ∀ c ∈ g.elements, c.addr < addressSpace := by decide +kernel
  obtain ⟨_, hstores, hreached⟩ := store_to_grid_stores_leaves s g
  refine ⟨⟨ha, hsize, hpath, hshape, hfit⟩, ?_, ⟨hwideshape, hnot, haddr⟩, ?_⟩
  · intro m
    obtain ⟨memory, hrun, hload, _⟩ := (hreached {} _ a _ ha hsize hpath).2 values hshape hfit m
    have hcell : g.cellAt [1, 1] = .ok ⟨"m[:,::2][1,1]", 160, 32⟩ := by decide +kernel
    exact ⟨memory, hrun, hload [1, 1] _ _ hcell rfl⟩
  · obtain ⟨_, _, _, _, hfail⟩ := hstores wide hwideshape haddr
    obtain ⟨before, _, _, w, triples, _, _, _, _, htriples, hperform⟩ := hfail hnot
    have hfault : (s.perform (.store (some (.place (.grid g))) (some wide))).2 =
        .error (.valueTooWide 33 32) := by decide +kernel
    have hlength :
        (s.perform (.store (some (.place (.grid g))) (some wide))).1.code.length = 3 := by
      decide +kernel
    rw [hperform] at hfault hlength
    refine ⟨before, triples, htriples, hlength, ?_⟩
    rw [hperform]
    exact congrArg (Prod.mk _) hfault

end Segment

end Assembler
