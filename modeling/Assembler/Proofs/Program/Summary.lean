import Assembler.Program.Summary
import Assembler.Proofs.Program.Assembled
import Assembler.Proofs.Program.Names

/-! What a summary says. Its figures are folds over the segments, kept apart from linking and
encoding. They agree with the flat code, with the assembled bytes and with the memory behind the
program, and the tallies of the segments neither lose an instruction nor count one twice. -/

namespace Assembler

namespace Tally

def count (t : Tally) (name : String) : Nat := (t.lookup name).getD 0

theorem count_nil (name : String) : count [] name = 0 := rfl

theorem count_cons (other : String) (n : Nat) (rest : Tally) (name : String) :
    count ((other, n) :: rest) name = if name = other then n else count rest name := by
  by_cases h : name = other
  · simp [count, h]
  · have hne : (name == other) = false := beq_eq_false_iff_ne.mpr h
    simp [count, List.lookup_cons, hne, h]

theorem count_of_lt {t : Tally} {name : String} (h : ∀ e ∈ t, name < e.1) : t.count name = 0 := by
  have hnone : t.lookup name = none := by
    apply List.lookup_eq_none_iff.mpr
    intro e he
    have hne : name ≠ e.1 := fun heq => String.lt_irrefl e.1 (heq ▸ h e he)
    simpa using hne
  simp [count, hnone]

theorem mem_add {t : Tally} {name : String} {e : String × Nat} (h : e ∈ t.add name) :
    (e.1 = name ∧ 0 < e.2) ∨ e ∈ t := by
  fun_induction add name t with
  | case1 =>
    left
    simp [List.mem_singleton.mp h]
  | case2 n rest =>
    rcases List.mem_cons.mp h with rfl | hrest
    · exact Or.inl ⟨rfl, n.succ_pos⟩
    · exact Or.inr (List.mem_cons_of_mem _ hrest)
  | case3 other n rest _ _ =>
    rcases List.mem_cons.mp h with rfl | hrest
    · exact Or.inl ⟨rfl, Nat.one_pos⟩
    · exact Or.inr hrest
  | case4 other n rest _ _ ih =>
    rcases List.mem_cons.mp h with rfl | hrest
    · exact Or.inr List.mem_cons_self
    · exact (ih hrest).imp_right (List.mem_cons_of_mem _)

def Increasing (t : Tally) : Prop := t.Pairwise fun a b => a.1 < b.1

theorem Increasing.lt_of_lt_head {other : String} {n : Nat} {rest : Tally}
    (h : Increasing ((other, n) :: rest)) {name : String} (hlt : name < other) :
    ∀ e ∈ (other, n) :: rest, name < e.1 := by
  intro e he
  rcases List.mem_cons.mp he with rfl | hrest
  · exact hlt
  · exact String.lt_trans hlt ((List.pairwise_cons.mp h).1 e hrest)

theorem Increasing.add {t : Tally} (h : t.Increasing) (name : String) :
    (t.add name).Increasing := by
  fun_induction Tally.add name t with
  | case1 => exact List.pairwise_singleton _ _
  | case2 n rest => exact List.pairwise_cons.mpr (List.pairwise_cons.mp h)
  | case3 other n rest _ hlt => exact List.pairwise_cons.mpr ⟨h.lt_of_lt_head hlt, h⟩
  | case4 other n rest hne hnlt ih =>
    obtain ⟨hfirst, hrest⟩ := List.pairwise_cons.mp h
    have hgt : other < name := by
      by_contra hngt
      exact hne (String.le_antisymm (String.not_lt.mp hngt) (String.not_lt.mp hnlt))
    refine List.pairwise_cons.mpr ⟨?_, ih hrest⟩
    intro e he
    rcases mem_add he with ⟨hname, _⟩ | hold
    · exact hname ▸ hgt
    · exact hfirst e hold

-- Without the order, a name could be entered in front of an entry of its own.
theorem Increasing.count_add {t : Tally} (h : t.Increasing) (name family : String) :
    (t.add name).count family = t.count family + if family = name then 1 else 0 := by
  fun_induction Tally.add name t with
  | case1 => simp [count_cons, count_nil]
  | case2 n rest => by_cases hfamily : family = name <;> simp [count_cons, hfamily]
  | case3 other n rest hne hlt =>
    by_cases hfamily : family = name
    · have hzero := count_of_lt (h.lt_of_lt_head hlt)
      simp [count_cons, hfamily, hzero]
    · simp [count_cons, hfamily]
  | case4 other n rest hne _ ih =>
    have hrest := ih (List.pairwise_cons.mp h).2
    by_cases hfamily : family = other
    · simp [count_cons, hfamily, Ne.symm hne]
    · simp [count_cons, hfamily, hrest]

theorem sum_add (t : Tally) (name : String) :
    ((t.add name).map Prod.snd).sum = (t.map Prod.snd).sum + 1 := by
  fun_induction add name t with
  | case1 => rfl
  | case2 n rest =>
    simp only [List.map_cons, List.sum_cons]
    omega
  | case3 other n rest _ _ =>
    simp only [List.map_cons, List.sum_cons]
    omega
  | case4 other n rest _ _ ih =>
    simp only [List.map_cons, List.sum_cons, ih]
    omega

/-- A tally of a code: one entry for each family that occurs, by increasing name, with the number
of its instructions. -/
structure Counts (t : Tally) (code : List Instruction) : Prop where
  increasing : t.Increasing
  positive : ∀ e ∈ t, 0 < e.2
  count : ∀ family, t.count family = code.countP fun i => i.opcode.family = family
  total : (t.map Prod.snd).sum = code.length

theorem Counts.add {t : Tally} {code : List Instruction} (h : t.Counts code) (i : Instruction) :
    (t.add i.opcode.family).Counts (code ++ [i]) where
  increasing := h.increasing.add _
  positive := by
    intro e he
    rcases mem_add he with ⟨_, hpositive⟩ | hold
    · exact hpositive
    · exact h.positive e hold
  count := by
    intro family
    rw [h.increasing.count_add, h.count, List.countP_append, List.countP_singleton]
    simp [eq_comm]
  total := by rw [sum_add, h.total, List.length_append, List.length_singleton]

theorem Counts.foldl {t : Tally} {code : List Instruction} (h : t.Counts code)
    (more : List Instruction) :
    Counts (more.foldl (fun t i => t.add i.opcode.family) t) (code ++ more) := by
  induction more generalizing t code with
  | nil => simpa using h
  | cons i rest ih => simpa using ih (h.add i)

theorem ofCode_counts (code : List Instruction) : (ofCode code).Counts code := by
  have hnil : Counts [] [] :=
    ⟨List.Pairwise.nil, fun _ he => absurd he List.not_mem_nil, fun _ => rfl, rfl⟩
  exact hnil.foldl code

example : ofCode [⟨.push 2, .ofNat 258⟩, .plain .jump, ⟨.push 1, .ofNat 3⟩] =
    [("JUMP", 1), ("PUSH", 2)] := by
  decide +kernel

end Tally

theorem codeCost_eq_sum (code : List Instruction) :
    codeCost code = (code.map fun i => i.opcode.cost).sum := by
  induction code with
  | nil => rfl
  | cons i rest ih => rw [codeCost, ih, List.map_cons, List.sum_cons]

theorem segmentsCost_eq_sum (segments : List Segment) :
    segmentsCost segments =
      ((segments.flatMap Segment.code).map fun i => i.opcode.cost).sum := by
  induction segments with
  | nil => rfl
  | cons s rest ih =>
    rw [segmentsCost, ih, codeCost_eq_sum, List.flatMap_cons, List.map_append, List.sum_append]

theorem BackToBack.next_offset {start stop : Nat} {segments : List Segment}
    (h : BackToBack start segments stop) {k : Nat} {s t : Segment}
    (hs : segments[k]? = some s) (ht : segments[k + 1]? = some t) :
    ∃ o, s.offset = some o ∧ t.offset = some (o + s.size) := by
  induction segments generalizing start k with
  | nil => simp at hs
  | cons first rest ih =>
    obtain ⟨hfirst, hrest⟩ := h
    cases k with
    | succ k => exact ih hrest (by simpa using hs) (by simpa using ht)
    | zero =>
      cases rest with
      | nil => simp at ht
      | cons second later =>
        obtain rfl : first = s := by simpa using hs
        obtain rfl : second = t := by simpa using ht
        exact ⟨start, hfirst, hrest.1⟩

namespace Program

theorem count_summary (p : Program) (family : String) :
    (p.summary.segments.map fun e => e.counts.count family).sum =
      p.link.code.countP fun i => i.opcode.family = family := by
  rw [link_code, List.countP_flatMap, summary, List.map_map]
  congr 1
  apply List.map_congr_left
  intro s _
  exact (Tally.ofCode_counts s.code).count family

theorem getElem?_summary {p : Program} {k : Nat} {e : SegmentSummary}
    (h : p.summary.segments[k]? = some e) : ∃ s, p.segments[k]? = some s ∧ s.summary = e := by
  rw [summary, List.getElem?_map] at h
  exact Option.map_eq_some_iff.mp h

/-- The figures of a summary are those of the program. Its size is the number of assembled bytes and
its cost that of the flat code, where each family occurs as often as the segments' tallies say. The
entries are the segments in order, and each tally is complete. The memory in use is what the granted
requests take up. Once all segments are placed, each entry begins where the one before it ends. -/
theorem summary_agrees_with_code (s : Settings) (actions : List Action) :
    let p := (ofSettings s).run actions
    (∀ bytes, p.assemble.2 = .ok bytes → p.summary.size = bytes.length) ∧
    p.summary.cost = (p.link.code.map fun i => i.opcode.cost).sum ∧
    (∀ family : String, (p.summary.segments.map fun e => e.counts.count family).sum =
      p.link.code.countP fun i =>
        String.ofList (i.opcode.name.toList.filter fun c => !c.isDigit) = family) ∧
    List.Forall₂ (fun (t : Segment) (e : SegmentSummary) => e.name = t.name ∧
      e.offset = t.offset ∧ e.size = codeSize t.code ∧ e.counts.Counts t.code)
      p.segments p.summary.segments ∧
    p.memory.views = (Memory.ofSettings s).granted (actions.filterMap Action.request?) ∧
    p.summary.memoryUsed = (p.memory.views.map View.footprint).sum ∧
    (∀ e, p.placeAll.summary.segments[0]? = some e → e.offset = some 0) ∧
    ∀ (k : Nat) (e following : SegmentSummary), p.placeAll.summary.segments[k]? = some e →
      p.placeAll.summary.segments[k + 1]? = some following →
      ∃ o, e.offset = some o ∧ following.offset = some (o + e.size) := by
  intro p
  have hmemory : p.memory = (Memory.ofSettings s).run (actions.filterMap Action.request?) :=
    memory_run _ actions
  have hinvariant : p.memory.Invariant := by
    rw [hmemory]
    exact Memory.run_preserves_invariant (Memory.ofSettings_invariant s) _
  refine ⟨fun _ h => (length_of_assemble h).symm, segmentsCost_eq_sum p.segments,
    p.count_summary, ?_, ?_, hinvariant.used_eq, ?_, ?_⟩
  · rw [summary, List.forall₂_map_right_iff, List.forall₂_same]
    intro t _
    exact ⟨rfl, rfl, rfl, Tally.ofCode_counts t.code⟩
  · rw [hmemory]
    exact Memory.run_views _ _
  · intro e he
    obtain ⟨t, ht, rfl⟩ := getElem?_summary he
    exact p.placeAll_placed 0 t ht
  · intro k e following he hfollowing
    obtain ⟨t, ht, rfl⟩ := getElem?_summary he
    obtain ⟨u, hu, rfl⟩ := getElem?_summary hfollowing
    exact (placeFrom_backToBack 0 p.segments).next_offset ht hu

end Program

end Assembler
