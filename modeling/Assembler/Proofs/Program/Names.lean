import Assembler.Proofs.Program.Entry
import Assembler.Proofs.Storage.Accounting

/-! What stands behind a name. Segments move when an entry is put in front of them, yet a name keeps
its segment: whatever is emitted through the name is found there, in order, and nothing else is. -/

namespace Assembler

def Action.request? : Action → Option Memory.Request
  | .allocate request => some request
  | _ => none

namespace Program

def names (p : Program) : List String := p.segments.map Segment.name

def entryCode (entry : Nat) : List Instruction :=
  (Emission.push (.ofNat entry)).code ++ [.plain .jump]

/-- What an action emits through a name. A dispatcher begins with the jump to its entry. -/
def emits (p : Program) (name : String) : Action → List Instruction
  | .emit receiver d =>
    if receiver = name then
      match p.get receiver with
      | .ok s => (s.emission d).code
      | .error _ => []
    else []
  | .enter dispatcher target =>
    if dispatcher = name then
      match p.addEntry dispatcher target with
      | .ok (entry, _) => entryCode entry
      | .error _ => []
    else []
  | _ => []

def creates (p : Program) : Action → Option String
  | .create name =>
    match p.addSegment name with
    | .ok _ => some name
    | .error _ => none
  | .enter dispatcher target =>
    match p.addEntry dispatcher target with
    | .ok _ => some dispatcher
    | .error _ => none
  | _ => none

def emitted (p : Program) (name : String) : List Action → List Instruction
  | [] => []
  | a :: rest => p.emits name a ++ (p.next a).emitted name rest

def created (p : Program) : List Action → List String
  | [] => []
  | a :: rest => (p.creates a).toList ++ (p.next a).created rest

theorem entryCode_eq {n : Fin 33} {e : Nat} (h : n.val = (Word.ofNat e).size) :
    entryCode e = entryJump n e := by
  have hsize : (Word.ofNat e).size < 33 := h ▸ n.isLt
  have hn : n = ⟨_, hsize⟩ := Fin.ext h
  rw [entryCode, Emission.push_of_fits hsize, hn]
  rfl

/-- With distinct names, the first segment of a name is the only one. -/
theorem position?_iff_of_nodup {p : Program} (h : p.names.Nodup) {name : String} {i : Nat} :
    p.position? name = some i ↔ ∃ s, p.segments[i]? = some s ∧ s.name = name := by
  rw [position?_eq_some_iff, and_iff_left_iff_imp]
  rintro ⟨s, hs, rfl⟩ j hj t ht heq
  have hi : p.names[i]? = some s.name := by rw [names, List.getElem?_map, hs, Option.map_some]
  have hnames : p.names[j]? = p.names[i]? := by
    rw [hi, names, List.getElem?_map, ht, Option.map_some, heq]
  have hlt : j < p.names.length := hj.trans (List.getElem?_eq_some_iff.mp hi).1
  exact Nat.ne_of_lt hj ((List.getElem?_inj hlt h).mp hnames)

theorem get_eq_ok_iff {p : Program} (h : p.names.Nodup) {name : String} {s : Segment} :
    p.get name = .ok s ↔ s ∈ p.segments ∧ s.name = name := by
  constructor
  · intro hget
    cases hi : p.position? name with
    | none =>
      rw [get, hi] at hget
      cases hget
    | some i =>
      obtain ⟨⟨t, ht, hname⟩, _⟩ := position?_eq_some_iff.mp hi
      rw [get_of_position? hi ht] at hget
      cases hget
      exact ⟨List.mem_of_getElem? ht, hname⟩
  · rintro ⟨hmem, hname⟩
    obtain ⟨i, hi⟩ := List.mem_iff_getElem?.mp hmem
    exact get_of_position? ((position?_iff_of_nodup h).mpr ⟨s, hi, hname⟩) hi

theorem names_change {α : Type} (p : Program) (name : String)
    {f : Segment → Segment × Except Fault α} (hf : ∀ s, (f s).1.name = s.name) :
    (p.change name f).1.names = p.names := by
  cases hi : p.position? name with
  | none => rw [change_of_position?_none hi]
  | some i =>
    obtain ⟨⟨s, hs, _⟩, _⟩ := position?_eq_some_iff.mp hi
    have hsame : p.names[i]? = some s.name := by rw [names, List.getElem?_map, hs, Option.map_some]
    obtain ⟨_, hname⟩ := List.getElem?_eq_some_iff.mp hsame
    rw [change_of_position? hi hs, names, List.map_set, hf, ← hname]
    exact List.set_getElem_self _

theorem memory_change {α : Type} (p : Program) (name : String)
    (f : Segment → Segment × Except Fault α) : (p.change name f).1.memory = p.memory := by
  cases hi : p.position? name with
  | none => rw [change_of_position?_none hi]
  | some i =>
    obtain ⟨⟨s, hs, _⟩, _⟩ := position?_eq_some_iff.mp hi
    rw [change_of_position? hi hs]

/-- A change reaches the segment of its name and no other. -/
theorem mem_change {α : Type} {p : Program} (h : p.names.Nodup) {name : String}
    {f : Segment → Segment × Except Fault α} {t : Segment}
    (ht : t ∈ (p.change name f).1.segments) :
    (t ∈ p.segments ∧ t.name ≠ name) ∨ ∃ s, p.get name = .ok s ∧ t = (f s).1 := by
  cases hi : p.position? name with
  | none =>
    rw [change_of_position?_none hi] at ht
    refine Or.inl ⟨ht, ?_⟩
    rintro rfl
    exact position?_eq_none_iff.mp hi (List.mem_map_of_mem ht)
  | some i =>
    obtain ⟨⟨s, hs, hname⟩, _⟩ := position?_eq_some_iff.mp hi
    rw [change_of_position? hi hs] at ht
    obtain ⟨j, hj⟩ := List.mem_iff_getElem?.mp ht
    by_cases hij : i = j
    · subst j
      have hlt := (List.getElem?_eq_some_iff.mp hs).1
      rw [List.getElem?_set_self hlt] at hj
      exact Or.inr ⟨s, get_of_position? hi hs, (Option.some.inj hj).symm⟩
    · rw [List.getElem?_set_ne hij] at hj
      refine Or.inl ⟨List.mem_of_getElem? hj, ?_⟩
      intro htname
      have hposition := (position?_iff_of_nodup h).mpr ⟨t, hj, htname⟩
      exact hij (Option.some.inj (hi.symm.trans hposition))

theorem mem_placeFrom {offset : Nat} {segments : List Segment} {t : Segment}
    (h : t ∈ placeFrom offset segments) : ∃ s ∈ segments, ∃ o, t = s.place o := by
  obtain ⟨i, hi⟩ := List.mem_iff_getElem?.mp h
  rw [getElem?_placeFrom] at hi
  obtain ⟨s, hs, rfl⟩ := Option.map_eq_some_iff.mp hi
  exact ⟨s, List.mem_of_getElem? hs, _, rfl⟩

theorem next_create_cases (p : Program) (name : String) :
    (name ∈ p.names ∧ p.creates (.create name) = none ∧ p.next (.create name) = p) ∨
    (name ∉ p.names ∧ p.creates (.create name) = some name ∧ p.next (.create name) =
      { p with segments := p.segments ++ [.empty name p.memory.registers] }) := by
  cases hi : p.position? name with
  | none =>
    have hadd : p.addSegment name = .ok (.empty name p.memory.registers,
        { p with segments := p.segments ++ [.empty name p.memory.registers] }) := by
      rw [addSegment, hi]
      rfl
    refine Or.inr ⟨position?_eq_none_iff.mp hi, ?_, ?_⟩
    · rw [creates, hadd]
    · rw [next, hadd]
      rfl
  | some i =>
    obtain ⟨⟨s, hs, rfl⟩, _⟩ := position?_eq_some_iff.mp hi
    have hadd : p.addSegment s.name = .error (.segmentExists s.name) := by
      rw [addSegment, hi]
      rfl
    refine Or.inl ⟨List.mem_map_of_mem (List.mem_of_getElem? hs), ?_, ?_⟩
    · rw [creates, hadd]
    · rw [next, hadd]
      rfl

/-- An entry is either refused without a trace, or stands in front of all segments. -/
theorem next_enter_cases (p : Program) (dispatcher target : String) :
    (p.creates (.enter dispatcher target) = none ∧ p.next (.enter dispatcher target) = p ∧
      ∀ name, p.emits name (.enter dispatcher target) = []) ∨
    (dispatcher ∉ p.names ∧ p.creates (.enter dispatcher target) = some dispatcher ∧
      ∃ e, p.next (.enter dispatcher target) =
          (p.withHead dispatcher (entryCode e)).placeAll ∧
        ∀ name, p.emits name (.enter dispatcher target) =
          if dispatcher = name then entryCode e else []) := by
  cases hadd : p.addEntry dispatcher target with
  | error fault =>
    refine Or.inl ⟨?_, ?_, ?_⟩
    · rw [creates, hadd]
    · rw [next, hadd]
      rfl
    · intro name
      rw [emits, hadd]
      exact ite_self _
  | ok result =>
    obtain ⟨e, q⟩ := result
    obtain ⟨hfree, _, n, _, hn, _, rfl⟩ := addEntry_ok hadd
    refine Or.inr ⟨hfree, ?_, e, ?_, ?_⟩
    · rw [creates, hadd]
    · rw [next, hadd, entryCode_eq hn]
      rfl
    · intro name
      rw [emits, hadd]

/-- An action adds at most one name, at one end of the program. -/
theorem names_next (p : Program) (a : Action) :
    (p.creates a = none ∧ (p.next a).names = p.names) ∨
    ∃ name, p.creates a = some name ∧ name ∉ p.names ∧
      ((p.next a).names = p.names ++ [name] ∨ (p.next a).names = name :: p.names) := by
  cases a with
  | create name =>
    rcases p.next_create_cases name with ⟨_, hnone, hnext⟩ | ⟨hfree, hsome, hnext⟩
    · exact Or.inl ⟨hnone, by rw [hnext]⟩
    · refine Or.inr ⟨name, hsome, hfree, Or.inl ?_⟩
      rw [hnext]
      exact List.map_append
  | emit name d => exact Or.inl ⟨rfl, p.names_change name fun _ => rfl⟩
  | place name offset => exact Or.inl ⟨rfl, p.names_change name fun _ => rfl⟩
  | enter dispatcher target =>
    rcases p.next_enter_cases dispatcher target with
      ⟨hnone, hnext, _⟩ | ⟨hfree, hsome, e, hnext, _⟩
    · exact Or.inl ⟨hnone, by rw [hnext]⟩
    · refine Or.inr ⟨dispatcher, hsome, hfree, Or.inr ?_⟩
      rw [hnext]
      exact map_withHead (fun _ _ => rfl) p dispatcher _
  | placeAll => exact Or.inl ⟨rfl, map_placeFrom (fun _ _ => rfl) 0 p.segments⟩
  | allocate request => exact Or.inl ⟨rfl, rfl⟩
  | link => exact Or.inl ⟨rfl, rfl⟩
  | assemble => exact Or.inl ⟨rfl, rfl⟩

theorem mem_names_next (p : Program) (a : Action) (name : String) :
    name ∈ (p.next a).names ↔ name ∈ p.names ∨ p.creates a = some name := by
  rcases p.names_next a with ⟨hnone, hsame⟩ | ⟨new, hsome, _, hback | hfront⟩
  · simp [hnone, hsame]
  · simp [hsome, hback, eq_comm]
  · simp [hsome, hfront, or_comm, eq_comm]

theorem nodup_names_next {p : Program} (h : p.names.Nodup) (a : Action) :
    (p.next a).names.Nodup := by
  rcases p.names_next a with ⟨_, hsame⟩ | ⟨new, _, hfree, hback | hfront⟩
  · rw [hsame]
    exact h
  · rw [hback, ← List.concat_eq_append]
    exact h.concat hfree
  · rw [hfront]
    exact List.nodup_cons.mpr ⟨hfree, h⟩

def Continues (p : Program) (a : Action) (t : Segment) : Prop :=
  ∃ s ∈ p.segments, t.name = s.name ∧ t.registers = s.registers ∧
    t.code = s.code ++ p.emits s.name a

def Begins (p : Program) (a : Action) (t : Segment) : Prop :=
  p.creates a = some t.name ∧ t.registers = p.memory.registers ∧ t.code = p.emits t.name a

theorem continues_of_mem {p : Program} {a : Action} {t : Segment} (ht : t ∈ p.segments)
    (hnone : p.emits t.name a = []) : p.Continues a t :=
  ⟨t, ht, rfl, rfl, by rw [hnone, List.append_nil]⟩

theorem continues_of_place {p : Program} {a : Action} {s : Segment} (hs : s ∈ p.segments)
    (hnone : p.emits s.name a = []) (offset : Nat) : p.Continues a (s.place offset) := by
  refine ⟨s, hs, rfl, rfl, ?_⟩
  rw [hnone, List.append_nil]
  rfl

theorem mem_next_emit {p : Program} (h : p.names.Nodup) {name : String} {d : Directive}
    {t : Segment} (ht : t ∈ (p.next (.emit name d)).segments) : p.Continues (.emit name d) t := by
  rcases mem_change h ht with ⟨hmem, hne⟩ | ⟨s, hs, rfl⟩
  · refine continues_of_mem hmem ?_
    rw [emits, if_neg hne.symm]
  · obtain ⟨hmem, hname⟩ := (get_eq_ok_iff h).mp hs
    refine ⟨s, hmem, rfl, rfl, ?_⟩
    rw [emits, if_pos hname.symm, hs]
    rfl

theorem mem_next_enter {p : Program} {dispatcher target : String} {t : Segment}
    (ht : t ∈ (p.next (.enter dispatcher target)).segments) :
    p.Continues (.enter dispatcher target) t ∨ p.Begins (.enter dispatcher target) t := by
  rcases p.next_enter_cases dispatcher target with
    ⟨_, hnext, hemits⟩ | ⟨hfree, hsome, e, hnext, hemits⟩
  · rw [hnext] at ht
    exact Or.inl (continues_of_mem ht (hemits t.name))
  · rw [hnext] at ht
    obtain ⟨s, hs, o, rfl⟩ := mem_placeFrom ht
    rcases List.mem_cons.mp hs with rfl | hold
    · refine Or.inr ⟨hsome, rfl, ?_⟩
      rw [hemits]
      exact (if_pos rfl).symm
    · have hne : dispatcher ≠ s.name := by
        rintro rfl
        exact hfree (List.mem_map_of_mem hold)
      refine Or.inl (continues_of_place hold ?_ o)
      rw [hemits, if_neg hne]

/-- Every segment behind an action either was there, with the code that the action emitted through
its name added at the end, or is the one that the action created. -/
theorem mem_next {p : Program} (h : p.names.Nodup) {a : Action} {t : Segment}
    (ht : t ∈ (p.next a).segments) : p.Continues a t ∨ p.Begins a t := by
  cases a with
  | create name =>
    rcases p.next_create_cases name with ⟨_, _, hnext⟩ | ⟨_, hsome, hnext⟩
    · rw [hnext] at ht
      exact Or.inl (continues_of_mem ht rfl)
    · rw [hnext] at ht
      rcases List.mem_append.mp ht with hold | hnew
      · exact Or.inl (continues_of_mem hold rfl)
      · rw [List.mem_singleton.mp hnew]
        exact Or.inr ⟨hsome, rfl, rfl⟩
  | emit name d => exact Or.inl (mem_next_emit h ht)
  | place name offset =>
    rcases mem_change h ht with ⟨hmem, _⟩ | ⟨s, hs, rfl⟩
    · exact Or.inl (continues_of_mem hmem rfl)
    · exact Or.inl (continues_of_place ((get_eq_ok_iff h).mp hs).1 rfl offset)
  | enter dispatcher target => exact mem_next_enter ht
  | placeAll =>
    obtain ⟨s, hs, o, rfl⟩ := mem_placeFrom ht
    exact Or.inl (continues_of_place hs rfl o)
  | allocate request => exact Or.inl (continues_of_mem ht rfl)
  | link => exact Or.inl (continues_of_mem ht rfl)
  | assemble => exact Or.inl (continues_of_mem ht rfl)

/-- The memory takes part in an action only by serving its request. -/
theorem memory_next (p : Program) (a : Action) :
    (p.next a).memory = p.memory.run a.request?.toList := by
  cases a with
  | allocate request => rfl
  | create name =>
    rcases p.next_create_cases name with ⟨_, _, hnext⟩ | ⟨_, _, hnext⟩ <;> rw [hnext] <;> rfl
  | enter dispatcher target =>
    rcases p.next_enter_cases dispatcher target with ⟨_, hnext, _⟩ | ⟨_, _, e, hnext, _⟩ <;>
      rw [hnext] <;> rfl
  | emit name d =>
    rw [next, perform, memory_change]
    rfl
  | place name offset =>
    rw [next, place, memory_change]
    rfl
  | placeAll => rfl
  | link => rfl
  | assemble => rfl

theorem memory_run (p : Program) (actions : List Action) :
    (p.run actions).memory = p.memory.run (actions.filterMap Action.request?) := by
  induction actions generalizing p with
  | nil => rfl
  | cons a rest ih =>
    have hnext := p.memory_next a
    change ((p.next a).run rest).memory = _
    cases hrequest : a.request? with
    | none =>
      rw [hrequest] at hnext
      rw [ih, hnext, List.filterMap_cons_none hrequest]
      rfl
    | some request =>
      rw [hrequest] at hnext
      rw [ih, hnext, List.filterMap_cons_some hrequest]
      rfl

theorem registers_next (p : Program) (a : Action) :
    (p.next a).memory.registers = p.memory.registers := by
  rw [p.memory_next a]
  exact Memory.run_keeps (f := Memory.registers) (fun _ _ _ _ => rfl) p.memory _

structure Coherent (p : Program) : Prop where
  distinct : p.names.Nodup
  registers : ∀ s ∈ p.segments, s.registers = p.memory.registers

theorem ofSettings_coherent (s : Settings) : (ofSettings s).Coherent :=
  ⟨List.nodup_nil, fun _ h => absurd h List.not_mem_nil⟩

theorem next_coherent {p : Program} (h : p.Coherent) (a : Action) : (p.next a).Coherent := by
  refine ⟨nodup_names_next h.distinct a, ?_⟩
  intro t ht
  rw [p.registers_next a]
  rcases mem_next h.distinct ht with ⟨s, hs, _, hregisters, _⟩ | ⟨_, hregisters, _⟩
  · rw [hregisters]
    exact h.registers s hs
  · exact hregisters

theorem run_coherent {p : Program} (h : p.Coherent) (actions : List Action) :
    (p.run actions).Coherent := by
  induction actions generalizing p with
  | nil => exact h
  | cons a rest ih => exact ih (next_coherent h a)

theorem mem_names_run (p : Program) (actions : List Action) (name : String) :
    name ∈ (p.run actions).names ↔ name ∈ p.names ∨ name ∈ p.created actions := by
  induction actions generalizing p with
  | nil => simp [run, created]
  | cons a rest ih =>
    have hrest : name ∈ (p.run (a :: rest)).names ↔
        name ∈ (p.next a).names ∨ name ∈ (p.next a).created rest := ih (p.next a)
    rw [hrest, mem_names_next, created, List.mem_append, Option.mem_toList, or_assoc]

def codeOf (p : Program) (name : String) : List Instruction :=
  match p.get name with
  | .ok s => s.code
  | .error _ => []

theorem get_isOk_iff {p : Program} (h : p.names.Nodup) (name : String) :
    (∃ s, p.get name = .ok s) ↔ name ∈ p.names := by
  constructor
  · rintro ⟨s, hs⟩
    obtain ⟨hmem, rfl⟩ := (get_eq_ok_iff h).mp hs
    exact List.mem_map_of_mem hmem
  · intro hmem
    obtain ⟨s, hs, hname⟩ := List.mem_map.mp hmem
    exact ⟨s, (get_eq_ok_iff h).mpr ⟨hs, hname⟩⟩

theorem codeOf_of_get {p : Program} {name : String} {s : Segment} (h : p.get name = .ok s) :
    p.codeOf name = s.code := by
  rw [codeOf, h]

theorem get_of_not_mem {p : Program} {name : String} (h : name ∉ p.names) :
    p.get name = .error (.noSuchSegment name) := by
  rw [get, position?_eq_none_iff.mpr h]
  rfl

theorem codeOf_of_not_mem {p : Program} {name : String} (h : name ∉ p.names) :
    p.codeOf name = [] := by
  rw [codeOf, get_of_not_mem h]

theorem emits_of_not_mem {p : Program} {a : Action} {name : String}
    (h : name ∉ (p.next a).names) : p.emits name a = [] := by
  rw [mem_names_next, not_or] at h
  obtain ⟨hold, hnew⟩ := h
  cases a with
  | emit receiver d =>
    rw [emits]
    split
    · rename_i heq
      rw [heq, get_of_not_mem hold]
    · rfl
  | enter dispatcher target =>
    rcases p.next_enter_cases dispatcher target with ⟨_, _, hemits⟩ | ⟨_, hsome, e, _, hemits⟩
    · exact hemits name
    · rw [hemits, if_neg]
      intro heq
      exact hnew (hsome.trans (congrArg some heq))
  | _ => rfl

theorem codeOf_next {p : Program} (h : p.names.Nodup) (a : Action) (name : String) :
    (p.next a).codeOf name = p.codeOf name ++ p.emits name a := by
  by_cases hmem : name ∈ (p.next a).names
  · have hnodup := nodup_names_next h a
    obtain ⟨t, ht⟩ := (get_isOk_iff hnodup name).mpr hmem
    obtain ⟨htmem, rfl⟩ := (get_eq_ok_iff hnodup).mp ht
    rw [codeOf_of_get ht]
    rcases mem_next h htmem with ⟨s, hs, hname, _, hcode⟩ | ⟨hnew, _, hcode⟩
    · rw [hname, codeOf_of_get ((get_eq_ok_iff h).mpr ⟨hs, rfl⟩), hcode]
    · have hfree : t.name ∉ p.names := by
        rcases p.names_next a with ⟨hnone, _⟩ | ⟨new, hsome, hfree, _⟩
        · cases hnone.symm.trans hnew
        · cases hsome.symm.trans hnew
          exact hfree
      rw [codeOf_of_not_mem hfree, hcode, List.nil_append]
  · have hold : name ∉ p.names := fun hp => hmem ((p.mem_names_next a name).mpr (Or.inl hp))
    rw [codeOf_of_not_mem hmem, codeOf_of_not_mem hold, emits_of_not_mem hmem, List.append_nil]

/-- Through any actions, the code behind a name grows by what is emitted through that name. -/
theorem codeOf_run {p : Program} (h : p.names.Nodup) (actions : List Action) (name : String) :
    (p.run actions).codeOf name = p.codeOf name ++ p.emitted name actions := by
  induction actions generalizing p with
  | nil => exact (List.append_nil _).symm
  | cons a rest ih =>
    have hrest : (p.run (a :: rest)).codeOf name =
        (p.next a).codeOf name ++ (p.next a).emitted name rest := ih (nodup_names_next h a)
    rw [hrest, codeOf_next h, emitted, List.append_assoc]

end Program

end Assembler
