import Assembler.Proofs.Program.Names

/-! Positions kept in an index. Looking a name up in an index that is updated along the way gives
the same program as searching for the name each time, although every entry of the index is out of
date once a dispatcher has been put in front. -/

namespace Assembler

structure Indexed where
  program : Program
  index : NameIndex

def NameIndex.enterFrom (i : Nat) : List Segment → NameIndex → NameIndex
  | [], index => index
  | s :: rest, index => enterFrom (i + 1) rest ((s.name, i) :: index)

namespace Indexed

def get (x : Indexed) (name : String) : Except Fault Segment :=
  match (x.index.lookup name).bind (x.program.segments[·]?) with
  | some s => .ok s
  | none => .error (.noSuchSegment name)

def create (x : Indexed) (name : String) : Indexed :=
  match x.index.lookup name with
  | some _ => x
  | none =>
    ⟨{ x.program with
        segments := x.program.segments ++ [.empty name x.program.memory.registers] },
      (name, x.program.segments.length) :: x.index⟩

def change (x : Indexed) (name : String) (f : Segment → Segment) : Indexed :=
  match x.index.lookup name with
  | none => x
  | some i => { x with program.segments := x.program.segments.modify i f }

/-- The index is made anew when a dispatcher has moved all segments. -/
def enter (x : Indexed) (dispatcher target : String) : Indexed :=
  match x.index.lookup dispatcher, x.index.lookup target with
  | none, some i =>
    let jump := Program.dispatcherCode (segmentsSize (x.program.segments.take i))
    match jump.outcome with
    | .ok _ =>
      let moved := x.program.withHead dispatcher jump.code
      ⟨moved.placeAll, NameIndex.enterFrom 0 moved.segments []⟩
    | .error _ => x
  | _, _ => x

def next (x : Indexed) : Action → Indexed
  | .create name => x.create name
  | .emit name d => x.change name fun s => (s.perform d).1
  | .place name offset => x.change name fun s => s.place offset
  | .enter dispatcher target => x.enter dispatcher target
  | a => { x with program := x.program.next a }

def run (x : Indexed) (actions : List Action) : Indexed := actions.foldl next x

def ofSettings (s : Settings) : Indexed := ⟨.ofSettings s, []⟩

def Current (x : Indexed) : Prop := ∀ name, x.index.lookup name = x.program.position? name

end Indexed

theorem NameIndex.lookup_enterFrom {segments : List Segment}
    (h : (segments.map Segment.name).Nodup) (i : Nat) (index : NameIndex) (name : String) :
    (enterFrom i segments index).lookup name =
      ((segments.findIdx? (·.name == name)).map (i + ·)).or (index.lookup name) := by
  induction segments generalizing i index with
  | nil => rfl
  | cons s rest ih =>
    obtain ⟨hs, hrest⟩ := List.nodup_cons.mp h
    rw [enterFrom, ih hrest, List.findIdx?_cons]
    by_cases hname : s.name = name
    · have hnone : rest.findIdx? (·.name == name) = none := by
        rw [List.findIdx?_eq_none_iff]
        intro t ht
        simpa using fun heq => hs (List.mem_map.mpr ⟨t, ht, heq.trans hname.symm⟩)
      simp [hnone, hname]
    · have hne : (name == s.name) = false := by simpa using Ne.symm hname
      rw [List.lookup_cons, hne]
      simp [hname, Option.map_map, Function.comp_def, Nat.add_assoc, Nat.add_comm 1]

namespace Indexed

open Program

theorem Current.lookup_eq_none_iff {x : Indexed} (h : x.Current) (name : String) :
    x.index.lookup name = none ↔ name ∉ x.program.names := by
  rw [h name]
  exact position?_eq_none_iff

theorem Current.of_names {x : Indexed} (h : x.Current) {q : Program}
    (hnames : q.names = x.program.names) : (Indexed.mk q x.index).Current := by
  intro name
  rw [position?_eq_of_names hnames name]
  exact h name

theorem create_current {x : Indexed} (h : x.Current) (name : String) :
    (x.create name).program = x.program.next (.create name) ∧ (x.create name).Current := by
  rcases x.program.next_create_cases name with ⟨hbound, _, hnext⟩ | ⟨hfree, _, hnext⟩
  · have hsame : x.create name = x := by
      cases hlookup : x.index.lookup name with
      | none => exact absurd hbound ((h.lookup_eq_none_iff name).mp hlookup)
      | some i => rw [create, hlookup]
    rw [hsame, hnext]
    exact ⟨rfl, h⟩
  · have hnone := (h.lookup_eq_none_iff name).mpr hfree
    rw [create, hnone, hnext]
    refine ⟨rfl, ?_⟩
    intro other
    have hold : x.index.lookup other = x.program.segments.findIdx? (·.name == other) := h other
    rw [position?, List.findIdx?_append, ← hold]
    by_cases hname : name = other
    · subst other
      rw [hnone]
      simp [Segment.empty]
    · have hne : (other == name) = false := by simpa using Ne.symm hname
      rw [List.lookup_cons, hne]
      simp [Segment.empty, hname]

theorem change_program {α : Type} {x : Indexed} (h : x.Current) (name : String)
    (f : Segment → Segment × Except Fault α) :
    (x.change name fun s => (f s).1).program = (x.program.change name f).1 := by
  cases hi : x.program.position? name with
  | none =>
    have hlookup := (h name).trans hi
    rw [change, hlookup, change_of_position?_none hi]
  | some i =>
    have hlookup := (h name).trans hi
    obtain ⟨⟨s, hs, _⟩, _⟩ := position?_eq_some_iff.mp hi
    obtain ⟨hlt, rfl⟩ := List.getElem?_eq_some_iff.mp hs
    have hmodify := List.modify_eq_set_get (fun s => (f s).1) hlt
    rw [change, hlookup, change_of_position? hi hs]
    dsimp only
    rw [hmodify]
    rfl

theorem change_index (x : Indexed) (name : String) (f : Segment → Segment) :
    (x.change name f).index = x.index := by
  unfold change
  split <;> rfl

theorem change_current {α : Type} {x : Indexed} (h : x.Current) (name : String)
    {f : Segment → Segment × Except Fault α} (hf : ∀ s, (f s).1.name = s.name) :
    (x.change name fun s => (f s).1).Current := by
  intro other
  rw [change_index, change_program h name f, h other]
  exact (position?_eq_of_names (x.program.names_change name hf) other).symm

theorem enter_fails {x : Indexed} (h : x.Current) {dispatcher target : String} {fault : Fault}
    (hfail : x.program.addEntry dispatcher target = .error fault) :
    x.enter dispatcher target = x := by
  rw [enter, h dispatcher, h target]
  cases hd : x.program.position? dispatcher with
  | some j => rfl
  | none =>
    cases hi : x.program.position? target with
    | none => rfl
    | some i =>
      rw [addEntry_eq hd hi] at hfail
      dsimp only
      cases hjump : (dispatcherCode (segmentsSize (x.program.segments.take i))).outcome with
      | error fault => rfl
      | ok e =>
        rw [hjump] at hfail
        cases hfail

theorem enter_succeeds {x : Indexed} (h : x.Current) {dispatcher target : String} {e : Nat}
    {q : Program} (hadd : x.program.addEntry dispatcher target = .ok (e, q)) :
    ∃ code, q = (x.program.withHead dispatcher code).placeAll ∧
      x.enter dispatcher target =
        ⟨q, NameIndex.enterFrom 0 (x.program.withHead dispatcher code).segments []⟩ := by
  obtain ⟨hfree, i, _, hi, _⟩ := addEntry_ok hadd
  have hd := position?_eq_none_iff.mpr hfree
  rw [addEntry_eq hd hi] at hadd
  rw [enter, h dispatcher, h target, hd, hi]
  dsimp only
  cases hjump : (dispatcherCode (segmentsSize (x.program.segments.take i))).outcome with
  | error fault =>
    rw [hjump] at hadd
    cases hadd
  | ok entry =>
    rw [hjump] at hadd
    cases hadd
    exact ⟨_, rfl, rfl⟩

theorem enter_current {x : Indexed} (hnames : x.program.names.Nodup) (h : x.Current)
    (dispatcher target : String) :
    (x.enter dispatcher target).program = x.program.next (.enter dispatcher target) ∧
      (x.enter dispatcher target).Current := by
  cases hadd : x.program.addEntry dispatcher target with
  | error fault =>
    rw [enter_fails h hadd, Program.next, hadd]
    exact ⟨rfl, h⟩
  | ok result =>
    obtain ⟨e, q⟩ := result
    obtain ⟨code, hq, henter⟩ := enter_succeeds h hadd
    rw [henter, Program.next, hadd]
    refine ⟨rfl, ?_⟩
    have hdistinct : ((x.program.withHead dispatcher code).segments.map Segment.name).Nodup :=
      List.nodup_cons.mpr ⟨(addEntry_ok hadd).1, hnames⟩
    intro name
    rw [NameIndex.lookup_enterFrom hdistinct, hq, placeAll_position?, position?]
    simp

theorem next_current {x : Indexed} (hnames : x.program.names.Nodup) (h : x.Current) (a : Action) :
    (x.next a).program = x.program.next a ∧ (x.next a).Current := by
  cases a with
  | create name => exact create_current h name
  | emit name d =>
    exact ⟨change_program h name (·.perform d), change_current h name fun _ => rfl⟩
  | place name offset =>
    let f : Segment → Segment × Except Fault Unit := fun s => (s.place offset, .ok ())
    exact ⟨change_program h name f, change_current h name (f := f) fun _ => rfl⟩
  | enter dispatcher target => exact enter_current hnames h dispatcher target
  | placeAll => exact ⟨rfl, h.of_names (map_placeFrom (fun _ _ => rfl) 0 x.program.segments)⟩
  | allocate request => exact ⟨rfl, h.of_names rfl⟩
  | link => exact ⟨rfl, h.of_names rfl⟩
  | assemble => exact ⟨rfl, h.of_names rfl⟩

theorem run_current {x : Indexed} (hnames : x.program.names.Nodup) (h : x.Current)
    (actions : List Action) :
    (x.run actions).program = x.program.run actions ∧ (x.run actions).Current := by
  induction actions generalizing x with
  | nil => exact ⟨rfl, h⟩
  | cons a rest ih =>
    obtain ⟨hprogram, hcurrent⟩ := next_current hnames h a
    have hnext : (x.next a).program.names.Nodup := by
      rw [hprogram]
      exact nodup_names_next hnames a
    obtain ⟨hrun, hlast⟩ := ih hnext hcurrent
    refine ⟨?_, hlast⟩
    rw [hprogram] at hrun
    exact hrun

theorem Current.get_eq {x : Indexed} (h : x.Current) (name : String) :
    x.get name = x.program.get name := by
  rw [get, h name]
  rfl

end Indexed

/-- A name keeps its segment. After any actions, failing ones among them, names are distinct, and
an index that was kept along the way has led every action to the segment of its name: the program
is the same, and the index knows the position of each segment, those that dispatchers have moved
included. The names that were created are those that are found, each with the code that was emitted
through it and nothing else, and all segments have the registers of the memory. -/
theorem Program.names_keep_their_segments (s : Settings) (actions : List Action) :
    let p := (ofSettings s).run actions
    let x := (Indexed.ofSettings s).run actions
    x.program = p ∧ p.names.Nodup ∧
    (∀ (name : String) (i : Nat), x.index.lookup name = some i ↔
      ∃ t, p.segments[i]? = some t ∧ t.name = name) ∧
    (∀ name, x.get name = p.get name) ∧
    (∀ name, (∃ t, p.get name = .ok t) ↔ name ∈ (ofSettings s).created actions) ∧
    (∀ name t, p.get name = .ok t →
      t.name = name ∧ t.code = (ofSettings s).emitted name actions) ∧
    ∀ t ∈ p.segments, t.registers = p.memory.registers := by
  intro p x
  have hcoherent : p.Coherent := run_coherent (ofSettings_coherent s) actions
  have hdistinct := hcoherent.distinct
  obtain ⟨hprogram, hcurrent⟩ : x.program = p ∧ x.Current :=
    Indexed.run_current (x := Indexed.ofSettings s) List.nodup_nil (fun _ => rfl) actions
  refine ⟨hprogram, hdistinct, ?_, ?_, ?_, ?_, hcoherent.registers⟩
  · intro name i
    rw [hcurrent name, hprogram]
    exact position?_iff_of_nodup hdistinct
  · intro name
    rw [hcurrent.get_eq, hprogram]
  · intro name
    rw [get_isOk_iff hdistinct, mem_names_run]
    exact or_iff_right List.not_mem_nil
  · intro name t ht
    refine ⟨((get_eq_ok_iff hdistinct).mp ht).2, ?_⟩
    rw [← codeOf_of_get ht, codeOf_run (p := ofSettings s) List.nodup_nil]
    exact List.nil_append _

end Assembler
