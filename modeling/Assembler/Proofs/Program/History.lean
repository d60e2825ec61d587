import Assembler.Proofs.Program.Layout
import Assembler.Proofs.Storage.Allocation

/-! Histories: the operations of a program one after the other. Creating segments and emitting code
moves nothing that is there. Positions in the program's order stay, and so do offsets, and code
only grows at its end. -/

namespace Assembler

inductive Action where
  | allocate (request : Memory.Request)
  | create (name : String)
  | emit (name : String) (d : Directive)
  | place (name : String) (offset : Nat)
  | placeAll
  | enter (dispatcher target : String)
  | link
  | assemble

def Action.Adds : Action → Prop
  | .create _ | .emit _ _ => True
  | _ => False

instance : DecidablePred Action.Adds
  | .create _ | .emit _ _ => isTrue trivial
  | .allocate _ | .place _ _ | .placeAll | .enter _ _ | .link | .assemble => isFalse id

namespace Program

/-- The program behind an action, whether the action succeeds or fails. -/
def next (p : Program) : Action → Program
  | .allocate request => { p with memory := p.memory.serve request }
  | .create name => settle p (p.addSegment name)
  | .emit name d => (p.perform name d).1
  | .place name offset => (p.place name offset).1
  | .placeAll => p.placeAll
  | .enter dispatcher target => settle p (p.addEntry dispatcher target)
  | .link => p.link
  | .assemble => p.assemble.1

def run (p : Program) (actions : List Action) : Program := actions.foldl next p

theorem run_append (p : Program) (first second : List Action) :
    p.run (first ++ second) = (p.run first).run second := List.foldl_append

end Program

structure Segment.Extends (s t : Segment) : Prop where
  name : t.name = s.name
  offset : t.offset = s.offset
  registers : t.registers = s.registers
  code : s.code <+: t.code

namespace Segment

theorem Extends.refl (s : Segment) : s.Extends s := ⟨rfl, rfl, rfl, List.prefix_rfl⟩

theorem Extends.trans {s t u : Segment} (h : s.Extends t) (k : t.Extends u) : s.Extends u :=
  ⟨k.name.trans h.name, k.offset.trans h.offset, k.registers.trans h.registers,
    h.code.trans k.code⟩

theorem perform_code (s : Segment) (d : Directive) :
    (s.perform d).1.code = s.code ++ (s.emission d).code := rfl

theorem perform_extends (s : Segment) (d : Directive) : s.Extends (s.perform d).1 :=
  ⟨rfl, rfl, rfl, List.prefix_append _ _⟩

end Segment

namespace Program

/-- The segments of `p` stand in `q` where they stood, and those behind them are not placed. -/
structure Grown (p q : Program) : Prop where
  kept : ∀ (i : Nat) (s : Segment), p.segments[i]? = some s →
    ∃ t, q.segments[i]? = some t ∧ s.Extends t
  fresh : ∀ (i : Nat) (t : Segment), p.segments.length ≤ i → q.segments[i]? = some t →
    t.offset = none

theorem Grown.refl (p : Program) : p.Grown p := by
  refine ⟨fun i s hs => ⟨s, hs, .refl s⟩, ?_⟩
  intro i t hi ht
  rw [List.getElem?_eq_none hi] at ht
  cases ht

theorem Grown.extends {p q : Program} (h : p.Grown q) {i : Nat} {s t : Segment}
    (hs : p.segments[i]? = some s) (ht : q.segments[i]? = some t) : s.Extends t := by
  obtain ⟨u, hu, hsu⟩ := h.kept i s hs
  have heq : u = t := Option.some.inj (hu.symm.trans ht)
  exact heq ▸ hsu

theorem Grown.trans {p q r : Program} (h : p.Grown q) (k : q.Grown r) : p.Grown r := by
  constructor
  · intro i s hs
    obtain ⟨t, ht, hst⟩ := h.kept i s hs
    obtain ⟨u, hu, htu⟩ := k.kept i t ht
    exact ⟨u, hu, hst.trans htu⟩
  · intro i u hi hu
    by_cases hq : i < q.segments.length
    · have hold := List.getElem?_eq_getElem hq
      rw [(k.extends hold hu).offset]
      exact h.fresh i _ hi hold
    · exact k.fresh i u (by omega) hu

theorem Grown.position?_of_lt {p q : Program} (h : p.Grown q) {name : String} {i : Nat}
    (hi : q.position? name = some i) (hlt : i < p.segments.length) :
    p.position? name = some i := by
  obtain ⟨⟨t, ht, hname⟩, hfirst⟩ := position?_eq_some_iff.mp hi
  have hold := List.getElem?_eq_getElem hlt
  refine position?_eq_some_iff.mpr ⟨⟨_, hold, (h.extends hold ht).name.symm.trans hname⟩, ?_⟩
  intro j hj s hs
  obtain ⟨u, hu, hsu⟩ := h.kept j s hs
  rw [← hsu.name]
  exact hfirst j hj u hu

theorem change_of_position? {α : Type} {p : Program} {name : String} {i : Nat} {s : Segment}
    (hi : p.position? name = some i) (hs : p.segments[i]? = some s)
    (f : Segment → Segment × Except Fault α) :
    p.change name f = ({ p with segments := p.segments.set i (f s).1 }, (f s).2) := by
  rw [change, hi]
  dsimp only
  rw [hs]

theorem change_of_position?_none {α : Type} {p : Program} {name : String}
    (h : p.position? name = none) (f : Segment → Segment × Except Fault α) :
    p.change name f = (p, .error (.noSuchSegment name)) := by
  rw [change, h]

theorem perform_of_position? {p : Program} {name : String} {i : Nat} {s : Segment}
    (hi : p.position? name = some i) (hs : p.segments[i]? = some s) (d : Directive) :
    p.perform name d =
      ({ p with segments := p.segments.set i (s.perform d).1 }, (s.perform d).2) :=
  change_of_position? hi hs _

theorem perform_of_position?_none {p : Program} {name : String} (h : p.position? name = none)
    (d : Directive) : p.perform name d = (p, .error (.noSuchSegment name)) :=
  change_of_position?_none h _

theorem set_grown {p : Program} {i : Nat} {s t : Segment} (hs : p.segments[i]? = some s)
    (h : s.Extends t) : p.Grown { p with segments := p.segments.set i t } := by
  have hi : i < p.segments.length := (List.getElem?_eq_some_iff.mp hs).1
  constructor
  · intro j u hu
    by_cases hj : i = j
    · subst j
      have heq : s = u := Option.some.inj (hs.symm.trans hu)
      exact ⟨t, List.getElem?_set_self hi, heq ▸ h⟩
    · exact ⟨u, (List.getElem?_set_ne hj).trans hu, .refl u⟩
  · intro j u hj hu
    rw [List.getElem?_eq_none (by simpa using hj)] at hu
    cases hu

theorem perform_grown (p : Program) (name : String) (d : Directive) :
    p.Grown (p.perform name d).1 := by
  cases h : p.position? name with
  | none =>
    rw [perform_of_position?_none h]
    exact .refl p
  | some i =>
    obtain ⟨⟨s, hs, _⟩, _⟩ := position?_eq_some_iff.mp h
    rw [perform_of_position? h hs]
    exact set_grown hs (s.perform_extends d)

theorem addSegment_grown (p : Program) (name : String) :
    p.Grown (settle p (p.addSegment name)) := by
  unfold addSegment
  split
  · exact .refl p
  · constructor
    · intro i s hs
      have hi : i < p.segments.length := (List.getElem?_eq_some_iff.mp hs).1
      exact ⟨s, (List.getElem?_append_left hi).trans hs, .refl s⟩
    · intro i t hi ht
      have hmem := List.mem_of_getElem? ((List.getElem?_append_right hi).symm.trans ht)
      rw [List.mem_singleton.mp hmem]
      rfl

theorem next_grown (p : Program) {a : Action} (h : a.Adds) : p.Grown (p.next a) := by
  cases a with
  | create name => exact p.addSegment_grown name
  | emit name d => exact p.perform_grown name d
  | _ => exact absurd h id

theorem run_grown (p : Program) {actions : List Action} (h : ∀ a ∈ actions, a.Adds) :
    p.Grown (p.run actions) := by
  induction actions generalizing p with
  | nil => exact .refl p
  | cons a rest ih =>
    obtain ⟨ha, hrest⟩ := List.forall_mem_cons.mp h
    exact (p.next_grown ha).trans (ih (p.next a) hrest)

theorem run_take_succ {p : Program} {actions : List Action} {k : Nat} {a : Action}
    (h : actions[k]? = some a) :
    p.run (actions.take (k + 1)) = (p.run (actions.take k)).next a := by
  rw [List.take_add_one, h, run_append]
  rfl

theorem run_take_grown (p : Program) {actions : List Action} (h : ∀ a ∈ actions, a.Adds)
    {j k : Nat} (hjk : j ≤ k) :
    (p.run (actions.take j)).Grown (p.run (actions.take k)) := by
  have hsplit : actions.take k = actions.take j ++ (actions.take k).drop j := by
    rw [← Nat.min_eq_left hjk, ← List.take_take, Nat.min_eq_left hjk, List.take_append_drop]
  rw [hsplit, run_append]
  exact run_grown _ fun a hmem => h a (List.mem_of_mem_take (List.mem_of_mem_drop hmem))

end Program

end Assembler
