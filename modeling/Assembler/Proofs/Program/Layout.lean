import Assembler.Program.Basic
import Assembler.Proofs.Instruction.RoundTrip

/-! Where segments stand. Placing puts each segment at the sum of the sizes before it, which is
where its code begins in the flat code and its bytes begin in the assembled program. -/

namespace Assembler

theorem codeSize_flatMap_code (segments : List Segment) :
    codeSize (segments.flatMap Segment.code) = segmentsSize segments := by
  induction segments with
  | nil => rfl
  | cons s rest ih => rw [List.flatMap_cons, codeSize_append, ih, segmentsSize, Segment.size]

theorem segmentsSize_take_le (segments : List Segment) (i : Nat) :
    segmentsSize (segments.take i) ≤ segmentsSize segments := by
  induction segments generalizing i with
  | nil => simp
  | cons s rest ih =>
    cases i with
    | zero => simp [segmentsSize]
    | succ i => exact Nat.add_le_add_left (ih i) _

/-- Placing changes nothing but the positions. -/
theorem map_placeFrom {α : Type} {f : Segment → α} (hf : ∀ s offset, f (s.place offset) = f s)
    (offset : Nat) (segments : List Segment) :
    (placeFrom offset segments).map f = segments.map f := by
  induction segments generalizing offset with
  | nil => rfl
  | cons s rest ih => rw [placeFrom, List.map_cons, List.map_cons, hf, ih]

theorem segmentsSize_placeFrom (offset : Nat) (segments : List Segment) :
    segmentsSize (placeFrom offset segments) = segmentsSize segments := by
  have hcode := map_placeFrom (f := Segment.code) (fun _ _ => rfl) offset segments
  rw [← codeSize_flatMap_code, ← codeSize_flatMap_code, List.flatMap_def, List.flatMap_def, hcode]

theorem getElem?_placeFrom (offset : Nat) (segments : List Segment) (i : Nat) :
    (placeFrom offset segments)[i]? =
      segments[i]?.map (·.place (offset + segmentsSize (segments.take i))) := by
  induction segments generalizing offset i with
  | nil => rfl
  | cons s rest ih =>
    cases i with
    | zero => simp [placeFrom, segmentsSize]
    | succ i => simp [placeFrom, segmentsSize, ih, Nat.add_assoc]

theorem take_placeFrom (offset : Nat) (segments : List Segment) (i : Nat) :
    (placeFrom offset segments).take i = placeFrom offset (segments.take i) := by
  induction segments generalizing offset i with
  | nil => simp [placeFrom]
  | cons s rest ih =>
    cases i with
    | zero => rfl
    | succ i => rw [placeFrom, List.take_succ_cons, List.take_succ_cons, placeFrom, ih]

theorem flatMap_code_split {segments : List Segment} {i : Nat} {s : Segment}
    (h : segments[i]? = some s) :
    segments.flatMap Segment.code =
      (segments.take i).flatMap Segment.code ++
        (s.code ++ (segments.drop (i + 1)).flatMap Segment.code) := by
  obtain ⟨hi, rfl⟩ := List.getElem?_eq_some_iff.mp h
  rw [← List.flatMap_cons, ← List.drop_eq_getElem_cons hi, ← List.flatMap_append,
    List.take_append_drop]

namespace Program

def Placed (p : Program) : Prop :=
  ∀ i s, p.segments[i]? = some s → s.offset = some (segmentsSize (p.segments.take i))

theorem placeAll_placed (p : Program) : p.placeAll.Placed := by
  intro i s h
  rw [placeAll, getElem?_placeFrom] at h
  obtain ⟨t, _, rfl⟩ := Option.map_eq_some_iff.mp h
  rw [placeAll, take_placeFrom, segmentsSize_placeFrom, Nat.zero_add]
  rfl

theorem position?_eq_some_iff {p : Program} {name : String} {i : Nat} :
    p.position? name = some i ↔
      (∃ s, p.segments[i]? = some s ∧ s.name = name) ∧
        ∀ j < i, ∀ s, p.segments[j]? = some s → s.name ≠ name := by
  rw [position?, List.findIdx?_eq_some_iff_getElem]
  constructor
  · rintro ⟨hi, hname, hfirst⟩
    refine ⟨⟨_, List.getElem?_eq_getElem hi, by simpa using hname⟩, ?_⟩
    intro j hj s hs
    obtain ⟨_, rfl⟩ := List.getElem?_eq_some_iff.mp hs
    simpa using hfirst j hj
  · rintro ⟨⟨s, hs, hname⟩, hfirst⟩
    obtain ⟨hi, rfl⟩ := List.getElem?_eq_some_iff.mp hs
    refine ⟨hi, by simpa using hname, ?_⟩
    intro j hj
    simpa using hfirst j hj _ (List.getElem?_eq_getElem (hj.trans hi))

theorem position?_eq_none_iff {p : Program} {name : String} :
    p.position? name = none ↔ name ∉ p.segments.map Segment.name := by
  rw [position?, List.findIdx?_eq_none_iff, List.mem_map]
  constructor
  · rintro h ⟨s, hs, rfl⟩
    simpa using h s hs
  · intro h s hs
    simpa using fun hname => h ⟨s, hs, hname⟩

theorem position?_eq_of_names {p q : Program}
    (h : p.segments.map Segment.name = q.segments.map Segment.name) (name : String) :
    p.position? name = q.position? name := by
  have hfind : ∀ segments : List Segment, segments.findIdx? (·.name == name) =
      (segments.map Segment.name).findIdx? (· == name) := by
    intro segments
    rw [List.findIdx?_map]
    rfl
  rw [position?, position?, hfind, hfind, h]

theorem get_of_position? {p : Program} {name : String} {i : Nat} {s : Segment}
    (hi : p.position? name = some i) (hs : p.segments[i]? = some s) : p.get name = .ok s := by
  rw [get, hi, Option.bind_some, hs]

theorem Placed.offset {p : Program} (h : p.Placed) {name : String} {i : Nat}
    (hi : p.position? name = some i) :
    p.offset name = .ok (segmentsSize (p.segments.take i)) := by
  obtain ⟨⟨s, hs, _⟩, _⟩ := position?_eq_some_iff.mp hi
  simp only [Program.offset, get_of_position? hi hs, bind, Except.bind, h i s hs]

theorem link_code (p : Program) : p.link.code = p.segments.flatMap Segment.code := rfl

theorem assemble_split {p : Program} {bytes : List UInt8} (h : p.assemble.2 = .ok bytes) {i : Nat}
    {s : Segment} (hs : p.segments[i]? = some s) :
    ∃ front body later,
      Bytecode.encode s.code = .ok body ∧
      Bytecode.encode ((p.segments.drop (i + 1)).flatMap Segment.code) = .ok later ∧
      bytes = front ++ (body ++ later) ∧ front.length = segmentsSize (p.segments.take i) := by
  change Bytecode.encode p.link.code = .ok bytes at h
  rw [link_code, flatMap_code_split hs] at h
  obtain ⟨front, rest, hfront, hrest, rfl⟩ := Bytecode.encode_append_eq_ok_iff.mp h
  obtain ⟨body, later, hbody, hlater, rfl⟩ := Bytecode.encode_append_eq_ok_iff.mp hrest
  refine ⟨front, body, later, hbody, hlater, rfl, ?_⟩
  rw [Bytecode.length_of_encode hfront, codeSize_flatMap_code]

end Program

end Assembler
