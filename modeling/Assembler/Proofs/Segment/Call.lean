import Assembler.Proofs.Segment.Encodable

/-! The code of a call, instruction by instruction. Its return address is computed before any of it
is emitted, from sizes predicted for each kind of target, and is the position of the landing point
that the emission then reaches. -/

namespace Assembler

/-- Code that leaves a jump target on the stack: a value is pushed, what a place holds is loaded
from its address. -/
def Operand.FetchedBy : Operand → List Instruction → Prop
  | .value w, code => ∃ i : Instruction, i.Pushes w ∧ code = [i]
  | .place view, code => ∃ i : Instruction, i.Pushes (.ofNat view.addr) ∧ code = [i, .plain .mload]

theorem Operand.FetchedBy.stackChange {dest : Operand} {code : List Instruction}
    (h : dest.FetchedBy code) : Assembler.stackChange code = 1 := by
  cases dest with
  | value w =>
    obtain ⟨i, hi, rfl⟩ := h
    simp [Assembler.stackChange, hi.stackChange]
  | place view =>
    obtain ⟨i, hi, rfl⟩ := h
    have hload : (Instruction.plain .mload).opcode.stackChange = 0 := rfl
    simp [Assembler.stackChange, hi.stackChange, hload]

namespace Emission

theorem target_fetches {dest : Operand} (hvalue : ∀ w, dest = .value w → w.size ≤ 32)
    (hplace : ∀ view, dest = .place view → view.addr < addressSpace) :
    ∃ fetch, dest.FetchedBy fetch ∧ target (some dest) = ⟨fetch, .ok ()⟩ := by
  cases dest with
  | value w =>
    obtain ⟨i, hi, hpush⟩ := push_pushes (hvalue w rfl)
    exact ⟨[i], ⟨i, hi, rfl⟩, hpush⟩
  | place view =>
    obtain ⟨i, hi, hpush⟩ := pushNat_pushes (hplace view rfl)
    refine ⟨[i, .plain .mload], ⟨i, hi, rfl⟩, ?_⟩
    have haddress : address (some (.place view)) = ⟨[i], .ok ()⟩ := hpush
    rw [target, load, haddress]
    rfl

variable {position : Nat} {slot : Cell} {dest : Operand} {back store : Instruction}

theorem call_of_target_ok
    (hback : push (returnAddress position slot dest).word = ⟨[back], .ok ()⟩)
    (hstore : pushNat slot.addr = ⟨[store], .ok ()⟩) {fetch : List Instruction}
    (hfetch : target (some dest) = ⟨fetch, .ok ()⟩) :
    call position slot dest =
      ⟨[back, store, .plain .mstore] ++ (fetch ++ [.plain .jump]) ++ [.plain .jumpDest],
        .ok (returnAddress position slot dest).value⟩ := by
  have hjump : jump (some dest) = ⟨fetch ++ [.plain .jump], .ok ()⟩ := by
    rw [jump, hfetch]
    rfl
  rw [call, hback, hstore, hjump]
  rfl

theorem call_lands
    (hback : push (returnAddress position slot dest).word = ⟨[back], .ok ()⟩)
    (hstore : pushNat slot.addr = ⟨[store], .ok ()⟩) {fetch : List Instruction}
    (hfetch : target (some dest) = ⟨fetch, .ok ()⟩) :
    position + codeSize ([back, store, .plain .mstore] ++ (fetch ++ [.plain .jump])) =
      (returnAddress position slot dest).value := by
  have hcall := call_of_target_ok hback hstore hfetch
  obtain ⟨body, hcode, hr⟩ := call_ok (congrArg outcome hcall)
  have hbody : [back, store, .plain .mstore] ++ (fetch ++ [.plain .jump]) =
      body ++ [.plain .jump] := by
    rw [hcall] at hcode
    have hends : [back, store, .plain .mstore] ++ (fetch ++ [.plain .jump]) ++ [.plain .jumpDest] =
        body ++ [.plain .jump] ++ [.plain .jumpDest] := by simpa using hcode
    exact List.append_cancel_right hends
  rw [hbody, hr]

theorem call_of_target_error
    (hback : push (returnAddress position slot dest).word = ⟨[back], .ok ()⟩)
    (hstore : pushNat slot.addr = ⟨[store], .ok ()⟩) {fault : Fault}
    (hfetch : target (some dest) = fail fault) :
    call position slot dest = ⟨[back, store, .plain .mstore], .error fault⟩ := by
  rw [call, hback, hstore, jump, hfetch]
  rfl

end Emission

theorem stackChange_call {back store : Instruction} {fetch : List Instruction} {r : Nat}
    {slot : Cell} {dest : Operand} (hback : back.Pushes (.ofNat r))
    (hstore : store.Pushes (.ofNat slot.addr)) (hfetch : dest.FetchedBy fetch) :
    stackChange ([back, store, .plain .mstore] ++ (fetch ++ [.plain .jump]) ++
      [.plain .jumpDest]) = 0 := by
  have hmstore : (Instruction.plain .mstore).opcode.stackChange = -2 := rfl
  have hjump : (Instruction.plain .jump).opcode.stackChange = -1 := rfl
  have hland : (Instruction.plain .jumpDest).opcode.stackChange = 0 := rfl
  simp only [stackChange_append, stackChange, hback.stackChange, hstore.stackChange,
    hfetch.stackChange]
  omega

namespace Segment

theorem perform_call_unplaced {s : Segment} (h : s.offset = none) (slot : Cell) (dest : Operand) :
    s.perform (.call slot dest) = (s, .error (.unplacedSegment s.name)) := by
  have hemission : s.emission (.call slot dest) = .fail (.unplacedSegment s.name) := by
    rw [emission, h]
  rw [perform, hemission]
  simp [Emission.fail]

theorem perform_call_placed {s : Segment} {offset : Nat} (h : s.offset = some offset) {slot : Cell}
    {dest : Operand} {code : List Instruction} {outcome : Except Fault Nat}
    (hcall : Emission.call (offset + s.size) slot dest = ⟨code, outcome⟩) :
    s.perform (.call slot dest) = ({ s with code := s.code ++ code }, outcome.map some) := by
  rw [perform, emission_call h, hcall]
  rfl

/-- A call in full. Unplaced, it fails and emits nothing. Placed, it emits its sequence, ends where
its return address says and leaves the stack as high as it was. A target too wide to push stops it
behind the store of the return address. Only overflow of an address is left out. -/
theorem call_emits_return_sequence (s : Segment) (slot : Cell) (dest : Operand)
    (hslot : slot.addr < addressSpace)
    (hplace : ∀ view, dest = .place view → view.addr < addressSpace) :
    (s.offset = none →
      s.perform (.call slot dest) = (s, .error (.unplacedSegment s.name))) ∧
    ∀ offset, s.offset = some offset →
      (Emission.returnAddress (offset + s.size) slot dest).value < addressSpace →
      ((∀ w, dest = .value w → w.size ≤ 32) →
        ∃ (r : Nat) (back store : Instruction) (fetch front : List Instruction),
          back.Pushes (.ofNat r) ∧ store.Pushes (.ofNat slot.addr) ∧ dest.FetchedBy fetch ∧
          front = s.code ++ ([back, store, .plain .mstore] ++ (fetch ++ [.plain .jump])) ∧
          s.perform (.call slot dest) =
            ({ s with code := front ++ [.plain .jumpDest] }, .ok (some r)) ∧
          offset + codeSize front = r ∧
          stackChange (s.perform (.call slot dest)).1.code = stackChange s.code) ∧
      ∀ w, dest = .value w → 32 < w.size →
        ∃ (r : Nat) (back store : Instruction),
          back.Pushes (.ofNat r) ∧ store.Pushes (.ofNat slot.addr) ∧
          s.perform (.call slot dest) =
            ({ s with code := s.code ++ [back, store, .plain .mstore] },
              .error (.valueTooWide w.size 32)) := by
  refine ⟨fun h => perform_call_unplaced h slot dest, fun offset hoffset hroom => ?_⟩
  obtain ⟨back, hback, hpushback⟩ := Emission.pushNat_pushes hroom
  obtain ⟨store, hstore, hpushstore⟩ := Emission.pushNat_pushes hslot
  constructor
  · intro hvalue
    obtain ⟨fetch, hfetch, htarget⟩ := Emission.target_fetches hvalue hplace
    have hcall := Emission.call_of_target_ok hpushback hpushstore htarget
    have hperform := perform_call_placed hoffset hcall
    rw [← List.append_assoc] at hperform
    refine ⟨_, back, store, fetch, _, hback, hstore, hfetch, rfl, hperform, ?_, ?_⟩
    · rw [codeSize_append, ← Nat.add_assoc]
      exact Emission.call_lands hpushback hpushstore htarget
    · rw [hperform, List.append_assoc, stackChange_append, stackChange_call hback hstore hfetch,
        Int.add_zero]
  · rintro w rfl hwide
    have htarget := Emission.push_of_wide (show ¬ w.size < 33 by omega)
    have hcall := Emission.call_of_target_error hpushback hpushstore htarget
    exact ⟨_, back, store, hback, hstore, perform_call_placed hoffset hcall⟩

/-- A call through a table, from code that stands right in front of byte 255: the return address
takes a second byte only because of its own width. -/
theorem call_emits_return_sequence_across_a_byte :
    let s : Segment := ⟨"main", List.replicate 240 (.plain .stop), some 7, ⟨0, 4⟩⟩
    let slot : Cell := ⟨"back", 64, 32⟩
    let dest : Operand := .place (.grid (.contiguous "table" 96 32 [2]))
    (slot.addr < addressSpace ∧ (Grid.contiguous "table" 96 32 [2]).addr < addressSpace ∧
      (Emission.returnAddress (7 + s.size) slot dest).value < addressSpace) ∧
    ∃ (back store : Instruction) (fetch front : List Instruction),
      back.Pushes (.ofNat 257) ∧ store.Pushes (.ofNat 64) ∧ dest.FetchedBy fetch ∧
      front = s.code ++ ([back, store, .plain .mstore] ++ (fetch ++ [.plain .jump])) ∧
      s.perform (.call slot dest) =
        ({ s with code := front ++ [.plain .jumpDest] }, .ok (some 257)) ∧
      7 + codeSize front = 257 := by
  intro s slot dest
  have hslot : slot.addr < addressSpace := by decide
  have hgrid : (Grid.contiguous "table" 96 32 [2]).addr < addressSpace := by decide
  have hplace : ∀ view, dest = .place view → view.addr < addressSpace := by
    intro view hview
    rw [← Operand.place.inj hview]
    exact hgrid
  have hroom : (Emission.returnAddress (7 + s.size) slot dest).value < addressSpace := by
    decide +kernel
  have hdone : (s.perform (.call slot dest)).2 = .ok (some 257) := by decide +kernel
  obtain ⟨r, back, store, fetch, front, hback, hstore, hfetch, hfront, hperform, hr, _⟩ :=
    ((call_emits_return_sequence s slot dest hslot hplace).2 7 rfl hroom).1
      (fun _ hvalue => Operand.noConfusion hvalue)
  rw [hperform] at hdone
  cases hdone
  exact ⟨⟨hslot, hgrid, hroom⟩, back, store, fetch, front, hback, hstore, hfetch, hfront, hperform,
    hr⟩

end Segment

end Assembler
