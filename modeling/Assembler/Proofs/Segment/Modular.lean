import Assembler.Proofs.Instruction.RoundTrip
import Assembler.Proofs.Segment.Emission
import Mathlib.Data.List.Basic

/-! Register slots in the immediate of a modular instruction. Three bytes are meant to hold three
slots. A slot takes as many bytes as its value needs, and zeros in front of the packed word are
dropped, so a far slot is refused unless slots of zero in front of it make room. -/

namespace Assembler

def slotWidth (slot : Nat) : Nat := max 1 (Word.ofNat slot).size

theorem slotWidth_le_iff (slot : Nat) {k : Nat} (hk : 1 ≤ k) :
    slotWidth slot ≤ k ↔ slot < 256 ^ k := by
  rw [slotWidth, Nat.max_le, Word.size_ofNat_le_iff]
  exact and_iff_right hk

theorem one_le_slotWidth (slot : Nat) : 1 ≤ slotWidth slot := Nat.le_max_left _ _

namespace Word

theorem length_shownBytes_ofNat (slot : Nat) :
    (ofNat slot).shownBytes.length = slotWidth slot := by
  rw [shownBytes, padded, List.length_leftpad]
  rfl

theorem valueOfBytes_shownBytes (w : Word) : valueOfBytes w.shownBytes = w.value := by
  rw [← value_ofBytes, shownBytes, ofBytes_padded]

theorem shownBytes_of_lt {slot : Nat} (h : slot < 256) :
    (ofNat slot).shownBytes = [UInt8.ofNat slot] := by
  have hle : slotWidth slot ≤ 1 := (slotWidth_le_iff slot le_rfl).mpr h
  have hone : (ofNat slot).shownBytes.length = 1 := by
    rw [length_shownBytes_ofNat]
    exact Nat.le_antisymm hle (one_le_slotWidth slot)
  obtain ⟨b, hb⟩ := List.length_eq_one_iff.mp hone
  have hvalue : b.toNat = slot := by
    have hall := valueOfBytes_shownBytes (ofNat slot)
    rw [hb, value_ofNat] at hall
    simpa [valueOfBytes] using hall
  rw [hb, ← hvalue, UInt8.ofNat_toNat]

theorem bytes_ofNat_ne_nil {slot : Nat} (h : slot ≠ 0) : (ofNat slot).bytes ≠ [] := by
  intro hnil
  have hvalue := value_ofNat slot
  rw [value, hnil] at hvalue
  exact h hvalue.symm

theorem shownBytes_of_ne_nil {w : Word} (h : w.bytes ≠ []) : w.shownBytes = w.bytes := by
  have hpos := List.length_pos_iff.mpr h
  have hpad : 1 - w.bytes.length = 0 := by omega
  rw [shownBytes, padded, List.leftpad, hpad]
  rfl

theorem bytes_ofBytes_append {w : Word} (h : w.bytes ≠ []) (rest : List UInt8) :
    (ofBytes (w.bytes ++ rest)).bytes = w.bytes ++ rest := by
  obtain ⟨bytes, hcanonical⟩ := w
  cases bytes with
  | nil => exact absurd rfl h
  | cons b more =>
    have hb : b ≠ 0 := by simpa using hcanonical
    simp [ofBytes, hb]

end Word

theorem slotImmediate_zero_cons (slots : List Nat) :
    slotImmediate (0 :: slots) = slotImmediate slots := by
  have hzero : (Word.ofNat 0).shownBytes = List.replicate 1 0 := rfl
  rw [slotImmediate, List.flatMap_cons, hzero, Word.ofBytes_replicate_append]
  rfl

theorem slotImmediate_singleton (slot : Nat) : slotImmediate [slot] = Word.ofNat slot := by
  rw [slotImmediate, List.flatMap_singleton, Word.shownBytes, Word.ofBytes_padded]

/-- From the first slot that is not zero on, nothing is dropped. -/
theorem size_slotImmediate_cons {slot : Nat} (h : slot ≠ 0) (slots : List Nat) :
    (slotImmediate (slot :: slots)).size = slotWidth slot + (slots.map slotWidth).sum := by
  have hne := Word.bytes_ofNat_ne_nil h
  have hfirst : (Word.ofNat slot).bytes.length = slotWidth slot := by
    rw [← Word.shownBytes_of_ne_nil hne, Word.length_shownBytes_ofNat]
  have hrest : (slots.flatMap fun slot => (Word.ofNat slot).shownBytes).length =
      (slots.map slotWidth).sum := by
    rw [List.length_flatMap]
    simp only [Word.length_shownBytes_ofNat]
  rw [slotImmediate, List.flatMap_cons, Word.shownBytes_of_ne_nil hne, Word.size,
    Word.bytes_ofBytes_append hne, List.length_append, hfirst, hrest]

/-- Far slots for which the immediate has room all the same, because a slot of zero in front of
them leaves no byte behind. -/
def Unnoticed (a b c : Nat) : Prop :=
  a = 0 ∧ (256 ≤ b ∨ 256 ≤ c) ∧
    (b = 0 ∧ c < 256 ^ 3 ∨ b < 256 ∧ c < 256 ^ 2 ∨ b < 256 ^ 2 ∧ c < 256)

theorem size_slotImmediate_le_iff (a b c : Nat) :
    (slotImmediate [a, b, c]).size ≤ 3 ↔
      (a < 256 ∧ b < 256 ∧ c < 256) ∨ Unnoticed a b c := by
  have ha := slotWidth_le_iff a (k := 1) le_rfl
  have hb := slotWidth_le_iff b (k := 1) le_rfl
  have hc := slotWidth_le_iff c (k := 1) le_rfl
  have hb₂ := slotWidth_le_iff b (k := 2) (by decide)
  have hc₂ := slotWidth_le_iff c (k := 2) (by decide)
  have hpa := one_le_slotWidth a
  have hpb := one_le_slotWidth b
  have hpc := one_le_slotWidth c
  unfold Unnoticed
  by_cases hza : a = 0
  · subst a
    rw [slotImmediate_zero_cons]
    by_cases hzb : b = 0
    · subst b
      rw [slotImmediate_zero_cons, slotImmediate_singleton, Word.size_ofNat_le_iff]
      omega
    · rw [size_slotImmediate_cons hzb]
      simp only [List.map_cons, List.map_nil, List.sum_cons, List.sum_nil, true_and]
      omega
  · rw [size_slotImmediate_cons hza]
    simp only [List.map_cons, List.map_nil, List.sum_cons, List.sum_nil]
    omega

theorem padded_slotImmediate {a b c : Nat} (ha : a < 256) (hb : b < 256) (hc : c < 256) :
    (slotImmediate [a, b, c]).padded 3 = [.ofNat a, .ofNat b, .ofNat c] := by
  have hbytes : [a, b, c].flatMap (fun slot => (Word.ofNat slot).shownBytes) =
      [.ofNat a, .ofNat b, .ofNat c] := by
    simp only [List.flatMap_cons, List.flatMap_nil, Word.shownBytes_of_lt ha,
      Word.shownBytes_of_lt hb, Word.shownBytes_of_lt hc]
    rfl
  rw [slotImmediate, hbytes]
  exact Word.padded_ofBytes [.ofNat a, .ofNat b, .ofNat c]

theorem ModularOp.width_opcode (op : ModularOp) : op.opcode.width = 3 := by
  cases op <;> rfl

namespace Segment

theorem perform_modular {s : Segment} (op : ModularOp) {dest x y : Cell} {a b c : Nat}
    (ha : s.registers.slot dest = .ok a) (hb : s.registers.slot x = .ok b)
    (hc : s.registers.slot y = .ok c) :
    s.perform (.modular op dest x y) =
      ({ s with code := s.code ++ [⟨op.opcode, slotImmediate [a, b, c]⟩] }, .ok none) := by
  have hemission : Emission.modular s.registers op dest x y =
      ⟨[⟨op.opcode, slotImmediate [a, b, c]⟩], .ok ()⟩ := by
    rw [Emission.modular, ha, hb, hc, op.mnemonic_eq_name, Opcode.find_name]
    rfl
  rw [perform, emission, hemission]
  rfl

/-- What becomes of the slots of a modular instruction. If all are below 256, the three bytes of the
immediate are the slots. A far slot is refused when the instruction is encoded, except where it
goes unnoticed; and there the three bytes address other registers. -/
theorem modular_slots_in_immediate (s : Segment) (op : ModularOp) {dest x y : Cell} {a b c : Nat}
    (ha : s.registers.slot dest = .ok a) (hb : s.registers.slot x = .ok b)
    (hc : s.registers.slot y = .ok c) :
    ∃ i : Instruction,
      s.perform (.modular op dest x y) = ({ s with code := s.code ++ [i] }, .ok none) ∧
      (a < 256 ∧ b < 256 ∧ c < 256 →
        Bytecode.encode [i] = .ok [op.opcode.code, .ofNat a, .ofNat b, .ofNat c]) ∧
      (256 ≤ a ∨ 256 ≤ b ∨ 256 ≤ c → ¬ Unnoticed a b c →
        Bytecode.encode [i] =
          .error (.immediateTooWide op.opcode.name op.opcode.width i.immediate.size)) ∧
      (Unnoticed a b c → ∃ p q r : UInt8,
        Bytecode.encode [i] = .ok [op.opcode.code, p, q, r] ∧
        (p.toNat, q.toNat, r.toNat) ≠ (a, b, c)) := by
  have hwidth := op.width_opcode
  have hfits : (⟨op.opcode, slotImmediate [a, b, c]⟩ : Instruction).Fits ↔
      (a < 256 ∧ b < 256 ∧ c < 256) ∨ Unnoticed a b c := by
    rw [Instruction.Fits, hwidth]
    exact size_slotImmediate_le_iff a b c
  have hencode : ∀ h : (a < 256 ∧ b < 256 ∧ c < 256) ∨ Unnoticed a b c,
      Bytecode.encode [⟨op.opcode, slotImmediate [a, b, c]⟩] =
        .ok (op.opcode.code :: (slotImmediate [a, b, c]).padded 3) := by
    intro h
    rw [Bytecode.encode_of_fits (List.forall_mem_singleton.mpr (hfits.mpr h)),
      List.flatMap_singleton, Instruction.bytes, hwidth]
  refine ⟨_, perform_modular op ha hb hc, ?_, ?_, ?_⟩
  · intro hsmall
    rw [hencode (Or.inl hsmall), padded_slotImmediate hsmall.1 hsmall.2.1 hsmall.2.2]
  · intro hfar hnoticed
    refine Bytecode.encode_of_not_fits (List.forall_mem_nil _) ?_
    intro hroom
    rcases hfits.mp hroom with hsmall | hunnoticed
    · omega
    · exact hnoticed hunnoticed
  · intro hunnoticed
    have hlen : ((slotImmediate [a, b, c]).padded 3).length = 3 :=
      Word.length_padded ((size_slotImmediate_le_iff a b c).mpr (Or.inr hunnoticed))
    obtain ⟨p, q, r, hbytes⟩ := List.length_eq_three.mp hlen
    refine ⟨p, q, r, by rw [hencode (Or.inr hunnoticed), hbytes], ?_⟩
    intro heq
    obtain ⟨_, hfar, _⟩ := hunnoticed
    simp only [Prod.mk.injEq] at heq
    have hq := q.toNat_lt
    have hr := r.toNat_lt
    omega

/-- The first slot is zero and keeps its byte; the largest slot that fits stands next to it. -/
theorem modular_slots_in_immediate_at_255 :
    let s : Segment := ⟨"main", [], none, ⟨0, 4⟩⟩
    let d : Directive := .modular .mulMont ⟨"a", 0, 32⟩ ⟨"b", 8160, 32⟩ ⟨"c", 288, 32⟩
    s.registers.slot ⟨"b", 8160, 32⟩ = .ok 255 ∧
    ∃ i, (s.perform d).1.code = [i] ∧ Bytecode.encode [i] = .ok [0x24, 0, 255, 9] := by
  intro s d
  have hb : s.registers.slot ⟨"b", 8160, 32⟩ = .ok 255 := by decide
  obtain ⟨i, hperform, hsmall, _, _⟩ := modular_slots_in_immediate s .mulMont
    (show s.registers.slot ⟨"a", 0, 32⟩ = .ok 0 by decide) hb
    (show s.registers.slot ⟨"c", 288, 32⟩ = .ok 9 by decide)
  exact ⟨hb, i, by rw [hperform]; rfl, hsmall (by decide)⟩

/-- Slots 0, 256 and 0 go unnoticed: the bytes say 1, 0 and 0. -/
theorem modular_far_slot_passes_for_another :
    let s : Segment := ⟨"main", [], none, ⟨0, 4⟩⟩
    let near : Cell := ⟨"near", 0, 32⟩
    let far : Cell := ⟨"far", 8192, 32⟩
    let code := (s.perform (.modular .add near far near)).1.code
    s.registers.slot near = .ok 0 ∧ s.registers.slot far = .ok 256 ∧
    Bytecode.encode code = .ok [0x22, 1, 0, 0] := by
  decide +kernel

end Segment

end Assembler
