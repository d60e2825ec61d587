import Assembler.Proofs.Segment.SelfSized
import Assembler.Segment.Basic

/-! The code that emissions leave behind. An operation goes by its mnemonic and leaves the opcode of
that name, and a value leaves the narrowest push that holds it. A call that succeeds ends in a jump
and a landing point, and its result is the absolute position of that landing point. -/

namespace Assembler

theorem Opcode.find_name (op : Opcode) : find op.name = .ok op := by
  rw [find, ofName?_name]

/-- Mnemonics are in upper case, so to raise them changes nothing. -/
theorem Opcode.upper_name (op : Opcode) :
    String.ofList (op.name.toList.map Char.toUpper) = op.name := by
  have table : ∀ op ∈ all, String.ofList (op.name.toList.map Char.toUpper) = op.name := by
    decide +kernel
  exact table op op.mem_all

def UnaryOp.opcode : UnaryOp → Opcode
  | .isZero => .isZero
  | .not => .not

def BinaryOp.opcode : BinaryOp → Opcode
  | .add => .add
  | .mul => .mul
  | .sub => .sub
  | .div => .div
  | .sdiv => .sdiv
  | .mod => .mod
  | .smod => .smod
  | .exp => .exp
  | .signExtend => .signExtend
  | .lt => .lt
  | .gt => .gt
  | .slt => .slt
  | .sgt => .sgt
  | .eq => .eq
  | .and => .and
  | .or => .or
  | .xor => .xor
  | .byte => .byte
  | .shl => .shl
  | .shr => .shr
  | .sar => .sar

def TernaryOp.opcode : TernaryOp → Opcode
  | .addMod => .addMod
  | .mulMod => .mulMod

def ModularOp.opcode : ModularOp → Opcode
  | .add => .addModX
  | .sub => .subModX
  | .mulMont => .mulMontX

@[simp] theorem UnaryOp.mnemonic_eq_name (op : UnaryOp) : op.mnemonic = op.opcode.name := by
  cases op <;> rfl

@[simp] theorem BinaryOp.mnemonic_eq_name (op : BinaryOp) : op.mnemonic = op.opcode.name := by
  cases op <;> rfl

@[simp] theorem TernaryOp.mnemonic_eq_name (op : TernaryOp) : op.mnemonic = op.opcode.name := by
  cases op <;> rfl

@[simp] theorem ModularOp.mnemonic_eq_name (op : ModularOp) : op.mnemonic = op.opcode.name := by
  cases op <;> rfl

theorem Word.isLeast_size (w : Word) : IsLeast {k | w.value < 256 ^ k} w.size :=
  ⟨(w.size_le_iff w.size).mp le_rfl, fun k hk => (w.size_le_iff k).mpr hk⟩

structure Instruction.Pushes (i : Instruction) (w : Word) : Prop where
  immediate : i.immediate = w
  narrowest : ∃ n : Fin 33, i.opcode = .push n ∧ IsLeast {k | w.value < 256 ^ k} n.val

theorem Instruction.Pushes.stackChange {i : Instruction} {w : Word} (h : i.Pushes w) :
    i.opcode.stackChange = 1 := by
  obtain ⟨n, hop, _⟩ := h.narrowest
  rw [hop]
  rfl

namespace Emission

@[simp] theorem map_code {α β : Type} (f : α → β) (e : Emission α) : (e.map f).code = e.code := rfl

@[simp] theorem map_outcome {α β : Type} (f : α → β) (e : Emission α) :
    (e.map f).outcome = e.outcome.map f := rfl

/-- A sequence that succeeds has succeeded in both parts, and their code stands back to back. -/
theorem bind_ok {α β : Type} {e : Emission α} {f : α → Emission β} {b : β}
    (h : (e >>= f).outcome = .ok b) :
    ∃ a, e.outcome = .ok a ∧ (f a).outcome = .ok b ∧ (e >>= f).code = e.code ++ (f a).code := by
  cases he : e.outcome with
  | error fault =>
    rw [bind_of_error he] at h
    cases h
  | ok a =>
    rw [bind_of_ok he] at h ⊢
    exact ⟨a, rfl, h, rfl⟩

@[simp] theorem mnemonic_name (op : Opcode) : mnemonic op.name = opcode op := by
  rw [mnemonic, op.upper_name, op.find_name]
  rfl

theorem push_of_fits {w : Word} (h : w.size < 33) :
    push w = ⟨[⟨.push ⟨w.size, h⟩, w⟩], .ok ()⟩ := by
  have hword : Instruction.push w = .ok ⟨.push ⟨w.size, h⟩, w⟩ := by
    rw [Instruction.push, Opcode.pushOfWidth, dif_pos h]
    rfl
  rw [push, hword]
  rfl

theorem push_pushes {w : Word} (h : w.size ≤ 32) :
    ∃ i : Instruction, i.Pushes w ∧ push w = ⟨[i], .ok ()⟩ :=
  ⟨_, ⟨rfl, _, rfl, w.isLeast_size⟩, push_of_fits (Nat.lt_succ_of_le h)⟩

theorem pushNat_pushes {n : Nat} (h : n < addressSpace) :
    ∃ i : Instruction, i.Pushes (.ofNat n) ∧ pushNat n = ⟨[i], .ok ()⟩ := by
  have hsize : (Word.ofNat n).size ≤ 8 := (Word.size_ofNat_le_iff n 8).mpr h
  exact push_pushes (by omega)

theorem push_of_wide {w : Word} (h : ¬ w.size < 33) :
    push w = fail (.valueTooWide w.size maxPushBytes) := by
  have hword : Instruction.push w = .error (.valueTooWide w.size maxPushBytes) := by
    rw [Instruction.push, Opcode.pushOfWidth, dif_neg h]
    rfl
  rw [push, hword]
  rfl

theorem codeSize_push {w : Word} {u : Unit} (h : (push w).outcome = .ok u) :
    codeSize (push w).code = pushSize w := by
  by_cases hw : w.size < 33
  · rw [push_of_fits hw]
    rfl
  · rw [push_of_wide hw] at h
    cases h

theorem codeSize_plain (op : Opcode) : codeSize [.plain op] = op.size := rfl

theorem jump_ok {dest : Operand} {u : Unit} (h : (jump (some dest)).outcome = .ok u) :
    ∃ body, (jump (some dest)).code = body ++ [.plain .jump] ∧
      codeSize (body ++ [.plain .jump]) = jumpSize dest := by
  obtain ⟨_, htarget, _, hcode⟩ := bind_ok h
  refine ⟨(target (some dest)).code, hcode, ?_⟩
  rw [codeSize_append, codeSize_plain]
  cases dest with
  | value w => rw [jumpSize, target, codeSize_push htarget]; rfl
  | place view =>
    obtain ⟨_, hpush, _, hload⟩ := bind_ok htarget
    have hsize : codeSize (address (some (.place view))).code = pushSize (.ofNat view.addr) :=
      codeSize_push hpush
    rw [jumpSize, target, load, hload, codeSize_append, hsize]
    rfl

/-- The literal of a return address counts all the code of its call up to the landing point. -/
theorem returnAddress_value (position : Nat) (returnSlot : Cell) (dest : Operand) :
    (returnAddress position returnSlot dest).value =
      position + pushSize (returnAddress position returnSlot dest).word +
        pushSize (.ofNat returnSlot.addr) + 1 + jumpSize dest := by
  have hvalue := SelfSized.solve_value
    (position + 1 + pushSize (.ofNat returnSlot.addr) + 1 + jumpSize dest)
  have hwidth := SelfSized.solve_width
    (position + 1 + pushSize (.ofNat returnSlot.addr) + 1 + jumpSize dest)
  have hword : pushSize (returnAddress position returnSlot dest).word =
      1 + (returnAddress position returnSlot dest).width := by
    rw [pushSize, SelfSized.word, returnAddress, hwidth]
  rw [hword]
  unfold returnAddress
  omega

theorem call_ok {position r : Nat} {returnSlot : Cell} {dest : Operand}
    (h : (call position returnSlot dest).outcome = .ok r) :
    ∃ body, (call position returnSlot dest).code = body ++ [.plain .jump, .plain .jumpDest] ∧
      r = position + codeSize (body ++ [.plain .jump]) := by
  unfold call at h
  obtain ⟨_, hback, h, hcode₁⟩ := bind_ok h
  obtain ⟨_, hslot, h, hcode₂⟩ := bind_ok h
  obtain ⟨_, _, h, hcode₃⟩ := bind_ok h
  obtain ⟨_, hjump, h, hcode₄⟩ := bind_ok h
  obtain ⟨body, hbody, hsize⟩ := jump_ok hjump
  have hr : (returnAddress position returnSlot dest).value = r := Except.ok.inj h
  refine ⟨(push (returnAddress position returnSlot dest).word).code ++
    (pushNat returnSlot.addr).code ++ [.plain .mstore] ++ body, ?_, ?_⟩
  · rw [call, hcode₁, hcode₂, hcode₃, hcode₄, hbody]
    simp only [List.append_assoc]
    rfl
  · rw [List.append_assoc, codeSize_append, codeSize_append, codeSize_append, hsize,
      codeSize_push hback, pushNat, codeSize_push hslot, codeSize_plain, ← hr,
      returnAddress_value]
    simp only [show Opcode.mstore.size = 1 from rfl]
    omega

end Emission

theorem Segment.emission_call {s : Segment} {offset : Nat} (h : s.offset = some offset)
    (slot : Cell) (dest : Operand) :
    s.emission (.call slot dest) = (Emission.call (offset + s.size) slot dest).map some := by
  rw [emission, h]

end Assembler
