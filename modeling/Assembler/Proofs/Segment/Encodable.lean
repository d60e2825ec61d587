import Assembler.Proofs.Segment.Emission

/-! Immediates of emitted code. Apart from instructions that are handed over as they are and from
packed register slots, every directive leaves only immediates that fit their opcodes, also when it
fails halfway, because each literal goes through the narrowest push. -/

namespace Assembler

def Instruction.Exact (i : Instruction) : Prop := i.immediate.size = i.opcode.width

theorem Instruction.Exact.fits {i : Instruction} (h : i.Exact) : i.Fits := le_of_eq h

theorem Instruction.Exact.push {i : Instruction} (h : i.Exact) {n : Fin 33}
    (hn : i.opcode = .push n) : IsLeast {k | i.immediate.value < 256 ^ k} n.val := by
  have hwidth : i.opcode.width = n.val := by
    rw [hn]
    rfl
  rw [← hwidth, ← h]
  exact i.immediate.isLeast_size

namespace Emission

/-- All the code of an emission, up to its fault if it has one, has a property. -/
def Emits {α : Type} (P : Instruction → Prop) (e : Emission α) : Prop := ∀ i ∈ e.code, P i

namespace Emits

variable {α β : Type} {P : Instruction → Prop}

theorem of_nil {e : Emission α} (h : e.code = []) : e.Emits P := by
  intro i hi
  rw [h] at hi
  exact absurd hi List.not_mem_nil

theorem bind {e : Emission α} {f : α → Emission β} (he : e.Emits P) (hf : ∀ a, (f a).Emits P) :
    (e >>= f).Emits P := by
  intro i hi
  cases hout : e.outcome with
  | error fault =>
    rw [bind_of_error hout] at hi
    exact he i hi
  | ok a =>
    rw [bind_of_ok hout] at hi
    rcases List.mem_append.mp hi with hi | hi
    · exact he i hi
    · exact hf a i hi

theorem map {e : Emission α} (h : e.Emits P) (f : α → β) : (e.map f).Emits P := h

theorem silent {e : Emission Unit} (h : e.Emits P) : (Emission.silent e).Emits P := h.map _

theorem instruction {i : Instruction} (h : P i) : (Emission.instruction i).Emits P :=
  List.forall_mem_singleton.mpr h

theorem opcode {op : Opcode} (h : op.width = 0) : (Emission.opcode op).Emits Instruction.Exact :=
  instruction h.symm

theorem push (w : Word) : (Emission.push w).Emits Instruction.Exact := by
  by_cases hw : w.size < 33
  · rw [push_of_fits hw]
    exact List.forall_mem_singleton.mpr rfl
  · rw [push_of_wide hw]
    exact of_nil rfl

theorem operandsFrom (position : Nat) (values : List (Option Word)) :
    (Emission.operandsFrom position values).Emits Instruction.Exact := by
  induction values generalizing position with
  | nil => exact of_nil rfl
  | cons operand rest ih =>
    refine bind (ih (position + 1)) fun supplied => ?_
    cases operand with
    | some value => exact bind (push value) fun _ => of_nil rfl
    | none => cases supplied <;> exact of_nil rfl

theorem operands (values : List (Option Word)) :
    (Emission.operands values).Emits Instruction.Exact := (operandsFrom 0 values).map _

/-- Code in front of an opcode without immediate. -/
theorem then_opcode {e : Emission Unit} (he : e.Emits Instruction.Exact) {op : Opcode}
    (h : op.width = 0) : (e >>= fun _ => Emission.opcode op).Emits Instruction.Exact :=
  bind he fun _ => opcode h

theorem dup (n : Nat) : (Emission.dup n).Emits Instruction.Exact := by
  unfold Emission.dup
  split
  · exact opcode rfl
  · exact of_nil rfl

theorem swap (n : Nat) : (Emission.swap n).Emits Instruction.Exact := by
  unfold Emission.swap
  split
  · exact opcode rfl
  · exact of_nil rfl

theorem address (operand : Option Operand) :
    (Emission.address operand).Emits Instruction.Exact := by
  cases operand with
  | none => exact of_nil rfl
  | some operand => exact push _

theorem load (source : Option Operand) : (Emission.load source).Emits Instruction.Exact :=
  then_opcode (address source) rfl

theorem singleValue (name : String) (value : Option ValueTree) :
    (Emission.singleValue name value).Emits Instruction.Exact := by
  rcases value with _ | _ | _ <;> exact of_nil rfl

theorem storeAll (pairs : List (Cell × Word)) :
    (Emission.storeAll pairs).Emits Instruction.Exact := by
  induction pairs with
  | nil => exact of_nil rfl
  | cons pair rest ih =>
    exact bind (push _) fun _ => bind (push _) fun _ => bind (opcode rfl) fun _ => ih

theorem store (dest : Option Operand) (value : Option ValueTree) :
    (Emission.store dest value).Emits Instruction.Exact := by
  rcases dest with _ | addr | c | g
  · exact bind (singleValue _ value) fun _ => then_opcode (operands _) rfl
  · exact bind (singleValue _ value) fun _ => then_opcode (operands _) rfl
  · exact bind (singleValue _ value) fun _ => bind (operands _) fun _ => then_opcode (push _) rfl
  · cases value with
    | none => exact of_nil rfl
    | some values => exact bind (of_nil rfl) fun pairs => storeAll pairs

theorem copyOperands (dest : Option Operand) (offset size : Option Word) :
    (Emission.copyOperands dest offset size).Emits Instruction.Exact := by
  rcases dest with _ | addr | view
  · exact operands _
  · exact operands _
  · cases offset with
    | none => exact of_nil rfl
    | some offset => exact bind (push _) fun _ => bind (push _) fun _ => push _

theorem regionOperands (source : Option Operand) (size : Option Word) :
    (Emission.regionOperands source size).Emits Instruction.Exact := by
  rcases source with _ | addr | view
  · exact operands _
  · exact operands _
  · exact bind (push _) fun _ => push _

theorem target (dest : Option Operand) : (Emission.target dest).Emits Instruction.Exact := by
  rcases dest with _ | w | view
  · exact of_nil rfl
  · exact push w
  · exact load _

theorem jump (dest : Option Operand) : (Emission.jump dest).Emits Instruction.Exact :=
  then_opcode (target dest) rfl

theorem branchOperands (dest : Option Operand) (condition : Option Word) :
    (Emission.branchOperands dest condition).Emits Instruction.Exact := by
  cases dest with
  | some dest => exact bind (operands _) fun _ => target _
  | none => cases condition <;> exact of_nil rfl

theorem call (position : Nat) (returnSlot : Cell) (dest : Operand) :
    (Emission.call position returnSlot dest).Emits Instruction.Exact := by
  unfold Emission.call
  refine bind (push _) fun _ => bind (push _) fun _ => bind (opcode rfl) fun _ => ?_
  exact bind (jump _) fun _ => bind (opcode rfl) fun _ => of_nil rfl

theorem setModulus (registers : Registers) (modulus : Cell) :
    (Emission.setModulus registers modulus).Emits Instruction.Exact :=
  bind (push _) fun _ => then_opcode (push _) rfl

/-- A mnemonic may name an opcode with room for an immediate; it stays zero. -/
theorem mnemonic (name : String) : (Emission.mnemonic name).Emits Instruction.Fits :=
  bind (of_nil rfl) fun _ => instruction (Nat.zero_le _)

end Emits

end Emission

/-- Immediates of all other directives are the assembler's own: it neither takes them over as they
are nor packs them from slots. -/
def Directive.ownImmediates : Directive → Bool
  | .instruction _ | .modular _ _ _ _ => false
  | _ => true

namespace Segment

open Emission

theorem emission_exact (s : Segment) {d : Directive} (h : d.ownImmediates)
    (hm : ∀ name, d ≠ .mnemonic name) : (s.emission d).Emits Instruction.Exact := by
  cases d with
  | mnemonic name => exact absurd rfl (hm name)
  | instruction i => exact absurd h Bool.false_ne_true
  | modular op dest x y => exact absurd h Bool.false_ne_true
  | push value => exact (Emits.push value).silent
  | operands values => exact (Emits.operands values).silent
  | pop => exact (Emits.opcode rfl).silent
  | stop => exact (Emits.opcode rfl).silent
  | jumpDest => exact (Emits.opcode rfl).silent
  | dup n => exact (Emits.dup n).silent
  | swap n => exact (Emits.swap n).silent
  | unary op x =>
    rw [emission, op.mnemonic_eq_name, mnemonic_name]
    exact Emits.bind (Emits.operands [x]) fun _ => (Emits.opcode (by cases op <;> rfl)).silent
  | binary op x y =>
    rw [emission, op.mnemonic_eq_name, mnemonic_name]
    exact Emits.bind (Emits.operands [x, y]) fun _ => (Emits.opcode (by cases op <;> rfl)).silent
  | ternary op x y n =>
    rw [emission, op.mnemonic_eq_name, mnemonic_name]
    exact Emits.bind (Emits.operands [x, y, n]) fun _ => (Emits.opcode (by cases op <;> rfl)).silent
  | load source => exact (Emits.load source).silent
  | store dest value => exact (Emits.store dest value).silent
  | copyInput dest offset size =>
    exact (Emits.then_opcode (Emits.copyOperands dest offset size) rfl).silent
  | finish source size => exact (Emits.then_opcode (Emits.regionOperands source size) rfl).silent
  | jump dest => exact (Emits.jump dest).silent
  | jumpIf dest condition =>
    exact (Emits.then_opcode (Emits.branchOperands dest condition) rfl).silent
  | jumpBack returnSlot => exact (Emits.jump _).silent
  | setModulus modulus => exact (Emits.setModulus s.registers modulus).silent
  | call returnSlot dest =>
    rw [emission]
    cases s.offset with
    | none => exact Emits.of_nil rfl
    | some offset => exact (Emits.call _ returnSlot dest).map _

theorem emission_fits (s : Segment) {d : Directive} (h : d.ownImmediates) :
    (s.emission d).Emits Instruction.Fits := by
  by_cases hm : ∃ name, d = .mnemonic name
  · obtain ⟨name, rfl⟩ := hm
    exact (Emits.mnemonic name).silent
  · intro i hi
    exact (s.emission_exact h (not_exists.mp hm) i hi).fits

theorem perform_push_of_fits (s : Segment) {w : Word} (h : w.size < 33) :
    s.perform (.push w) =
      ({ s with code := s.code ++ [⟨.push ⟨w.size, h⟩, w⟩] }, .ok none) := by
  rw [perform, emission, push_of_fits h]
  rfl

theorem perform_push_of_wide (s : Segment) {w : Word} (h : ¬ w.size < 33) :
    s.perform (.push w) = (s, .error (.valueTooWide w.size maxPushBytes)) := by
  rw [perform, emission, push_of_wide h]
  exact Prod.ext (by simp [silent, fail, Emission.map]) rfl

end Segment

end Assembler
