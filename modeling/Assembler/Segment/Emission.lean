import Assembler.Instruction.Basic

/-! Code being emitted: instructions in order, and either a result or the fault that ended the
emission. What was emitted before a fault stays. -/

namespace Assembler

structure Emission (α : Type) where
  code : List Instruction
  outcome : Except Fault α

namespace Emission

def map {α β : Type} (f : α → β) (e : Emission α) : Emission β := ⟨e.code, e.outcome.map f⟩

instance : Monad Emission where
  map := map
  pure a := ⟨[], .ok a⟩
  bind e f :=
    match e.outcome with
    | .ok a =>
      let rest := f a
      ⟨e.code ++ rest.code, rest.outcome⟩
    | .error fault => ⟨e.code, .error fault⟩

theorem bind_of_ok {α β : Type} {e : Emission α} {a : α} (done : e.outcome = .ok a)
    (f : α → Emission β) : e >>= f = ⟨e.code ++ (f a).code, (f a).outcome⟩ := by
  simp only [bind, done]

theorem bind_of_error {α β : Type} {e : Emission α} {fault : Fault}
    (failed : e.outcome = .error fault) (f : α → Emission β) :
    e >>= f = ⟨e.code, .error fault⟩ := by
  simp only [bind, failed]

def fail {α : Type} (fault : Fault) : Emission α := ⟨[], .error fault⟩

def ofExcept {α : Type} (outcome : Except Fault α) : Emission α := ⟨[], outcome⟩

def instruction (i : Instruction) : Emission Unit := ⟨[i], .ok ()⟩

def opcode (op : Opcode) : Emission Unit := instruction (.plain op)

def push (value : Word) : Emission Unit := do
  instruction (← ofExcept (Instruction.push value))

def pushNat (n : Nat) : Emission Unit := push (.ofNat n)

/-- Pushes the operands from `position` on, the rightmost first, and says whether any was supplied.
An operand may only be left out where all to its right are. -/
def operandsFrom (position : Nat) : List (Option Word) → Emission Bool
  | [] => return false
  | operand :: rest => do
    let supplied ← operandsFrom (position + 1) rest
    match operand with
    | some value =>
      push value
      return true
    | none => if supplied then fail (.operandOrder position) else return false

/-- Pushes the supplied operands, so that the first ends on top. Operands left out are expected on
the stack. -/
def operands (values : List (Option Word)) : Emission Unit :=
  (operandsFrom 0 values).map fun _ => ()

/-- A mnemonic in any case, with a zero immediate. -/
def mnemonic (name : String) : Emission Unit := do
  opcode (← ofExcept (Opcode.find (String.ofList (name.toList.map Char.toUpper))))

end Emission

end Assembler
