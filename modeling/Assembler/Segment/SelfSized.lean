import Assembler.Word

/-! Literals that stand in front of the point they name: their own width moves that point, and
depends on its value. -/

namespace Assembler

/-- A literal whose value already counts its own `width` bytes. -/
structure SelfSized where
  value : Nat
  width : Nat
  deriving DecidableEq, Repr

namespace SelfSized

def word (s : SelfSized) : Word := .ofNat s.value

/-- Solves `value = fixed + width` where `width` is the byte length of `value`. The width of
`fixed` is tried first. If the sum has outgrown it, one byte more is enough, because a sum that has
just passed a power of 256 is far from the next. -/
def solve (fixed : Nat) : SelfSized :=
  let guess := (Word.ofNat fixed).size
  if (Word.ofNat (fixed + guess)).size ≤ guess then ⟨fixed + guess, guess⟩
  else ⟨fixed + (guess + 1), guess + 1⟩

end SelfSized

end Assembler
