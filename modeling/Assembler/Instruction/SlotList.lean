import Assembler.Word

/-! Register slots packed into one immediate. -/

namespace Assembler

/-- Each slot takes the bytes of its value, one zero byte for slot zero, and the bytes stand one
after the other. A slot of 256 or more takes two bytes or more. -/
def slotImmediate (slots : List Nat) : Word :=
  .ofBytes (slots.flatMap fun slot => (Word.ofNat slot).shownBytes)

end Assembler
