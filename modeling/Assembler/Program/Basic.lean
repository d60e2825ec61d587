import Assembler.Instruction.HexText
import Assembler.Segment.Basic
import Assembler.Storage.Memory

/-! Programs: memory and named segments in order. Segments stand back to back, each at the sum of
the lengths before it. -/

namespace Assembler

structure Program where
  memory : Memory
  segments : List Segment
  /-- The flat code of the last linking. -/
  code : List Instruction
  deriving DecidableEq, Repr

def segmentsSize : List Segment → Nat
  | [] => 0
  | s :: rest => s.size + segmentsSize rest

def placeFrom (offset : Nat) : List Segment → List Segment
  | [] => []
  | s :: rest => s.place offset :: placeFrom (offset + s.size) rest

namespace Program

def ofSettings (s : Settings) : Program := ⟨.ofSettings s, [], []⟩

def allocate {α : Type} (p : Program) (f : Memory → Except Fault (α × Memory)) :
    Except Fault (α × Program) := do
  let (result, memory) ← f p.memory
  return (result, { p with memory })

def position? (p : Program) (name : String) : Option Nat :=
  p.segments.findIdx? (·.name == name)

def get (p : Program) (name : String) : Except Fault Segment :=
  match (p.position? name).bind (p.segments[·]?) with
  | some s => .ok s
  | none => .error (.noSuchSegment name)

def offset (p : Program) (name : String) : Except Fault Nat := do
  match (← p.get name).offset with
  | some offset => .ok offset
  | none => .error (.unplacedSegment name)

def addSegment (p : Program) (name : String) : Except Fault (Segment × Program) :=
  if (p.position? name).isSome then .error (.segmentExists name)
  else
    let s := Segment.empty name p.memory.registers
    .ok (s, { p with segments := p.segments ++ [s] })

def change {α : Type} (p : Program) (name : String) (f : Segment → Segment × Except Fault α) :
    Program × Except Fault α :=
  match p.position? name with
  | none => (p, .error (.noSuchSegment name))
  | some i =>
    match p.segments[i]? with
    | none => (p, .error (.noSuchSegment name))
    | some s =>
      let (changed, outcome) := f s
      ({ p with segments := p.segments.set i changed }, outcome)

def perform (p : Program) (name : String) (d : Directive) :
    Program × Except Fault (Option Nat) :=
  p.change name (·.perform d)

def place (p : Program) (name : String) (offset : Nat) : Program × Except Fault Unit :=
  p.change name fun s => (s.place offset, .ok ())

/-- Places every segment. Code that grows later leaves the positions behind it out of date until
this runs again. -/
def placeAll (p : Program) : Program :=
  { p with segments := placeFrom 0 p.segments }

/-- The code of a dispatcher that skips `skipped` bytes behind itself: its jump target counts the
push, the jump and the literal's own width. -/
def dispatcherCode (skipped : Nat) : Emission Nat := do
  let entry := SelfSized.solve (2 + skipped)
  .push entry.word
  .opcode .jump
  return entry.value

/-- Puts a segment in front of all others that jumps straight to `target`, and places every
segment. The result is the position of the target. -/
def addEntry (p : Program) (dispatcher target : String) : Except Fault (Nat × Program) :=
  if (p.position? dispatcher).isSome then .error (.segmentExists dispatcher)
  else
    match p.position? target with
    | none => .error (.noSuchSegment target)
    | some i =>
      let jump := dispatcherCode (segmentsSize (p.segments.take i))
      let head := { Segment.empty dispatcher p.memory.registers with code := jump.code }
      jump.outcome.map fun entry => (entry, { p with segments := head :: p.segments }.placeAll)

def link (p : Program) : Program :=
  { p with code := p.segments.flatMap Segment.code }

/-- Links and encodes. The program comes back linked even when the code cannot be encoded. -/
def assemble (p : Program) : Program × Except Fault (List UInt8) :=
  (p.link, Bytecode.encode p.link.code)

def assembleHex (p : Program) : Program × Except Fault String :=
  (p.link, HexText.encode p.link.code)

end Program

end Assembler
