import Assembler.Instruction.Tally
import Assembler.Json.Document
import Assembler.Program.Basic

/-! Summaries: the layout, cost and instruction counts of a program. -/

namespace Assembler

structure SegmentSummary where
  name : String
  offset : Option Nat
  size : Nat
  cost : Nat
  stackChange : Int
  counts : Tally
  deriving DecidableEq, Repr

structure Summary where
  segments : List SegmentSummary
  size : Nat
  cost : Nat
  memoryUsed : Nat
  deriving DecidableEq, Repr

def Segment.summary (s : Segment) : SegmentSummary :=
  ⟨s.name, s.offset, s.size, codeCost s.code, stackChange s.code, Tally.ofCode s.code⟩

def segmentsCost : List Segment → Nat
  | [] => 0
  | s :: rest => codeCost s.code + segmentsCost rest

def Program.summary (p : Program) : Summary :=
  ⟨p.segments.map Segment.summary, segmentsSize p.segments, segmentsCost p.segments, p.memory.used⟩

namespace SegmentSummary

def document (s : SegmentSummary) : Json :=
  .object [("name", .str s.name),
    ("offset", (s.offset.map fun n => Json.number n).getD .null),
    ("byte_len", .number s.size),
    ("cost", .number s.cost),
    ("stack_effect", .number s.stackChange),
    ("counts", .object (s.counts.map fun (family, n) => (family, .number n)))]

end SegmentSummary

namespace Summary

def document (s : Summary) : Json :=
  .object [("segments", .list (s.segments.map SegmentSummary.document)),
    ("byte_len", .number s.size),
    ("cost", .number s.cost),
    ("memory_used", .number s.memoryUsed)]

def toJson (s : Summary) : String := s.document.render 0

end Summary

end Assembler
