import Assembler.Fault
import Assembler.Instruction.Basic
import Assembler.Instruction.Bytecode
import Assembler.Instruction.HexText
import Assembler.Instruction.Listing
import Assembler.Instruction.SlotList
import Assembler.Instruction.Tally
import Assembler.Json.Document
import Assembler.Json.Reading
import Assembler.Opcode
import Assembler.Program.Basic
import Assembler.Program.Summary
import Assembler.Segment.Basic
import Assembler.Segment.Directive
import Assembler.Segment.Emission
import Assembler.Segment.SelfSized
import Assembler.Segment.Sequence
import Assembler.Settings.Basic
import Assembler.Settings.Library
import Assembler.Settings.Text
import Assembler.Storage.Index
import Assembler.Storage.Memory
import Assembler.Storage.Registers
import Assembler.Storage.ValueTree
import Assembler.Storage.View
import Assembler.Text.Hex
import Assembler.Text.Quoted
import Assembler.Text.Unprintable
import Assembler.Text.Utf8
import Assembler.Toml.Document
import Assembler.Toml.Item
import Assembler.Toml.Scalar
import Assembler.Toml.Text
import Assembler.Toml.Value
import Assembler.Word
import Assembler.Proofs.Instruction.Disassembly
import Assembler.Proofs.Instruction.HexText
import Assembler.Proofs.Instruction.Rejection
import Assembler.Proofs.Instruction.RoundTrip
import Assembler.Proofs.Json.Flat
import Assembler.Proofs.Program.Assembled
import Assembler.Proofs.Program.Encodable
import Assembler.Proofs.Program.Entry
import Assembler.Proofs.Program.History
import Assembler.Proofs.Program.Index
import Assembler.Proofs.Program.Landing
import Assembler.Proofs.Program.Layout
import Assembler.Proofs.Program.Names
import Assembler.Proofs.Program.Summary
import Assembler.Proofs.Segment.Call
import Assembler.Proofs.Segment.Emission
import Assembler.Proofs.Segment.Encodable
import Assembler.Proofs.Segment.GridStore
import Assembler.Proofs.Segment.Modular
import Assembler.Proofs.Segment.OperandFaults
import Assembler.Proofs.Segment.Operands
import Assembler.Proofs.Segment.Region
import Assembler.Proofs.Segment.SelfSized
import Assembler.Proofs.Settings.Agreement
import Assembler.Proofs.Settings.Entries
import Assembler.Proofs.Settings.Formats
import Assembler.Proofs.Storage.Accounting
import Assembler.Proofs.Storage.AddressRange
import Assembler.Proofs.Storage.Allocation
import Assembler.Proofs.Storage.Elements
import Assembler.Proofs.Storage.Footprint
import Assembler.Proofs.Storage.Gapless
import Assembler.Proofs.Storage.Numbering
import Assembler.Proofs.Storage.Pairing
import Assembler.Proofs.Storage.Reached
import Assembler.Proofs.Storage.Selection
import Assembler.Proofs.Storage.Slicing
import Assembler.Proofs.Storage.UnsignedBounds
import Assembler.Proofs.Text.Digits
import Assembler.Proofs.Text.Scanning
import Assembler.Proofs.Toml.Flat
import Assembler.Proofs.Word.ByteSwap
import Assembler.Proofs.Word.Canonical
import Assembler.Proofs.Word.Literal
import Assembler.Proofs.Word.Value
