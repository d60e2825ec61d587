import Assembler.Proofs.Instruction.HexText
import Assembler.Proofs.Program.Layout

/-! The bytes of an assembled program. Positions are sums of opcode sizes and the bytes come from
encoding the flat code, yet each segment's bytes stand where the segment was placed. -/

namespace Assembler

/-- Segments stand side by side, the first at `start` and the last up to `stop`. -/
def BackToBack (start : Nat) : List Segment → Nat → Prop
  | [], stop => start = stop
  | s :: rest, stop => s.offset = some start ∧ BackToBack (start + s.size) rest stop

theorem placeFrom_backToBack (start : Nat) (segments : List Segment) :
    BackToBack start (placeFrom start segments) (start + segmentsSize segments) := by
  induction segments generalizing start with
  | nil => rfl
  | cons s rest ih =>
    refine ⟨rfl, ?_⟩
    have hrest := ih (start + s.size)
    rw [Nat.add_assoc] at hrest
    exact hrest

namespace Program

theorem placeAll_code (p : Program) :
    p.placeAll.link.code = (p.segments.map Segment.code).flatten := by
  rw [link_code, List.flatMap_def, placeAll, map_placeFrom fun _ _ => rfl]

theorem assembles_iff (p : Program) :
    (∃ bytes, p.assemble.2 = .ok bytes) ↔ ∀ s ∈ p.segments, ∀ i ∈ s.code, i.Fits := by
  rw [← List.forall_mem_flatMap, ← link_code]
  constructor
  · rintro ⟨bytes, h⟩
    exact (Bytecode.encode_eq_ok_iff.mp h).1
  · intro h
    exact ⟨_, Bytecode.encode_of_fits h⟩

theorem length_of_assemble {p : Program} {bytes : List UInt8} (h : p.assemble.2 = .ok bytes) :
    bytes.length = segmentsSize p.segments := by
  rw [Bytecode.length_of_encode h, link_code, codeSize_flatMap_code]

theorem placeAll_assembles_iff (p : Program) :
    (∃ bytes, p.placeAll.assemble.2 = .ok bytes) ↔ ∀ s ∈ p.segments, ∀ i ∈ s.code, i.Fits := by
  rw [assembles_iff, ← List.forall_mem_flatMap, ← link_code, placeAll_code, ← List.flatMap_def,
    List.forall_mem_flatMap]

theorem placeAll_slice {p : Program} {bytes : List UInt8}
    (h : p.placeAll.assemble.2 = .ok bytes) {i : Nat} {s : Segment}
    (hs : p.segments[i]? = some s) :
    ∃ o, p.placeAll.segments[i]? = some (s.place o) ∧
      Bytecode.encode s.code = .ok ((bytes.drop o).take s.size) := by
  have hplaced : p.placeAll.segments[i]? =
      some (s.place (0 + segmentsSize (p.segments.take i))) := by
    rw [placeAll, getElem?_placeFrom, hs, Option.map_some]
  obtain ⟨front, body, later, hbody, _, rfl, hfront⟩ := assemble_split h hplaced
  rw [placeAll, take_placeFrom, segmentsSize_placeFrom] at hfront
  refine ⟨_, hplaced, ?_⟩
  have hsize : body.length = s.size := Bytecode.length_of_encode hbody
  rw [Nat.zero_add, ← hfront, ← hsize, List.drop_left, List.take_left]
  exact hbody

theorem placeAll_length {p : Program} {bytes : List UInt8}
    (h : p.placeAll.assemble.2 = .ok bytes) : bytes.length = segmentsSize p.segments := by
  rw [length_of_assemble h, placeAll, segmentsSize_placeFrom]

/-- Once all segments are placed, a program assembles exactly when every immediate fits. The bytes
decode to the code of the segments one after the other, each segment's bytes are found at its
position, the segments cover all bytes without gap or overlap, and the hexadecimal text reads back
as the bytes. -/
theorem assembled_bytes_tile (p : Program) :
    ((∃ bytes, p.placeAll.assemble.2 = .ok bytes) ↔
      ∀ s ∈ p.segments, ∀ i ∈ s.code, i.immediate.size ≤ i.opcode.width) ∧
    ∀ bytes, p.placeAll.assemble.2 = .ok bytes →
      Bytecode.decode bytes = .ok p.placeAll.assemble.1.code ∧
      p.placeAll.assemble.1.code = (p.segments.map Segment.code).flatten ∧
      (∀ (i : Nat) (s : Segment), p.segments[i]? = some s →
        ∃ o, p.placeAll.segments[i]? = some { s with offset := some o } ∧
          Bytecode.encode s.code = .ok ((bytes.drop o).take s.size)) ∧
      BackToBack 0 p.placeAll.segments bytes.length ∧
      ∃ text, p.placeAll.assembleHex.2 = .ok text ∧ HexText.toBytes text = .ok bytes := by
  refine ⟨p.placeAll_assembles_iff, ?_⟩
  intro bytes h
  have hencode : Bytecode.encode p.placeAll.link.code = .ok bytes := h
  refine ⟨Bytecode.decode_of_encode hencode, p.placeAll_code, fun i s => placeAll_slice h, ?_, ?_⟩
  · rw [placeAll_length h, ← Nat.zero_add (segmentsSize p.segments)]
    exact placeFrom_backToBack 0 p.segments
  · refine ⟨HexText.ofBytes bytes, ?_, HexText.toBytes_ofBytes bytes⟩
    change (Bytecode.encode p.placeAll.link.code).map HexText.ofBytes = _
    rw [hencode]
    rfl

/-- An empty segment in the middle, and a last one that stood elsewhere before. -/
theorem assembled_bytes_tile_around_a_gap :
    let p : Program := ⟨.ofSettings {}, [
      ⟨"main", [⟨.push 2, .ofNat 258⟩, .plain .jump], none, ⟨0, 4⟩⟩, ⟨"gap", [], none, ⟨0, 4⟩⟩,
      ⟨"last", [.plain .jumpDest], some 9, ⟨0, 4⟩⟩], []⟩
    let bytes : List UInt8 := [0x61, 0x01, 0x02, 0x56, 0x5B]
    p.placeAll.assemble.2 = .ok bytes ∧ p.placeAll.offset "last" = .ok 4 ∧
    Bytecode.decode bytes = .ok p.placeAll.assemble.1.code ∧
    BackToBack 0 p.placeAll.segments 5 := by
  intro p bytes
  have hbytes : p.placeAll.assemble.2 = .ok bytes := by decide +kernel
  obtain ⟨hdecode, _, _, htile, _⟩ := (assembled_bytes_tile p).2 bytes hbytes
  exact ⟨hbytes, by decide +kernel, hdecode, htile⟩

end Program

end Assembler
