import Assembler.Instruction.Bytecode
import Assembler.Proofs.Word.Value

/-! Bytecode and code determine each other. Code whose immediates fit has exactly one encoding, and
every byte string that decodes is the encoding of what it decodes to. -/

namespace Assembler

theorem Opcode.code_of_ofCode? {k : UInt8} {op : Opcode} (h : ofCode? k = some op) :
    op.code = k := by
  obtain ⟨front, back, hsplit, _⟩ := List.lookup_eq_some_iff.mp h
  have hmem : (k, op) ∈ codeTable := by
    rw [hsplit]
    exact List.mem_append_right _ List.mem_cons_self
  obtain ⟨other, _, heq⟩ := List.mem_map.mp hmem
  obtain ⟨hcode, hop⟩ := Prod.mk.inj heq
  rw [← hop, hcode]

theorem Opcode.code_injective : Function.Injective code := by
  intro op op' h
  have hsome := op.ofCode?_code
  rw [h, ofCode?_code] at hsome
  exact (Option.some.inj hsome).symm

def Instruction.bytes (i : Instruction) : List UInt8 :=
  i.opcode.code :: i.immediate.padded i.opcode.width

theorem Instruction.length_bytes {i : Instruction} (h : i.Fits) : i.bytes.length = i.size := by
  rw [bytes, List.length_cons, Word.length_padded h, size, Opcode.size, Nat.add_comm]

theorem Instruction.fits_ofBytes {op : Opcode} {taken : List UInt8}
    (h : taken.length = op.width) :
    (⟨op, .ofBytes taken⟩ : Instruction).Fits ∧
      (⟨op, .ofBytes taken⟩ : Instruction).bytes = op.code :: taken := by
  constructor
  · exact (Word.size_ofBytes_le taken).trans (le_of_eq h)
  · rw [bytes, ← h, Word.padded_ofBytes]

def Instruction.fault (i : Instruction) : Fault :=
  .immediateTooWide i.opcode.name i.opcode.width i.immediate.size

theorem Instruction.encode_of_fits {i : Instruction} (h : i.Fits) : i.encode = .ok i.bytes :=
  if_pos h

theorem Instruction.encode_of_not_fits {i : Instruction} (h : ¬ i.Fits) :
    i.encode = .error i.fault :=
  if_neg h

theorem codeSize_eq_sum (code : List Instruction) :
    codeSize code = (code.map Instruction.size).sum := by
  induction code with
  | nil => rfl
  | cons i rest ih => rw [codeSize, ih, List.map_cons, List.sum_cons]

namespace Bytecode

theorem encode_of_fits {code : List Instruction} (h : ∀ i ∈ code, i.Fits) :
    encode code = .ok (code.flatMap Instruction.bytes) := by
  induction code with
  | nil => rfl
  | cons i rest ih =>
    obtain ⟨hi, hrest⟩ := List.forall_mem_cons.mp h
    rw [encode, Instruction.encode_of_fits hi, ih hrest]
    rfl

/-- The first instruction that does not fit decides the fault. -/
theorem encode_of_not_fits {front back : List Instruction} {i : Instruction}
    (hfront : ∀ j ∈ front, j.Fits) (hi : ¬ i.Fits) :
    encode (front ++ i :: back) = .error i.fault := by
  induction front with
  | nil =>
    rw [List.nil_append, encode, Instruction.encode_of_not_fits hi]
    rfl
  | cons j rest ih =>
    obtain ⟨hj, hrest⟩ := List.forall_mem_cons.mp hfront
    rw [List.cons_append, encode, Instruction.encode_of_fits hj, ih hrest]
    rfl

theorem exists_first_not_fits {code : List Instruction} (h : ¬ ∀ i ∈ code, i.Fits) :
    ∃ front i back, code = front ++ i :: back ∧ (∀ j ∈ front, j.Fits) ∧ ¬ i.Fits := by
  induction code with
  | nil => exact absurd (fun _ hi => absurd hi List.not_mem_nil) h
  | cons i rest ih =>
    by_cases hi : i.Fits
    · have hrest : ¬ ∀ j ∈ rest, j.Fits := fun hr => h (List.forall_mem_cons.mpr ⟨hi, hr⟩)
      obtain ⟨front, j, back, rfl, hfront, hj⟩ := ih hrest
      exact ⟨i :: front, j, back, rfl, List.forall_mem_cons.mpr ⟨hi, hfront⟩, hj⟩
    · exact ⟨[], i, rest, rfl, fun _ hj => absurd hj List.not_mem_nil, hi⟩

theorem encode_eq_ok_iff {code : List Instruction} {bytes : List UInt8} :
    encode code = .ok bytes ↔ (∀ i ∈ code, i.Fits) ∧ bytes = code.flatMap Instruction.bytes := by
  constructor
  · intro h
    by_cases hfits : ∀ i ∈ code, i.Fits
    · rw [encode_of_fits hfits] at h
      exact ⟨hfits, (Except.ok.inj h).symm⟩
    · obtain ⟨front, i, back, rfl, hfront, hi⟩ := exists_first_not_fits hfits
      rw [encode_of_not_fits hfront hi] at h
      cases h
  · rintro ⟨hfits, rfl⟩
    exact encode_of_fits hfits

theorem length_flatMap_bytes {code : List Instruction} (h : ∀ i ∈ code, i.Fits) :
    (code.flatMap Instruction.bytes).length = codeSize code := by
  induction code with
  | nil => rfl
  | cons i rest ih =>
    obtain ⟨hi, hrest⟩ := List.forall_mem_cons.mp h
    rw [List.flatMap_cons, List.length_append, Instruction.length_bytes hi, ih hrest, codeSize]

theorem length_of_encode {code : List Instruction} {bytes : List UInt8}
    (h : encode code = .ok bytes) : bytes.length = codeSize code := by
  obtain ⟨hfits, rfl⟩ := encode_eq_ok_iff.mp h
  exact length_flatMap_bytes hfits

theorem encode_append_eq_ok_iff {front back : List Instruction} {bytes : List UInt8} :
    encode (front ++ back) = .ok bytes ↔
      ∃ first second, encode front = .ok first ∧ encode back = .ok second ∧
        bytes = first ++ second := by
  simp only [encode_eq_ok_iff, List.forall_mem_append, List.flatMap_append]
  constructor
  · rintro ⟨⟨hfront, hback⟩, rfl⟩
    exact ⟨_, _, ⟨hfront, rfl⟩, ⟨hback, rfl⟩, rfl⟩
  · rintro ⟨_, _, ⟨hfront, rfl⟩, ⟨hback, rfl⟩, rfl⟩
    exact ⟨⟨hfront, hback⟩, rfl⟩

theorem getElem?_of_encode {front back : List Instruction} {i : Instruction} {bytes : List UInt8}
    (h : encode (front ++ i :: back) = .ok bytes) :
    bytes[codeSize front]? = some i.opcode.code := by
  obtain ⟨first, second, hfirst, hsecond, rfl⟩ := encode_append_eq_ok_iff.mp h
  obtain ⟨_, rfl⟩ := encode_eq_ok_iff.mp hsecond
  rw [← length_of_encode hfirst, List.getElem?_append_right le_rfl, Nat.sub_self]
  rfl

/-- The first instruction of an input is read back, whatever follows it. -/
theorem decodeFrom_bytes_append {i : Instruction} (h : i.Fits) (offset : Nat)
    (rest : List UInt8) :
    decodeFrom offset (i.bytes ++ rest) = (decodeFrom (offset + i.size) rest).map (i :: ·) := by
  have hlen : (i.immediate.padded i.opcode.width).length = i.opcode.width := Word.length_padded h
  have hroom : ¬ (i.immediate.padded i.opcode.width ++ rest).length < i.opcode.width := by
    rw [List.length_append]
    omega
  have htake : (i.immediate.padded i.opcode.width ++ rest).take i.opcode.width =
      i.immediate.padded i.opcode.width := List.take_left' hlen
  have hdrop : (i.immediate.padded i.opcode.width ++ rest).drop i.opcode.width = rest :=
    List.drop_left' hlen
  rw [Instruction.bytes, List.cons_append, decodeFrom, Opcode.ofCode?_code]
  simp only [if_neg hroom, htake, hdrop, Word.ofBytes_padded]
  rfl

theorem decodeFrom_flatMap_bytes_append {code : List Instruction} (h : ∀ i ∈ code, i.Fits)
    (offset : Nat) (rest : List UInt8) :
    decodeFrom offset (code.flatMap Instruction.bytes ++ rest) =
      (decodeFrom (offset + codeSize code) rest).map (code ++ ·) := by
  induction code generalizing offset with
  | nil =>
    simp only [List.flatMap_nil, List.nil_append, codeSize, Nat.add_zero]
    cases decodeFrom offset rest <;> rfl
  | cons i code ih =>
    obtain ⟨hi, hcode⟩ := List.forall_mem_cons.mp h
    rw [List.flatMap_cons, List.append_assoc, decodeFrom_bytes_append hi, ih hcode, codeSize,
      Nat.add_assoc]
    cases decodeFrom (offset + (i.size + codeSize code)) rest <;> rfl

theorem decodeFrom_flatMap_bytes {code : List Instruction} (h : ∀ i ∈ code, i.Fits)
    (offset : Nat) : decodeFrom offset (code.flatMap Instruction.bytes) = .ok code := by
  have hread := decodeFrom_flatMap_bytes_append h offset []
  rw [List.append_nil, decodeFrom] at hread
  rw [hread, Except.map, List.append_nil]

theorem decode_of_encode {code : List Instruction} {bytes : List UInt8}
    (h : encode code = .ok bytes) : decode bytes = .ok code := by
  obtain ⟨hfits, rfl⟩ := encode_eq_ok_iff.mp h
  exact decodeFrom_flatMap_bytes hfits 0

theorem bytes_of_decodeFrom {offset : Nat} {bytes : List UInt8} {code : List Instruction}
    (h : decodeFrom offset bytes = .ok code) :
    (∀ i ∈ code, i.Fits) ∧ bytes = code.flatMap Instruction.bytes := by
  induction offset, bytes using decodeFrom.induct generalizing code with
  | case1 offset =>
    rw [decodeFrom] at h
    cases h
    exact ⟨fun _ hi => absurd hi List.not_mem_nil, rfl⟩
  | case2 offset k rest hk =>
    rw [decodeFrom, hk] at h
    cases h
  | case3 offset k rest op hk hshort =>
    rw [decodeFrom, hk] at h
    simp only [if_pos hshort] at h
    cases h
  | case4 offset k rest op hk hroom ih =>
    rw [decodeFrom, hk] at h
    simp only [if_neg hroom] at h
    cases hmore : decodeFrom (offset + op.size) (rest.drop op.width) with
    | error fault =>
      rw [hmore] at h
      cases h
    | ok more =>
      rw [hmore] at h
      cases h
      obtain ⟨hfits, hbytes⟩ := ih hmore
      have hlen : (rest.take op.width).length = op.width := by
        rw [List.length_take]
        omega
      obtain ⟨hi, hfirst⟩ := Instruction.fits_ofBytes hlen
      refine ⟨List.forall_mem_cons.mpr ⟨hi, hfits⟩, ?_⟩
      rw [List.flatMap_cons, hfirst, ← hbytes, Opcode.code_of_ofCode? hk, List.cons_append,
        List.take_append_drop]

theorem decode_eq_ok_iff {bytes : List UInt8} {code : List Instruction} :
    decode bytes = .ok code ↔ encode code = .ok bytes := by
  constructor
  · intro h
    obtain ⟨hfits, rfl⟩ := bytes_of_decodeFrom h
    exact encode_of_fits hfits
  · exact decode_of_encode

theorem write_of_fits {i : Instruction} (h : i.Fits) (buffer : List UInt8) :
    write buffer i = (buffer ++ i.bytes, .ok ()) := by
  rw [write, Instruction.encode_of_fits h]

theorem write_of_not_fits {i : Instruction} (h : ¬ i.Fits) (buffer : List UInt8) :
    write buffer i = (buffer, .error i.fault) := by
  rw [write, Instruction.encode_of_not_fits h]

/-- Encoding and decoding are inverse to each other over the whole format. Code encodes exactly
when all immediates fit, the first that does not decides the fault, and a buffer keeps its bytes
when an instruction cannot be appended to it. -/
theorem encode_decode_inverse :
    (∀ code : List Instruction,
      ((∃ bytes, encode code = .ok bytes) ↔ ∀ i ∈ code, i.immediate.size ≤ i.opcode.width) ∧
      (∀ front i back, code = front ++ i :: back →
        (∀ j ∈ front, j.immediate.size ≤ j.opcode.width) →
        i.opcode.width < i.immediate.size →
        encode code =
          .error (.immediateTooWide i.opcode.name i.opcode.width i.immediate.size)) ∧
      (∀ bytes, encode code = .ok bytes →
        bytes.length = (code.map Instruction.size).sum ∧ decode bytes = .ok code)) ∧
    (∀ (buffer : List UInt8) (i : Instruction),
      (i.immediate.size ≤ i.opcode.width →
        ∃ bytes, encode [i] = .ok bytes ∧ write buffer i = (buffer ++ bytes, .ok ())) ∧
      (i.opcode.width < i.immediate.size →
        write buffer i = (buffer,
          .error (.immediateTooWide i.opcode.name i.opcode.width i.immediate.size)))) ∧
    (∀ bytes code, decode bytes = .ok code → encode code = .ok bytes) := by
  refine ⟨fun code => ⟨⟨?_, ?_⟩, ?_, ?_⟩, fun buffer i => ⟨?_, ?_⟩, ?_⟩
  · rintro ⟨bytes, h⟩
    exact (encode_eq_ok_iff.mp h).1
  · intro h
    exact ⟨_, encode_of_fits h⟩
  · rintro front i back rfl hfront hi
    exact encode_of_not_fits hfront (Nat.not_le_of_lt hi)
  · intro bytes h
    rw [← codeSize_eq_sum]
    exact ⟨length_of_encode h, decode_of_encode h⟩
  · intro h
    have hone : ∀ j ∈ [i], j.Fits := List.forall_mem_singleton.mpr h
    refine ⟨i.bytes, ?_, write_of_fits h buffer⟩
    rw [encode_of_fits hone, List.flatMap_singleton]
  · intro h
    exact write_of_not_fits (Nat.not_le_of_lt h) buffer
  · intro bytes code h
    obtain ⟨hfits, rfl⟩ := bytes_of_decodeFrom h
    exact encode_of_fits hfits

end Bytecode

end Assembler
