import Assembler.Proofs.Instruction.RoundTrip

/-! Inputs that do not decode. Each one is the encoding of some code up to a single byte at which
the reader stops, because it is no byte code or because its immediate is cut off. Where that byte
stands, and so the fault, depends on the input alone. -/

namespace Assembler

/-- The fault of an input when `n` more bytes stand in front of it: only positions move. -/
def Fault.behind (n : Nat) : Fault → Fault
  | .truncated offset needed available => .truncated (n + offset) needed available
  | fault => fault

theorem Opcode.ofCode?_eq_none_iff {k : UInt8} :
    ofCode? k = none ↔ ∀ op : Opcode, op.code ≠ k := by
  constructor
  · rintro h op rfl
    rw [ofCode?_code] at h
    cases h
  · intro h
    cases hk : ofCode? k with
    | none => rfl
    | some op => exact absurd (code_of_ofCode? hk) (h op)

/-- No encoded instruction is the beginning of another one. -/
theorem Instruction.bytes_append_inj {i j : Instruction} (hi : i.Fits) (hj : j.Fits)
    {rest rest' : List UInt8} (h : i.bytes ++ rest = j.bytes ++ rest') : i = j ∧ rest = rest' := by
  obtain ⟨hcode, htail⟩ := List.cons.inj h
  have hop : i.opcode = j.opcode := Opcode.code_injective hcode
  have hlen : (i.immediate.padded i.opcode.width).length =
      (j.immediate.padded j.opcode.width).length := by
    rw [Word.length_padded hi, Word.length_padded hj, hop]
  obtain ⟨hpadded, hrest⟩ := List.append_inj htail hlen
  have himmediate : i.immediate = j.immediate := by
    rw [← i.immediate.ofBytes_padded, hpadded, Word.ofBytes_padded]
  obtain ⟨op, immediate⟩ := i
  cases hop
  cases himmediate
  exact ⟨rfl, hrest⟩

def NoInstruction (bytes : List UInt8) : Prop :=
  ∀ i : Instruction, i.Fits → ∀ more, bytes ≠ i.bytes ++ more

/-- Code in front of such bytes can be told apart from them. -/
theorem flatMap_bytes_append_inj {code code' : List Instruction} (hfits : ∀ i ∈ code, i.Fits)
    (hfits' : ∀ i ∈ code', i.Fits) {rest rest' : List UInt8} (hrest : NoInstruction rest)
    (hrest' : NoInstruction rest')
    (h : code.flatMap Instruction.bytes ++ rest = code'.flatMap Instruction.bytes ++ rest') :
    code = code' ∧ rest = rest' := by
  induction code generalizing code' with
  | nil =>
    cases code' with
    | nil => exact ⟨rfl, h⟩
    | cons j code' =>
      rw [List.flatMap_cons, List.append_assoc] at h
      exact absurd h (hrest j (hfits' j List.mem_cons_self) _)
  | cons i code ih =>
    obtain ⟨hi, hcode⟩ := List.forall_mem_cons.mp hfits
    rw [List.flatMap_cons, List.append_assoc] at h
    cases code' with
    | nil => exact absurd h.symm (hrest' i hi _)
    | cons j code' =>
      obtain ⟨hj, hcode'⟩ := List.forall_mem_cons.mp hfits'
      rw [List.flatMap_cons, List.append_assoc] at h
      obtain ⟨rfl, htail⟩ := Instruction.bytes_append_inj hi hj h
      obtain ⟨rfl, rfl⟩ := ih hcode hcode' htail
      exact ⟨rfl, rfl⟩

namespace Bytecode

theorem decodeFrom_behind (n offset : Nat) (bytes : List UInt8) :
    decodeFrom (n + offset) bytes = (decodeFrom offset bytes).mapError (Fault.behind n) := by
  induction offset, bytes using decodeFrom.induct with
  | case1 offset =>
    rw [decodeFrom, decodeFrom]
    rfl
  | case2 offset k rest hk =>
    rw [decodeFrom, decodeFrom, hk]
    rfl
  | case3 offset k rest op hk hshort =>
    rw [decodeFrom, decodeFrom, hk]
    simp only [if_pos hshort]
    rfl
  | case4 offset k rest op hk hroom ih =>
    rw [decodeFrom, decodeFrom, hk]
    simp only [if_neg hroom]
    rw [Nat.add_assoc, ih]
    cases decodeFrom (offset + op.size) (rest.drop op.width) <;> rfl

theorem decode_append {code : List Instruction} {front : List UInt8}
    (h : encode code = .ok front) (rest : List UInt8) :
    decode (front ++ rest) =
      ((decode rest).mapError (Fault.behind front.length)).map (code ++ ·) := by
  have hlen := length_of_encode h
  obtain ⟨hfits, rfl⟩ := encode_eq_ok_iff.mp h
  have hshift := decodeFrom_behind (codeSize code) 0 rest
  rw [Nat.add_zero] at hshift
  rw [decode, decodeFrom_flatMap_bytes_append hfits, Nat.zero_add, hshift, hlen, decode]

theorem decode_append_of_ok {code more : List Instruction} {front rest : List UInt8}
    (h : encode code = .ok front) (hrest : decode rest = .ok more) :
    decode (front ++ rest) = .ok (code ++ more) := by
  rw [decode_append h, hrest]
  rfl

theorem decode_append_of_error {code : List Instruction} {front rest : List UInt8} {fault : Fault}
    (h : encode code = .ok front) (hrest : decode rest = .error fault) :
    decode (front ++ rest) = .error (fault.behind front.length) := by
  rw [decode_append h, hrest]
  rfl

/-- A place where reading may stop: the code before it, the byte that comes next, and what follows
that byte. -/
structure Stop where
  code : List Instruction
  byte : UInt8
  rest : List UInt8
  deriving DecidableEq, Repr

namespace Stop

def Splits (s : Stop) (bytes : List UInt8) : Prop :=
  ∃ front, encode s.code = .ok front ∧ bytes = front ++ s.byte :: s.rest

def Unknown (s : Stop) : Prop := ∀ op : Opcode, op.code ≠ s.byte

def CutsOff (s : Stop) (op : Opcode) : Prop := op.code = s.byte ∧ s.rest.length < op.width

def Blocks (s : Stop) : Prop := s.Unknown ∨ ∃ op, s.CutsOff op

theorem Blocks.noInstruction {s : Stop} (h : s.Blocks) : NoInstruction (s.byte :: s.rest) := by
  intro i hi more heq
  rw [Instruction.bytes, List.cons_append] at heq
  obtain ⟨hbyte, hrest⟩ := List.cons.inj heq
  rcases h with hunknown | ⟨op, hop, hshort⟩
  · exact hunknown i.opcode hbyte.symm
  · have hsame : op = i.opcode := Opcode.code_injective (hop.trans hbyte)
    rw [hrest, List.length_append, Word.length_padded hi, hsame] at hshort
    omega

theorem eq_of_splits {s t : Stop} (hs : s.Blocks) (ht : t.Blocks) {bytes : List UInt8}
    (hsplit : s.Splits bytes) (hsplit' : t.Splits bytes) : s = t := by
  obtain ⟨front, hfront, hbytes⟩ := hsplit
  obtain ⟨front', hfront', hbytes'⟩ := hsplit'
  obtain ⟨hfits, rfl⟩ := encode_eq_ok_iff.mp hfront
  obtain ⟨hfits', rfl⟩ := encode_eq_ok_iff.mp hfront'
  obtain ⟨hcode, hrest⟩ := flatMap_bytes_append_inj hfits hfits' hs.noInstruction
    ht.noInstruction (hbytes.symm.trans hbytes')
  obtain ⟨hbyte, hrest⟩ := List.cons.inj hrest
  cases s
  cases t
  cases hcode
  cases hbyte
  cases hrest
  rfl

theorem Splits.cons {s : Stop} {bytes : List UInt8} (h : s.Splits bytes) {i : Instruction}
    (hi : i.Fits) : Splits { s with code := i :: s.code } (i.bytes ++ bytes) := by
  obtain ⟨front, hfront, rfl⟩ := h
  obtain ⟨hfits, rfl⟩ := encode_eq_ok_iff.mp hfront
  have hencode := encode_of_fits (List.forall_mem_cons.mpr ⟨hi, hfits⟩)
  rw [List.flatMap_cons] at hencode
  exact ⟨_, hencode, (List.append_assoc _ _ _).symm⟩

theorem Splits.decode_of_unknown {s : Stop} {bytes : List UInt8} (h : s.Splits bytes)
    (hunknown : s.Unknown) : decode bytes = .error (.unknownCode s.byte) := by
  obtain ⟨front, hfront, rfl⟩ := h
  have hstop : decode (s.byte :: s.rest) = .error (.unknownCode s.byte) := by
    rw [decode, decodeFrom, Opcode.ofCode?_eq_none_iff.mpr hunknown]
  exact decode_append_of_error hfront hstop

theorem CutsOff.decode_eq {s : Stop} {op : Opcode} (hop : s.CutsOff op) {bytes front : List UInt8}
    (hfront : encode s.code = .ok front) (hbytes : bytes = front ++ s.byte :: s.rest) :
    decode bytes = .error (.truncated (front.length + 1) op.width s.rest.length) := by
  obtain ⟨hcode, hshort⟩ := hop
  have hstop : decode (s.byte :: s.rest) = .error (.truncated 1 op.width s.rest.length) := by
    rw [decode, decodeFrom, ← hcode, Opcode.ofCode?_code]
    simp only [if_pos hshort, Nat.zero_add]
  rw [hbytes]
  exact decode_append_of_error hfront hstop

end Stop

theorem decodeFrom_ok_or_stops (offset : Nat) (bytes : List UInt8) :
    (∃ code, decodeFrom offset bytes = .ok code) ∨ ∃ s : Stop, s.Splits bytes ∧ s.Blocks := by
  induction offset, bytes using decodeFrom.induct with
  | case1 offset => exact Or.inl ⟨[], by rw [decodeFrom]⟩
  | case2 offset k rest hk =>
    refine Or.inr ⟨⟨[], k, rest⟩, ⟨[], rfl, rfl⟩, Or.inl ?_⟩
    exact Opcode.ofCode?_eq_none_iff.mp hk
  | case3 offset k rest op hk hshort =>
    refine Or.inr ⟨⟨[], k, rest⟩, ⟨[], rfl, rfl⟩, Or.inr ⟨op, ?_, hshort⟩⟩
    exact Opcode.code_of_ofCode? hk
  | case4 offset k rest op hk hroom ih =>
    rcases ih with ⟨code, hmore⟩ | ⟨s, hsplits, hblocks⟩
    · refine Or.inl ⟨⟨op, .ofBytes (rest.take op.width)⟩ :: code, ?_⟩
      rw [decodeFrom, hk]
      simp only [if_neg hroom]
      rw [hmore]
      rfl
    · have hlen : (rest.take op.width).length = op.width := by
        rw [List.length_take]
        omega
      obtain ⟨hi, hfirst⟩ := Instruction.fits_ofBytes hlen
      have hcons := hsplits.cons hi
      rw [hfirst, Opcode.code_of_ofCode? hk, List.cons_append, List.take_append_drop] at hcons
      exact Or.inr ⟨_, hcons, hblocks⟩

/-- The byte at the cursor. The fault of an input that has ended there is left open. -/
def readByte (ended : Nat → Fault) (bytes : List UInt8) (cursor : Nat) :
    Except Fault (UInt8 × Nat) :=
  match bytes[cursor]? with
  | some byte => .ok (byte, cursor + 1)
  | none => .error (ended cursor)

def readImmediate (bytes : List UInt8) (cursor width : Nat) : Except Fault (List UInt8 × Nat) :=
  if bytes.length - cursor < width then
    .error (.truncated cursor width (bytes.length - cursor))
  else .ok ((bytes.drop cursor).take width, cursor + width)

def readInstruction (ended : Nat → Fault) (bytes : List UInt8) (cursor : Nat) :
    Except Fault (Instruction × Nat) := do
  let (code, cursor) ← readByte ended bytes cursor
  let op ← Opcode.findCode code
  let (immediate, cursor) ← readImmediate bytes cursor op.width
  return (⟨op, .ofBytes immediate⟩, cursor)

theorem readInstruction_of_ended (ended : Nat → Fault) {bytes : List UInt8} {cursor : Nat}
    (h : bytes.length ≤ cursor) : readInstruction ended bytes cursor = .error (ended cursor) := by
  have hbyte : readByte ended bytes cursor = .error (ended cursor) := by
    rw [readByte, List.getElem?_eq_none h]
  rw [readInstruction, hbyte]
  rfl

theorem readInstruction_eq (ended : Nat → Fault) {bytes rest : List UInt8} {cursor : Nat}
    {k : UInt8} (h : bytes.drop cursor = k :: rest) :
    readInstruction ended bytes cursor =
      match Opcode.ofCode? k with
      | none => .error (.unknownCode k)
      | some op =>
        if rest.length < op.width then .error (.truncated (cursor + 1) op.width rest.length)
        else .ok (⟨op, .ofBytes (rest.take op.width)⟩, cursor + op.size) := by
  have hbyte : readByte ended bytes cursor = .ok (k, cursor + 1) := by
    have hhead : (bytes.drop cursor)[0]? = some k := by rw [h]; rfl
    rw [List.getElem?_drop, Nat.add_zero] at hhead
    rw [readByte, hhead]
  have hrest : bytes.drop (cursor + 1) = rest := by
    rw [← List.drop_drop, h]
    rfl
  have hlength : bytes.length - (cursor + 1) = rest.length := by
    rw [← hrest, List.length_drop]
  rw [readInstruction, hbyte]
  cases hop : Opcode.ofCode? k with
  | none =>
    have hfind : Opcode.findCode k = .error (.unknownCode k) := by rw [Opcode.findCode, hop]
    simp only [bind, Except.bind, hfind]
  | some op =>
    have hfind : Opcode.findCode k = .ok op := by rw [Opcode.findCode, hop]
    by_cases hshort : rest.length < op.width
    · have himmediate : readImmediate bytes (cursor + 1) op.width =
          .error (.truncated (cursor + 1) op.width rest.length) := by
        rw [readImmediate, hlength, if_pos hshort]
      simp only [bind, Except.bind, hfind, himmediate, if_pos hshort]
    · have himmediate : readImmediate bytes (cursor + 1) op.width =
          .ok (rest.take op.width, cursor + op.size) := by
        rw [readImmediate, hlength, if_neg hshort, hrest, Nat.add_assoc]
        rfl
      simp only [bind, Except.bind, hfind, himmediate, if_neg hshort]
      rfl

theorem readInstruction_advances {ended : Nat → Fault} {bytes : List UInt8} {cursor next : Nat}
    {i : Instruction} (h : readInstruction ended bytes cursor = .ok (i, next)) : cursor < next := by
  cases hdrop : bytes.drop cursor with
  | nil =>
    rw [readInstruction_of_ended ended (List.drop_eq_nil_iff.mp hdrop)] at h
    cases h
  | cons k rest =>
    rw [readInstruction_eq ended hdrop] at h
    split at h
    · cases h
    · split at h
      · cases h
      · cases h
        unfold Opcode.size
        omega

def readAll (ended : Nat → Fault) (bytes : List UInt8) (cursor : Nat) :
    Except Fault (List Instruction) :=
  if cursor < bytes.length then
    match _hread : readInstruction ended bytes cursor with
    | .ok (i, next) => (readAll ended bytes next).map (i :: ·)
    | .error fault => .error fault
  else .ok []
termination_by bytes.length - cursor
decreasing_by
  have hnext := readInstruction_advances _hread
  omega

theorem readAll_of_lt (ended : Nat → Fault) {bytes : List UInt8} {cursor : Nat}
    (h : cursor < bytes.length) :
    readAll ended bytes cursor =
      match readInstruction ended bytes cursor with
      | .ok (i, next) => (readAll ended bytes next).map (i :: ·)
      | .error fault => .error fault := by
  rw [readAll, if_pos h]
  split <;> simp_all

theorem decodeFrom_drop (ended : Nat → Fault) {bytes : List UInt8} {cursor : Nat}
    (h : cursor < bytes.length) :
    decodeFrom cursor (bytes.drop cursor) =
      match readInstruction ended bytes cursor with
      | .ok (i, next) => (decodeFrom next (bytes.drop next)).map (i :: ·)
      | .error fault => .error fault := by
  have hdrop := List.drop_eq_getElem_cons h
  rw [readInstruction_eq ended hdrop, hdrop, decodeFrom]
  cases Opcode.ofCode? bytes[cursor] with
  | none => rfl
  | some op =>
    have hnext : bytes.drop (cursor + op.size) = (bytes.drop (cursor + 1)).drop op.width := by
      rw [List.drop_drop, Nat.add_assoc]
      rfl
    dsimp only
    split
    · rfl
    · dsimp only
      rw [hnext]

theorem readAll_eq_decodeFrom (ended : Nat → Fault) (bytes : List UInt8) (cursor : Nat) :
    readAll ended bytes cursor = decodeFrom cursor (bytes.drop cursor) := by
  induction cursor using readAll.induct ended bytes with
  | case1 cursor hin i next hread ih =>
    rw [readAll_of_lt ended hin, decodeFrom_drop ended hin, hread]
    dsimp only
    rw [ih]
  | case2 cursor hin fault hread =>
    rw [readAll_of_lt ended hin, decodeFrom_drop ended hin, hread]
  | case3 cursor hend =>
    rw [readAll, if_neg hend, List.drop_eq_nil_iff.mpr (Nat.le_of_not_lt hend), decodeFrom]

end Bytecode

theorem Hex.ofNat_byte (k : UInt8) :
    Hex.ofNat 2 k.toNat =
      String.ofList [Nat.digitChar (k.toNat / 16), Nat.digitChar (k.toNat % 16)] := by
  have digits : ∀ n < 256, (Nat.toDigits 16 n).leftpad 2 '0' =
      [Nat.digitChar (n / 16), Nat.digitChar (n % 16)] := by decide +kernel
  rw [Hex.ofNat, digits k.toNat k.toNat_lt]

theorem Fault.message_unknownCode (k : UInt8) :
    (Fault.unknownCode k).message = "unknown opcode 0x" ++
      String.ofList [Nat.digitChar (k.toNat / 16), Nat.digitChar (k.toNat % 16)] := by
  have hmessage : (Fault.unknownCode k).message = "unknown opcode 0x" ++ Hex.ofNat 2 k.toNat := rfl
  rw [hmessage, Hex.ofNat_byte]

def ExactlyOne (p q r : Prop) : Prop := (p ∧ ¬ q ∧ ¬ r) ∨ (¬ p ∧ q ∧ ¬ r) ∨ (¬ p ∧ ¬ q ∧ r)

theorem ExactlyOne.of_or {p q r : Prop} (h : p ∨ q ∨ r) (hpq : p → ¬ q) (hpr : p → ¬ r)
    (hqr : q → ¬ r) : ExactlyOne p q r := by
  rcases h with h | h | h
  · exact Or.inl ⟨h, hpq h, hpr h⟩
  · exact Or.inr (Or.inl ⟨fun hp => hpq hp h, h, hqr h⟩)
  · exact Or.inr (Or.inr ⟨fun hp => hpr hp h, fun hq => hqr hq h, h⟩)

namespace Bytecode

theorem exactlyOne_outcome (bytes : List UInt8) :
    ExactlyOne (∃ code, decode bytes = .ok code)
      (∃ s : Stop, s.Splits bytes ∧ s.Unknown)
      (∃ s : Stop, s.Splits bytes ∧ ∃ op, s.CutsOff op) := by
  have hcut : (∃ s : Stop, s.Splits bytes ∧ ∃ op, s.CutsOff op) →
      ∃ offset needed available, decode bytes = .error (.truncated offset needed available) := by
    rintro ⟨s, ⟨front, hfront, hbytes⟩, op, hop⟩
    exact ⟨_, _, _, hop.decode_eq hfront hbytes⟩
  apply ExactlyOne.of_or
  · rcases decodeFrom_ok_or_stops 0 bytes with hok | ⟨s, hsplits, hunknown | hop⟩
    · exact Or.inl hok
    · exact Or.inr (Or.inl ⟨s, hsplits, hunknown⟩)
    · exact Or.inr (Or.inr ⟨s, hsplits, hop⟩)
  · rintro ⟨code, hok⟩ ⟨s, hsplits, hunknown⟩
    cases hok.symm.trans (hsplits.decode_of_unknown hunknown)
  · rintro ⟨code, hok⟩ hstop
    obtain ⟨_, _, _, hfault⟩ := hcut hstop
    cases hok.symm.trans hfault
  · rintro ⟨s, hsplits, hunknown⟩ hstop
    obtain ⟨_, _, _, hfault⟩ := hcut hstop
    cases (hsplits.decode_of_unknown hunknown).symm.trans hfault

/-- Everything that decoding can answer. An input is an encoding, or reading it stops at one byte,
which the fault names: as two digits when it is no byte code, else by the offset behind it and the
bytes that its immediate lacks. Reading never runs past the end, so the fault for that is never
seen, and code put in front of an input only moves what was answered for it. -/
theorem decode_stops_at_one_byte (bytes : List UInt8) :
    ExactlyOne (∃ code, decode bytes = .ok code)
      (∃ s : Stop, s.Splits bytes ∧ s.Unknown)
      (∃ s : Stop, s.Splits bytes ∧ ∃ op, s.CutsOff op) ∧
    (∀ code, decode bytes = .ok code ↔ encode code = .ok bytes) ∧
    (∀ s t : Stop, s.Splits bytes → s.Blocks → t.Splits bytes → t.Blocks → s = t) ∧
    (∀ s : Stop, s.Splits bytes → s.Unknown →
      decode bytes = .error (.unknownCode s.byte) ∧
      (Fault.unknownCode s.byte).message = "unknown opcode 0x" ++
        String.ofList [Nat.digitChar (s.byte.toNat / 16), Nat.digitChar (s.byte.toNat % 16)]) ∧
    (∀ (s : Stop) (op : Opcode) (front : List UInt8), encode s.code = .ok front →
      bytes = front ++ s.byte :: s.rest → s.CutsOff op →
      decode bytes = .error (.truncated (front.length + 1) op.width s.rest.length)) ∧
    (∀ ended : Nat → Fault, readAll ended bytes 0 = decode bytes) ∧
    ∀ (code : List Instruction) (front : List UInt8), encode code = .ok front →
      (∀ more, decode bytes = .ok more → decode (front ++ bytes) = .ok (code ++ more)) ∧
      ∀ fault, decode bytes = .error fault →
        decode (front ++ bytes) = .error (fault.behind front.length) := by
  refine ⟨exactlyOne_outcome bytes, fun code => decode_eq_ok_iff, ?_, ?_, ?_, ?_, ?_⟩
  · intro s t hs hsblocks ht htblocks
    exact Stop.eq_of_splits hsblocks htblocks hs ht
  · intro s hsplits hunknown
    exact ⟨hsplits.decode_of_unknown hunknown, Fault.message_unknownCode s.byte⟩
  · intro s op front hfront hbytes hop
    exact hop.decode_eq hfront hbytes
  · intro ended
    exact readAll_eq_decodeFrom ended bytes 0
  · intro code front hfront
    exact ⟨fun _ => decode_append_of_ok hfront, fun _ => decode_append_of_error hfront⟩

/-- The same byte twice: the first belongs to an immediate, and reading stops at the second. -/
theorem decode_stops_behind_an_immediate :
    let bytes : List UInt8 := [0x60, 0x0c, 0x0c, 0x01]
    let stop : Stop := ⟨[⟨.push 1, .ofNat 0x0c⟩], 0x0c, [0x01]⟩
    stop.Splits bytes ∧ stop.Unknown ∧ decode bytes = .error (.unknownCode 0x0c) ∧
    (Fault.unknownCode 0x0c).message = "unknown opcode 0x0c" := by
  intro bytes stop
  have hsplits : stop.Splits bytes := ⟨[0x60, 0x0c], by decide +kernel, rfl⟩
  have hunknown : stop.Unknown := Opcode.ofCode?_eq_none_iff.mp (by decide +kernel)
  obtain ⟨_, _, _, hresult, _⟩ := decode_stops_at_one_byte bytes
  obtain ⟨hdecode, hmessage⟩ := hresult stop hsplits hunknown
  exact ⟨hsplits, hunknown, hdecode, hmessage.trans (by decide +kernel)⟩

end Bytecode

end Assembler
