import Assembler.Instruction.SlotList
import Assembler.Proofs.Word.ByteSwap
import Assembler.Proofs.Word.Literal
import Mathlib.Data.List.TakeWhile

/-! Words are canonical. Whatever makes a word makes it from bytes and drops the zeros in front of
them, so a word has one form only: its value decides it, its bytes are as few as the value needs,
and eight of them hold exactly the machine integers. -/

namespace Assembler

namespace Word

theorem valueOfBytes_eq_ofDigits (bytes : List UInt8) :
    valueOfBytes bytes = Nat.ofDigits 256 (bytes.reverse.map UInt8.toNat) := by
  induction bytes with
  | nil => rfl
  | cons b rest ih =>
    simp only [valueOfBytes_cons, ih, List.reverse_cons, List.map_append, List.map_singleton,
      Nat.ofDigits_append, Nat.ofDigits_singleton, List.length_map, List.length_reverse]
    ring

theorem eq_of_valueOfBytes_eq {first second : List UInt8} (hlen : first.length = second.length)
    (h : valueOfBytes first = valueOfBytes second) : first = second := by
  have hsmall : ∀ bytes : List UInt8, ∀ d ∈ bytes.reverse.map UInt8.toNat, d < 256 := by
    intro bytes d hd
    obtain ⟨b, _, rfl⟩ := List.mem_map.mp hd
    exact b.toNat_lt
  rw [valueOfBytes_eq_ofDigits, valueOfBytes_eq_ofDigits] at h
  have hdigits := Nat.ofDigits_inj_of_len_eq (by decide) (by simpa using hlen) (hsmall first)
    (hsmall second) h
  have hbytes := List.map_injective_iff.mpr (fun _ _ => UInt8.toNat_inj.mp) hdigits
  exact List.reverse_injective hbytes

/-- The value decides the word. -/
theorem eq_of_value_eq {v w : Word} (h : v.value = w.value) : v = w := by
  have hsize : v.size = w.size := by
    apply Nat.le_antisymm
    · rw [size_le_iff, h, ← size_le_iff]
    · rw [size_le_iff, ← h, ← size_le_iff]
  obtain ⟨first, _⟩ := v
  obtain ⟨second, _⟩ := w
  obtain rfl : first = second := eq_of_valueOfBytes_eq hsize h
  rfl

/-- Only zeros in front are dropped. -/
theorem exists_zeros_append (raw : List UInt8) :
    ∃ zeros, raw = List.replicate zeros 0 ++ (ofBytes raw).bytes := by
  have hzeros : raw.takeWhile (· == 0) = List.replicate (raw.takeWhile (· == 0)).length 0 := by
    refine List.eq_replicate_iff.mpr ⟨rfl, fun b hb => ?_⟩
    simpa using List.mem_takeWhile_imp hb
  exact ⟨_, hzeros ▸ List.takeWhile_append_dropWhile.symm⟩

section Machine

theorem toNat_shiftIn {acc : UInt64} (h : acc.toNat * 256 < 2 ^ 64) (b : UInt8) :
    (shiftIn acc b).toNat = acc.toNat * 256 + b.toNat := by
  have hb : b.toNat < 2 ^ 8 := b.toNat_lt
  have hshift : (acc <<< 8).toNat = 2 ^ 8 * acc.toNat := by
    have hdistance : (8 : UInt64).toNat % 64 = 8 := rfl
    rw [UInt64.toNat_shiftLeft, hdistance, Nat.shiftLeft_eq, Nat.mul_comm]
    exact Nat.mod_eq_of_lt (Nat.mul_comm _ _ ▸ h)
  rw [shiftIn, UInt64.toNat_or, UInt8.toNat_toUInt64, hshift, ← Nat.two_pow_add_eq_or_of_lt hb,
    Nat.mul_comm]

/-- As long as there is room for the value, no shift loses a byte. -/
theorem toNat_foldl_shiftIn {acc : UInt64} {bytes : List UInt8}
    (h : acc.toNat * 256 ^ bytes.length + valueOfBytes bytes < 2 ^ 64) :
    (bytes.foldl shiftIn acc).toNat =
      acc.toNat * 256 ^ bytes.length + valueOfBytes bytes := by
  induction bytes generalizing acc with
  | nil => simp [valueOfBytes]
  | cons b rest ih =>
    have hvalue : acc.toNat * 256 ^ (b :: rest).length + valueOfBytes (b :: rest) =
        (acc.toNat * 256 + b.toNat) * 256 ^ rest.length + valueOfBytes rest := by
      rw [valueOfBytes_cons, List.length_cons]
      ring
    rw [hvalue] at h ⊢
    have hpos : 0 < 256 ^ rest.length := Nat.pow_pos (by decide)
    have hle := Nat.le_mul_of_pos_right (acc.toNat * 256 + b.toNat) hpos
    have hstep : (shiftIn acc b).toNat = acc.toNat * 256 + b.toNat := toNat_shiftIn (by omega) b
    rw [← hstep] at h ⊢
    exact ih h

theorem toUInt64?_eq (w : Word) :
    w.toUInt64?.map UInt64.toNat = if w.value < 2 ^ 64 then some w.value else none := by
  by_cases hsize : w.size ≤ 8
  · have hlt : w.value < 2 ^ 64 := (size_le_iff w 8).mp hsize
    have hstart : (0 : UInt64).toNat * 256 ^ w.bytes.length + valueOfBytes w.bytes = w.value := by
      rw [UInt64.toNat_zero, Nat.zero_mul, Nat.zero_add]
      rfl
    have hfold := toNat_foldl_shiftIn (hstart ▸ hlt)
    rw [toUInt64?, if_pos hsize, if_pos hlt, Option.map_some, hfold, hstart]
  · have hge : ¬ w.value < 2 ^ 64 := fun hlt => hsize ((size_le_iff w 8).mpr hlt)
    rw [toUInt64?, if_neg hsize, if_neg hge, Option.map_none]

theorem toUInt64?_eq_some_iff (w : Word) (n : Nat) :
    w.toUInt64?.map UInt64.toNat = some n ↔ w.value = n ∧ n < 2 ^ 64 := by
  rw [toUInt64?_eq]
  split
  · rename_i hlt
    constructor
    · rintro ⟨⟩
      exact ⟨rfl, hlt⟩
    · rintro ⟨rfl, _⟩
      rfl
  · rename_i hge
    constructor
    · intro h
      cases h
    · rintro ⟨rfl, hlt⟩
      exact absurd hlt hge

theorem toUInt64?_ofNat (n : UInt64) : (ofNat n.toNat).toUInt64? = some n := by
  have h := (toUInt64?_eq_some_iff _ n.toNat).mpr ⟨value_ofNat n.toNat, n.toNat_lt⟩
  obtain ⟨m, hm, hsame⟩ := Option.map_eq_some_iff.mp h
  rw [hm, UInt64.toNat_inj.mp hsame]

end Machine

def bigEndian (width n : Nat) : List UInt8 :=
  (List.range width).reverse.map fun i => UInt8.ofNat (n / 256 ^ i)

theorem valueOfBytes_bigEndian (width n : Nat) :
    valueOfBytes (bigEndian width n) = n % 256 ^ width := by
  induction width with
  | zero => rw [Nat.pow_zero, Nat.mod_one]; rfl
  | succ width ih =>
    have hcons : bigEndian (width + 1) n = UInt8.ofNat (n / 256 ^ width) :: bigEndian width n := by
      simp [bigEndian, List.range_succ]
    have hlen : (bigEndian width n).length = width := by simp [bigEndian]
    have hbyte : (UInt8.ofNat (n / 256 ^ width)).toNat = n / 256 ^ width % 256 :=
      UInt8.toNat_ofNat'
    rw [hcons, valueOfBytes_cons, ih, hlen, hbyte, Nat.mod_pow_succ, Nat.add_comm, Nat.mul_comm]

theorem ofBytes_bigEndian {width n : Nat} (h : n < 256 ^ width) :
    ofBytes (bigEndian width n) = ofNat n := by
  apply eq_of_value_eq
  rw [value_ofBytes, valueOfBytes_bigEndian, value_ofNat, Nat.mod_eq_of_lt h]

def literalBytes (text : String) : List UInt8 :=
  Hex.pack ((Utf8.encode (unprefixed text)).filterMap Hex.digit?)

theorem ofHex_eq_ofBytes {text : String} {w : Word} (h : ofHex text = .ok w) :
    w = ofBytes (literalBytes text) := by
  have hfilter : ∀ {raw : List UInt8} {ds : List (Fin 16)}, List.Forall₂ Hex.Denotes raw ds →
      raw.filterMap Hex.digit? = ds := by
    intro raw ds hds
    induction hds with
    | nil => rfl
    | cons hd _ ih => rw [List.filterMap_cons_some ((Hex.digit?_eq_some_iff _ _).mpr hd), ih]
  rcases ofHex_cases text with ⟨ds, _, hds, hread⟩ | ⟨_, hfail⟩ | ⟨byte, _, hfail⟩
  · rw [literalBytes, hfilter hds]
    exact Except.ok.inj (h.symm.trans hread)
  · cases h.symm.trans hfail
  · cases h.symm.trans hfail

/-- An immediate is read from the bytes behind its byte code. -/
theorem immediate_of_decode {input : List UInt8} {front back : List Instruction} {i : Instruction}
    (h : Bytecode.decode input = .ok (front ++ i :: back)) :
    i.immediate = ofBytes ((input.drop (codeSize front + 1)).take i.opcode.width) := by
  obtain ⟨hfits, rfl⟩ := Bytecode.bytes_of_decodeFrom h
  have hfront := Bytecode.length_flatMap_bytes fun j hj => hfits j (List.mem_append_left _ hj)
  have hi : i.Fits := hfits i (List.mem_append_right _ List.mem_cons_self)
  have hbytes : ((front ++ i :: back).flatMap Instruction.bytes).drop (codeSize front + 1) =
      i.immediate.padded i.opcode.width ++ back.flatMap Instruction.bytes := by
    rw [List.flatMap_append, List.flatMap_cons, ← List.drop_drop, List.drop_left' hfront]
    rfl
  rw [hbytes, List.take_left' (length_padded hi), ofBytes_padded]

/-- An operation makes the word `w`, and it makes it from the bytes `raw`. -/
inductive Produced : List UInt8 → Word → Prop
  | zero : Produced [] zero
  | ofBytes (raw : List UInt8) : Produced raw (ofBytes raw)
  | ofUnsigned {width n : Nat} (h : n < 256 ^ width) : Produced (bigEndian width n) (ofNat n)
  | ofHex {text : String} {w : Word} (h : ofHex text = .ok w) : Produced (literalBytes text) w
  | byteSwap {v w : Word} {width : Nat} (h : v.byteSwap width = .ok w) :
      Produced (v.bytes.reverse ++ List.replicate (width - v.size) 0) w
  | slotImmediate (slots : List Nat) :
      Produced (slots.flatMap fun slot => (ofNat slot).shownBytes) (slotImmediate slots)
  | immediate {input : List UInt8} {front back : List Instruction} {i : Instruction}
      (h : Bytecode.decode input = .ok (front ++ i :: back)) :
      Produced ((input.drop (codeSize front + 1)).take i.opcode.width) i.immediate

theorem Produced.eq_ofBytes {raw : List UInt8} {w : Word} (h : Produced raw w) :
    w = .ofBytes raw := by
  cases h with
  | zero => rfl
  | ofBytes => rfl
  | ofUnsigned h => exact (ofBytes_bigEndian h).symm
  | ofHex h => exact ofHex_eq_ofBytes h
  | byteSwap h =>
    obtain ⟨_, hw⟩ := byteSwap_eq_ok_iff.mp h
    rw [hw, reverse_padded]
  | slotImmediate => rfl
  | immediate h => exact immediate_of_decode h

/-- Every operation that makes a word drops exactly the zeros in front of the bytes it makes it
from. So words are the same exactly when their values are, a word takes `n` bytes exactly when its
value is below `256 ^ n`, and it is a machine integer exactly when its value is below `2 ^ 64`. -/
theorem words_have_one_form :
    (∀ raw w, Produced raw w →
      w.bytes.head? ≠ some 0 ∧ (∃ zeros, raw = List.replicate zeros 0 ++ w.bytes) ∧
      w.value = Nat.ofDigits 256 (raw.reverse.map UInt8.toNat)) ∧
    (∀ v w : Word, v = w ↔ v.value = w.value) ∧
    (∀ (w : Word) (n : Nat), w.size ≤ n ↔ w.value < 256 ^ n) ∧
    (∀ bytes, (ofBytes bytes).value = Nat.ofDigits 256 (bytes.reverse.map UInt8.toNat)) ∧
    (∀ (w : Word) (n : Nat),
      w.toUInt64?.map UInt64.toNat = some n ↔ w.value = n ∧ n < 2 ^ 64) ∧
    ∀ n : UInt64, (ofNat n.toNat).toUInt64? = some n := by
  have hvalue : ∀ bytes, (ofBytes bytes).value =
      Nat.ofDigits 256 (bytes.reverse.map UInt8.toNat) := by
    intro bytes
    rw [value_ofBytes, valueOfBytes_eq_ofDigits]
  refine ⟨?_, fun v w => ⟨fun h => h ▸ rfl, eq_of_value_eq⟩, size_le_iff, hvalue,
    toUInt64?_eq_some_iff, toUInt64?_ofNat⟩
  intro raw w hw
  obtain rfl := hw.eq_ofBytes
  exact ⟨(ofBytes raw).canonical, exists_zeros_append raw, hvalue raw⟩

end Word

end Assembler
