import Assembler.Instruction.HexText
import Assembler.Proofs.Instruction.RoundTrip
import Assembler.Proofs.Text.Digits

/-! Hexadecimal text is an exact form of bytes and of code. A text is read when it is, up to letter
case, what some bytes are written as, and these are the bytes it gives. Every other text is refused
for its odd length or for its first bad pair. -/

namespace Assembler

namespace HexText

open Hex

def FirstBadPair (raw : List UInt8) (k : Nat) (high low : UInt8) : Prop :=
  ∃ front back, raw = front ++ high :: low :: back ∧ front.length = 2 * k ∧
    (∀ byte ∈ front, IsDigit byte) ∧ ¬ (IsDigit high ∧ IsDigit low)

theorem readPairs_of_digits {high low : UInt8} {d e : Fin 16} (hd : Denotes high d)
    (he : Denotes low e) (position : Nat) (rest : List UInt8) :
    readPairs position (high :: low :: rest) =
      (readPairs (position + 1) rest).map (byteOfDigits d e :: ·) := by
  rw [readPairs, (digit?_eq_some_iff _ _).mpr hd, (digit?_eq_some_iff _ _).mpr he]

theorem readPairs_of_bad {high low : UInt8} (h : ¬ (IsDigit high ∧ IsDigit low))
    (position : Nat) (back : List UInt8) :
    readPairs position (high :: low :: back) = .error (.badHex (.badPair high low position)) := by
  rw [readPairs]
  split
  · rename_i d e hd he
    exact absurd ⟨⟨d, (digit?_eq_some_iff _ _).mp hd⟩, e, (digit?_eq_some_iff _ _).mp he⟩ h
  · rfl

theorem readPairs_of_denotes {raw bytes : List UInt8}
    (h : List.Forall₂ Denotes raw (digits bytes)) (position : Nat) :
    readPairs position raw = .ok bytes := by
  induction bytes generalizing raw position with
  | nil =>
    obtain rfl : raw = [] := List.forall₂_nil_right_iff.mp h
    rfl
  | cons b rest ih =>
    rw [digits_cons] at h
    obtain ⟨high, _, hhigh, htail, rfl⟩ := List.forall₂_cons_right_iff.mp h
    obtain ⟨low, raw, hlow, hrest, rfl⟩ := List.forall₂_cons_right_iff.mp htail
    rw [readPairs_of_digits hhigh hlow, ih hrest, byteOfDigits_halves]
    rfl

theorem FirstBadPair.readPairs {raw : List UInt8} {k : Nat} {high low : UInt8}
    (h : FirstBadPair raw k high low) (position : Nat) :
    readPairs position raw = .error (.badHex (.badPair high low (position + k))) := by
  obtain ⟨front, back, rfl, hlength, hfront, hbad⟩ := h
  induction k generalizing front position with
  | zero =>
    obtain rfl : front = [] := List.length_eq_zero_iff.mp hlength
    exact readPairs_of_bad hbad position back
  | succ k ih =>
    rcases front with _ | ⟨first, _ | ⟨second, front⟩⟩
    · cases hlength
    · simp only [List.length_singleton] at hlength
      omega
    · obtain ⟨⟨d, hd⟩, hfront⟩ := List.forall_mem_cons.mp hfront
      obtain ⟨⟨e, he⟩, hfront⟩ := List.forall_mem_cons.mp hfront
      have hrest : front.length = 2 * k := by
        simp only [List.length_cons] at hlength
        omega
      have hpos : position + 1 + k = position + (k + 1) := by omega
      rw [List.cons_append, List.cons_append, readPairs_of_digits hd he,
        ih (position + 1) front hrest hfront, hpos]
      rfl

theorem FirstBadPair.cons {raw : List UInt8} {k : Nat} {high low first second : UInt8}
    (h : FirstBadPair raw k high low) (hfirst : IsDigit first) (hsecond : IsDigit second) :
    FirstBadPair (first :: second :: raw) (k + 1) high low := by
  obtain ⟨front, back, rfl, hlength, hfront, hbad⟩ := h
  refine ⟨first :: second :: front, back, rfl, ?_, ?_, hbad⟩
  · simp only [List.length_cons, hlength]
    omega
  · exact List.forall_mem_cons.mpr ⟨hfirst, List.forall_mem_cons.mpr ⟨hsecond, hfront⟩⟩

/-- An even number of bytes denotes digits or has a first bad pair. -/
theorem denotes_or_firstBadPair {raw : List UInt8} (h : raw.length % 2 = 0) :
    (∃ bytes, List.Forall₂ Denotes raw (digits bytes)) ∨
      ∃ k high low, FirstBadPair raw k high low := by
  induction raw using List.twoStepInduction with
  | nil => exact Or.inl ⟨[], .nil⟩
  | singleton byte => cases h
  | cons_cons high low rest ih _ =>
    by_cases hdigits : IsDigit high ∧ IsDigit low
    · obtain ⟨⟨d, hd⟩, e, he⟩ := hdigits
      have hrest : rest.length % 2 = 0 := by
        simp only [List.length_cons] at h
        omega
      rcases ih hrest with ⟨bytes, hbytes⟩ | ⟨k, other, another, hbad⟩
      · refine Or.inl ⟨byteOfDigits d e :: bytes, ?_⟩
        obtain ⟨hhigh, hlow⟩ := halves_byteOfDigits d e
        rw [digits_cons, hhigh, hlow]
        exact .cons hd (.cons he hbytes)
      · exact Or.inr ⟨k + 1, other, another, hbad.cons ⟨d, hd⟩ ⟨e, he⟩⟩
    · exact Or.inr ⟨0, high, low, [], rest, rfl, rfl, List.forall_mem_nil _, hdigits⟩

theorem toBytes_of_odd {text : String} (h : (Utf8.encode text).length % 2 = 1) :
    toBytes text = .error (.badHex (.oddLength (Utf8.encode text).length)) := by
  simp [toBytes, h]

theorem FirstBadPair.toBytes {text : String} {k : Nat} {high low : UInt8}
    (h : FirstBadPair (Utf8.encode text) k high low) (heven : (Utf8.encode text).length % 2 = 0) :
    toBytes text = .error (.badHex (.badPair high low k)) := by
  simp [HexText.toBytes, heven, h.readPairs]

/-- A text is read as the bytes that it writes up to letter case. -/
theorem toBytes_eq_ok_iff (text : String) (bytes : List UInt8) :
    toBytes text = .ok bytes ↔ text.toLower = ofBytes bytes := by
  rw [ofBytes, toLower_eq_ofBytes_iff]
  constructor
  · intro h
    rcases Nat.mod_two_eq_zero_or_one (Utf8.encode text).length with heven | hodd
    · rcases denotes_or_firstBadPair heven with ⟨others, hothers⟩ | ⟨k, high, low, hbad⟩
      · have hread : toBytes text = .ok others := by
          simp [toBytes, heven, readPairs_of_denotes hothers]
        cases h.symm.trans hread
        exact hothers
      · cases h.symm.trans (hbad.toBytes heven)
    · cases h.symm.trans (toBytes_of_odd hodd)
  · intro h
    have heven : (Utf8.encode text).length % 2 = 0 := h.length_eq ▸ even_length_digits bytes
    simp [toBytes, heven, readPairs_of_denotes h]

theorem toBytes_ofBytes (bytes : List UInt8) : toBytes (ofBytes bytes) = .ok bytes :=
  (toBytes_eq_ok_iff _ bytes).mpr (toLower_ofBytes bytes)

theorem toBytes_isOk_iff (text : String) :
    (∃ bytes, toBytes text = .ok bytes) ↔
      (Utf8.encode text).length % 2 = 0 ∧ ∀ byte ∈ Utf8.encode text, IsDigit byte := by
  simp only [toBytes_eq_ok_iff, ofBytes, toLower_eq_ofBytes_iff]
  constructor
  · rintro ⟨bytes, h⟩
    exact ⟨h.length_eq ▸ even_length_digits bytes, (exists_forall₂_denotes_iff _).mp ⟨_, h⟩⟩
  · rintro ⟨heven, hdigits⟩
    obtain ⟨ds, hds⟩ := (exists_forall₂_denotes_iff _).mpr hdigits
    exact ⟨pairs ds, by rwa [digits_pairs (hds.length_eq ▸ heven)]⟩

theorem toBytes_eq_error_iff (text : String) (fault : Fault) :
    toBytes text = .error fault ↔
      ((Utf8.encode text).length % 2 = 1 ∧
        fault = .badHex (.oddLength (Utf8.encode text).length)) ∨
      ((Utf8.encode text).length % 2 = 0 ∧ ∃ k high low,
        FirstBadPair (Utf8.encode text) k high low ∧ fault = .badHex (.badPair high low k)) := by
  constructor
  · intro h
    rcases Nat.mod_two_eq_zero_or_one (Utf8.encode text).length with heven | hodd
    · rcases denotes_or_firstBadPair heven with ⟨bytes, hbytes⟩ | ⟨k, high, low, hbad⟩
      · cases h.symm.trans ((toBytes_eq_ok_iff text bytes).mpr
          ((toLower_eq_ofBytes_iff text bytes).mpr hbytes))
      · exact Or.inr ⟨heven, k, high, low, hbad,
          Except.error.inj (h.symm.trans (hbad.toBytes heven))⟩
    · exact Or.inl ⟨hodd, Except.error.inj (h.symm.trans (toBytes_of_odd hodd))⟩
  · rintro (⟨hodd, rfl⟩ | ⟨heven, k, high, low, hbad, rfl⟩)
    · exact toBytes_of_odd hodd
    · exact hbad.toBytes heven

theorem decode_eq_ok_iff (text : String) (code : List Instruction) :
    decode text = .ok code ↔ encode code = .ok text.toLower := by
  constructor
  · intro h
    cases hbytes : toBytes text with
    | error fault =>
      rw [decode, hbytes] at h
      cases h
    | ok bytes =>
      rw [decode, hbytes] at h
      rw [encode, Bytecode.decode_eq_ok_iff.mp h, (toBytes_eq_ok_iff text bytes).mp hbytes]
      rfl
  · intro h
    cases hbytes : Bytecode.encode code with
    | error fault =>
      rw [encode, hbytes] at h
      cases h
    | ok bytes =>
      rw [encode, hbytes] at h
      have hlower : text.toLower = ofBytes bytes := (Except.ok.inj h).symm
      rw [decode, (toBytes_eq_ok_iff text bytes).mpr hlower]
      exact Bytecode.decode_of_encode hbytes

/-- The text form is exact. A text is read exactly when it has an even number of bytes and each is
a digit; else the odd length counts before the first bad pair. Bytes are read back from their text,
and a text that is read is the text of its bytes up to letter case. The same holds of code, so two
texts stand for the same code exactly when they differ in letter case only. -/
theorem text_form_exact :
    (∀ text : String,
      ((∃ bytes, toBytes text = .ok bytes) ↔
        (Utf8.encode text).length % 2 = 0 ∧ ∀ byte ∈ Utf8.encode text, IsDigit byte) ∧
      (∀ fault, toBytes text = .error fault ↔
        ((Utf8.encode text).length % 2 = 1 ∧
          fault = .badHex (.oddLength (Utf8.encode text).length)) ∨
        ((Utf8.encode text).length % 2 = 0 ∧ ∃ k high low,
          FirstBadPair (Utf8.encode text) k high low ∧
          fault = .badHex (.badPair high low k))) ∧
      (∀ bytes, toBytes text = .ok bytes → ofBytes bytes = text.toLower)) ∧
    (∀ bytes, toBytes (ofBytes bytes) = .ok bytes) ∧
    (∀ code : List Instruction, (∀ i ∈ code, i.immediate.size ≤ i.opcode.width) →
      ∃ text, encode code = .ok text ∧ decode text = .ok code) ∧
    (∀ text code, decode text = .ok code → encode code = .ok text.toLower) ∧
    (∀ text other code, decode text = .ok code →
      (decode other = .ok code ↔ other.toLower = text.toLower)) := by
  refine ⟨fun text => ⟨toBytes_isOk_iff text, toBytes_eq_error_iff text, ?_⟩, toBytes_ofBytes,
    ?_, ?_, ?_⟩
  · intro bytes h
    exact ((toBytes_eq_ok_iff text bytes).mp h).symm
  · intro code h
    have hencode : encode code = .ok (ofBytes (code.flatMap Instruction.bytes)) := by
      rw [encode, Bytecode.encode_of_fits h]
      rfl
    refine ⟨_, hencode, (decode_eq_ok_iff _ code).mpr ?_⟩
    rw [hencode, ofBytes, toLower_ofBytes]
  · intro text code h
    exact (decode_eq_ok_iff text code).mp h
  · intro text other code h
    rw [decode_eq_ok_iff] at h ⊢
    rw [h]
    constructor
    · intro hsame
      exact (Except.ok.inj hsame).symm
    · intro hsame
      rw [hsame]

end HexText

end Assembler
