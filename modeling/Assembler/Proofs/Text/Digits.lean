import Assembler.Text.Hex
import Assembler.Text.Utf8
import Mathlib.Data.List.Forall2
import Mathlib.Data.List.Induction

/-! Hexadecimal digits in texts. A text is read byte by byte, and a byte that denotes a digit is a
whole character, so the digits of a text are its characters up to letter case. -/

namespace Assembler

namespace Utf8

theorem encode_eq_nil_iff (text : String) : encode text = [] ↔ text = "" := by
  simp [encode, String.utf8EncodeChar_ne_nil, ← List.eq_nil_iff_forall_not_mem]

theorem utf8EncodeChar_of_lt {c : Char} (h : c.toNat < 128) :
    String.utf8EncodeChar c = [UInt8.ofNat c.toNat] := by
  have hle : c.val.toNat ≤ 127 := Nat.le_of_lt_succ h
  simp only [String.utf8EncodeChar, if_pos hle]
  rfl

theorem le_head_utf8EncodeChar {c : Char} {byte : UInt8} {rest : List UInt8}
    (hc : 128 ≤ c.toNat) (h : String.utf8EncodeChar c = byte :: rest) : 128 ≤ byte.toNat := by
  have hgt : ¬ c.val.toNat ≤ 127 := Nat.not_le_of_lt hc
  simp only [String.utf8EncodeChar, if_neg hgt] at h
  split at h
  · obtain ⟨rfl, _⟩ := List.cons.inj h
    rw [UInt8.toNat_ofNat']
    omega
  · split at h
    · obtain ⟨rfl, _⟩ := List.cons.inj h
      rw [UInt8.toNat_ofNat']
      omega
    · obtain ⟨rfl, _⟩ := List.cons.inj h
      rw [UInt8.toNat_ofNat']
      omega

/-- A byte below 128 at the front is the first character, and the only byte of it. -/
theorem flatMap_eq_cons {cs : List Char} {byte : UInt8} {rest : List UInt8}
    (h : cs.flatMap String.utf8EncodeChar = byte :: rest) (hbyte : byte.toNat < 128) :
    ∃ c more, cs = c :: more ∧ c.toNat = byte.toNat ∧
      rest = more.flatMap String.utf8EncodeChar := by
  cases cs with
  | nil => cases h
  | cons c more =>
    rw [List.flatMap_cons] at h
    by_cases hc : c.toNat < 128
    · rw [utf8EncodeChar_of_lt hc] at h
      obtain ⟨rfl, rfl⟩ := List.cons.inj h
      have hmod : c.toNat = c.toNat % 256 := by omega
      exact ⟨c, more, rfl, hmod.trans UInt8.toNat_ofNat'.symm, rfl⟩
    · cases hfirst : String.utf8EncodeChar c with
      | nil => exact absurd hfirst String.utf8EncodeChar_ne_nil
      | cons first others =>
        have hle := le_head_utf8EncodeChar (Nat.le_of_not_lt hc) hfirst
        rw [hfirst] at h
        obtain ⟨rfl, _⟩ := List.cons.inj h
        omega

end Utf8

namespace Hex

def digitByte (d : Fin 16) : UInt8 := UInt8.ofNat (Nat.digitChar d).toNat

def digitChar (d : Fin 16) : Char := Nat.digitChar d

/-- A byte of a text is the digit `d`, in lower or in upper case. -/
def Denotes (byte : UInt8) (d : Fin 16) : Prop :=
  byte = digitByte d ∨ byte = UInt8.ofNat (digitChar d).toUpper.toNat

def IsDigit (byte : UInt8) : Prop := ∃ d, Denotes byte d

instance (byte : UInt8) (d : Fin 16) : Decidable (Denotes byte d) :=
  inferInstanceAs (Decidable (_ ∨ _))

instance (byte : UInt8) : Decidable (IsDigit byte) :=
  inferInstanceAs (Decidable (∃ _, _))

theorem digit?_digitByte (d : Fin 16) : digit? (digitByte d) = some d := by
  revert d
  decide

theorem digit?_eq_some_iff (byte : UInt8) (d : Fin 16) : digit? byte = some d ↔ Denotes byte d := by
  constructor
  · have table : ∀ n < 256, ∀ d ∈ digit? (UInt8.ofNat n), Denotes (UInt8.ofNat n) d := by
      decide +kernel
    intro h
    simpa using table byte.toNat byte.toNat_lt d (by simpa using h)
  · have upper : ∀ d, digit? (UInt8.ofNat (digitChar d).toUpper.toNat) = some d := by decide
    rintro (rfl | rfl)
    · exact digit?_digitByte d
    · exact upper d

theorem digit?_eq_none_iff (byte : UInt8) : digit? byte = none ↔ ¬ IsDigit byte := by
  rw [Option.eq_none_iff_forall_ne_some]
  simp [IsDigit, digit?_eq_some_iff]

theorem denotes_iff_of_lt {c : Char} (h : c.toNat < 128) (d : Fin 16) :
    Denotes (UInt8.ofNat c.toNat) d ↔ c.toLower = digitChar d := by
  -- Through the reader each table has one row for a byte, not one for each of its sixteen digits.
  rw [← digit?_eq_some_iff]
  constructor
  · have table : ∀ n < 128, ∀ d ∈ digit? (UInt8.ofNat n), (Char.ofNat n).toLower = digitChar d := by
      decide +kernel
    intro hd
    simpa using table c.toNat h d hd
  · have table : ∀ n < 128,
        digit? (UInt8.ofNat n) = digit? (UInt8.ofNat (Char.ofNat n).toLower.toNat) := by
      decide +kernel
    intro hlower
    have hfold := table c.toNat h
    rw [Char.ofNat_toNat, hlower] at hfold
    exact hfold.trans (digit?_digitByte d)

theorem Denotes.lt {byte : UInt8} {d : Fin 16} (h : Denotes byte d) : byte.toNat < 128 := by
  have table : ∀ d : Fin 16, (digitByte d).toNat < 128 ∧
      (UInt8.ofNat (digitChar d).toUpper.toNat).toNat < 128 := by
    decide +kernel
  rcases h with rfl | rfl
  · exact (table d).1
  · exact (table d).2

theorem lt_of_toLower_eq_digitChar {c : Char} {d : Fin 16} (h : c.toLower = digitChar d) :
    c.toNat < 128 := by
  have table : ∀ d : Fin 16, (digitChar d).toNat < 128 := by decide +kernel
  by_cases hc : c.val ≥ 'A'.val ∧ c.val ≤ 'Z'.val
  · have hle : c.val.toNat ≤ 'Z'.val.toNat := hc.2
    exact Nat.lt_of_le_of_lt hle (by decide)
  · have hsame : c.toLower = c := dif_neg hc
    rw [← hsame, h]
    exact table d

/-- The bytes of a text denote digits exactly when its characters are these digits up to letter
case. -/
theorem forall₂_denotes_iff (cs : List Char) (ds : List (Fin 16)) :
    List.Forall₂ Denotes (cs.flatMap String.utf8EncodeChar) ds ↔
      cs.map Char.toLower = ds.map digitChar := by
  induction ds generalizing cs with
  | nil => simp [String.utf8EncodeChar_ne_nil, ← List.eq_nil_iff_forall_not_mem]
  | cons d ds ih =>
    rw [List.forall₂_cons_right_iff]
    constructor
    · rintro ⟨byte, rest, hbyte, hrest, hsplit⟩
      obtain ⟨c, more, rfl, hc, rfl⟩ := Utf8.flatMap_eq_cons hsplit hbyte.lt
      have hlt : c.toNat < 128 := hc ▸ hbyte.lt
      have hsame : UInt8.ofNat c.toNat = byte := by rw [hc, UInt8.ofNat_toNat]
      have hlower := (denotes_iff_of_lt hlt d).mp (hsame ▸ hbyte)
      simp [hlower, (ih more).mp hrest]
    · intro h
      cases cs with
      | nil => cases h
      | cons c more =>
        obtain ⟨hc, hmore⟩ := List.cons.inj h
        have hlt := lt_of_toLower_eq_digitChar hc
        refine ⟨_, _, (denotes_iff_of_lt hlt d).mpr hc, (ih more).mpr hmore, ?_⟩
        rw [List.flatMap_cons, Utf8.utf8EncodeChar_of_lt hlt]
        rfl

theorem exists_forall₂_denotes_iff (raw : List UInt8) :
    (∃ ds, List.Forall₂ Denotes raw ds) ↔ ∀ byte ∈ raw, IsDigit byte := by
  induction raw with
  | nil => simp
  | cons byte rest ih =>
    rw [List.forall_mem_cons, ← ih]
    constructor
    · rintro ⟨_ | ⟨d, ds⟩, h⟩
      · cases h
      · obtain ⟨hbyte, hrest⟩ := List.forall₂_cons.mp h
        exact ⟨⟨d, hbyte⟩, ds, hrest⟩
    · rintro ⟨⟨d, hbyte⟩, ds, hrest⟩
      exact ⟨d :: ds, .cons hbyte hrest⟩

def highDigit (b : UInt8) : Fin 16 := ⟨b.toNat / 16, by have := b.toNat_lt; omega⟩

def lowDigit (b : UInt8) : Fin 16 := ⟨b.toNat % 16, by omega⟩

theorem byteOfDigits_halves (b : UInt8) : byteOfDigits (highDigit b) (lowDigit b) = b := by
  rw [byteOfDigits, highDigit, lowDigit, Nat.div_add_mod, UInt8.ofNat_toNat]

theorem halves_byteOfDigits (high low : Fin 16) :
    highDigit (byteOfDigits high low) = high ∧ lowDigit (byteOfDigits high low) = low := by
  revert high low
  decide +kernel

def digits (bytes : List UInt8) : List (Fin 16) :=
  bytes.flatMap fun b => [highDigit b, lowDigit b]

theorem digits_cons (b : UInt8) (rest : List UInt8) :
    digits (b :: rest) = highDigit b :: lowDigit b :: digits rest := rfl

theorem length_digits (bytes : List UInt8) : (digits bytes).length = 2 * bytes.length := by
  induction bytes with
  | nil => rfl
  | cons b rest ih =>
    simp only [digits_cons, List.length_cons, ih]
    omega

theorem even_length_digits (bytes : List UInt8) : (digits bytes).length % 2 = 0 := by
  rw [length_digits, Nat.mul_mod_right]

theorem pairs_digits (bytes : List UInt8) : pairs (digits bytes) = bytes := by
  induction bytes with
  | nil => rfl
  | cons b rest ih =>
    rw [digits_cons, pairs, byteOfDigits_halves, ih]

theorem digits_pairs {ds : List (Fin 16)} (h : ds.length % 2 = 0) : digits (pairs ds) = ds := by
  induction ds using pairs.induct with
  | case1 high low rest ih =>
    obtain ⟨hhigh, hlow⟩ := halves_byteOfDigits high low
    have hrest : rest.length % 2 = 0 := by
      simp only [List.length_cons] at h
      omega
    rw [pairs, digits_cons, hhigh, hlow, ih hrest]
  | case2 ds hshort =>
    rcases ds with _ | ⟨d, _ | ⟨e, rest⟩⟩
    · rfl
    · cases h
    · exact absurd rfl (hshort d e rest)

theorem chars_eq (bytes : List UInt8) :
    chars bytes = (digits bytes).map digitChar := by
  rw [chars, digits, List.map_flatMap]
  rfl

theorem toList_toLower (text : String) : text.toLower.toList = text.toList.map Char.toLower :=
  String.toList_map

theorem toLower_ofBytes (bytes : List UInt8) : (ofBytes bytes).toLower = ofBytes bytes := by
  have lower : ∀ d, (digitChar d).toLower = digitChar d := by decide
  rw [← String.toList_inj, toList_toLower, ofBytes, String.toList_ofList, chars_eq, List.map_map]
  exact List.map_congr_left fun d _ => lower d

/-- A text is, up to letter case, what bytes are written as exactly when its bytes denote their
digits. -/
theorem toLower_eq_ofBytes_iff (text : String) (bytes : List UInt8) :
    text.toLower = ofBytes bytes ↔ List.Forall₂ Denotes (Utf8.encode text) (digits bytes) := by
  rw [Utf8.encode, forall₂_denotes_iff, ← chars_eq, ← String.toList_inj, toList_toLower, ofBytes,
    String.toList_ofList]

end Hex

end Assembler
