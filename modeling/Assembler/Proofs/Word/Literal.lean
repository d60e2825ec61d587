import Assembler.Proofs.Instruction.HexText
import Mathlib.Data.Nat.Digits.Lemmas

/-! Words as hexadecimal literals. A literal is one or more digits behind at most one prefix, and
its word has the value of the digits in base 16; an odd number of digits shifts all pairs by one,
and the value does not see it. What is written for a word is read back as that word. -/

namespace Assembler

namespace Hex

theorem length_pairs {ds : List (Fin 16)} (h : ds.length % 2 = 0) :
    2 * (pairs ds).length = ds.length := by
  rw [← length_digits, digits_pairs h]

theorem pack_digits (bytes : List UInt8) : pack (digits bytes) = bytes := by
  rw [pack, if_pos (even_length_digits bytes), pairs_digits]

def value (ds : List (Fin 16)) : Nat := Nat.ofDigits 16 (ds.reverse.map Fin.val)

theorem value_cons (d : Fin 16) (ds : List (Fin 16)) :
    value (d :: ds) = d.val * 16 ^ ds.length + value ds := by
  simp only [value, List.reverse_cons, List.map_append, List.map_singleton, Nat.ofDigits_append,
    Nat.ofDigits_singleton, List.length_map, List.length_reverse]
  ring

theorem toNat_byteOfDigits (high low : Fin 16) :
    (byteOfDigits high low).toNat = 16 * high.val + low.val := by
  have := high.isLt
  have := low.isLt
  rw [byteOfDigits, UInt8.toNat_ofNat']
  omega

theorem valueOfBytes_pairs {ds : List (Fin 16)} (h : ds.length % 2 = 0) :
    Word.valueOfBytes (pairs ds) = value ds := by
  induction ds using List.twoStepInduction with
  | nil => rfl
  | singleton d => cases h
  | cons_cons high low rest ih _ =>
    have hrest : rest.length % 2 = 0 := by
      simp only [List.length_cons] at h
      omega
    have hpow : 256 ^ (pairs rest).length = 16 ^ rest.length := by
      rw [← length_pairs hrest, Nat.pow_mul]
    rw [pairs, Word.valueOfBytes_cons, ih hrest, hpow, toNat_byteOfDigits, value_cons, value_cons,
      List.length_cons]
    ring

/-- The zero in front of an odd number of digits does not change the value. -/
theorem valueOfBytes_pack (ds : List (Fin 16)) : Word.valueOfBytes (pack ds) = value ds := by
  rw [pack]
  split
  · rename_i heven
    exact valueOfBytes_pairs heven
  · have heven : (0 :: ds).length % 2 = 0 := by
      rw [List.length_cons]
      omega
    rw [valueOfBytes_pairs heven, value_cons]
    simp

def FirstBadDigit (raw : List UInt8) (byte : UInt8) : Prop :=
  ∃ front back, raw = front ++ byte :: back ∧ (∀ b ∈ front, IsDigit b) ∧ ¬ IsDigit byte

theorem denotes_or_firstBadDigit (raw : List UInt8) :
    (∃ ds, List.Forall₂ Denotes raw ds) ∨ ∃ byte, FirstBadDigit raw byte := by
  induction raw with
  | nil => exact Or.inl ⟨[], .nil⟩
  | cons byte rest ih =>
    by_cases hbyte : IsDigit byte
    · rcases ih with ⟨ds, hds⟩ | ⟨bad, front, back, rfl, hfront, hbad⟩
      · obtain ⟨d, hd⟩ := hbyte
        exact Or.inl ⟨d :: ds, .cons hd hds⟩
      · exact Or.inr ⟨bad, byte :: front, back, rfl, List.forall_mem_cons.mpr ⟨hbyte, hfront⟩, hbad⟩
    · exact Or.inr ⟨byte, [], rest, rfl, List.forall_mem_nil _, hbyte⟩

end Hex

namespace Word

open Hex

theorem readDigits_of_denotes {raw : List UInt8} {ds : List (Fin 16)}
    (h : List.Forall₂ Denotes raw ds) : readDigits raw = .ok ds := by
  induction h with
  | nil => rfl
  | cons hd _ ih =>
    rw [readDigits, (digit?_eq_some_iff _ _).mpr hd]
    simp only [ih]
    rfl

theorem readDigits_of_firstBadDigit {raw : List UInt8} {byte : UInt8}
    (h : FirstBadDigit raw byte) : readDigits raw = .error byte := by
  obtain ⟨front, back, rfl, hfront, hbad⟩ := h
  induction front with
  | nil => rw [List.nil_append, readDigits, (digit?_eq_none_iff byte).mpr hbad]
  | cons b front ih =>
    obtain ⟨⟨d, hd⟩, hfront⟩ := List.forall_mem_cons.mp hfront
    rw [List.cons_append, readDigits, (digit?_eq_some_iff b d).mpr hd]
    simp only [ih hfront]
    rfl

def unprefixed (text : String) : String :=
  match text.toList with
  | '0' :: 'x' :: rest => String.ofList rest
  | '0' :: 'X' :: rest => String.ofList rest
  | _ => text

/-- Two bytes below 128 in front are the first two characters. -/
theorem toList_of_encode {text : String} {first second : UInt8} {rest : List UInt8}
    (h : Utf8.encode text = first :: second :: rest) (hfirst : first.toNat < 128)
    (hsecond : second.toNat < 128) :
    ∃ more, text.toList = Char.ofNat first.toNat :: Char.ofNat second.toNat :: more ∧
      rest = Utf8.encode (String.ofList more) := by
  obtain ⟨c, tail, htext, hc, htail⟩ := Utf8.flatMap_eq_cons h hfirst
  obtain ⟨e, more, rfl, he, rfl⟩ := Utf8.flatMap_eq_cons htail.symm hsecond
  refine ⟨more, ?_, by rw [Utf8.encode, String.toList_ofList]⟩
  rw [htext, ← hc, ← he, Char.ofNat_toNat, Char.ofNat_toNat]

theorem literalDigits_encode (text : String) :
    literalDigits (Utf8.encode text) = Utf8.encode (unprefixed text) := by
  unfold literalDigits
  split
  · rename_i rest h
    obtain ⟨more, htext, rfl⟩ := toList_of_encode h (by decide) (by decide)
    have hchars : text.toList = '0' :: 'x' :: more := htext
    simp [unprefixed, hchars]
  · rename_i rest h
    obtain ⟨more, htext, rfl⟩ := toList_of_encode h (by decide) (by decide)
    have hchars : text.toList = '0' :: 'X' :: more := htext
    simp [unprefixed, hchars]
  · rename_i hlower hupper
    unfold unprefixed
    split
    · rename_i rest h
      exact absurd (by rw [Utf8.encode, h]; rfl) (hlower (rest.flatMap String.utf8EncodeChar))
    · rename_i rest h
      exact absurd (by rw [Utf8.encode, h]; rfl) (hupper (rest.flatMap String.utf8EncodeChar))
    · rfl

theorem ofHex_of_denotes {text : String} {ds : List (Fin 16)} (hne : ds ≠ [])
    (h : List.Forall₂ Denotes (Utf8.encode (unprefixed text)) ds) :
    ofHex text = .ok (ofBytes (pack ds)) := by
  have hraw : Utf8.encode (unprefixed text) ≠ [] := by
    intro hnil
    rw [hnil, List.forall₂_nil_left_iff] at h
    exact hne h
  rw [ofHex, literalDigits_encode]
  simp [hraw, readDigits_of_denotes h]

theorem ofHex_of_firstBadDigit {text : String} {byte : UInt8}
    (h : FirstBadDigit (Utf8.encode (unprefixed text)) byte) :
    ofHex text = .error (.badHex (.badDigit byte text)) := by
  have hraw : Utf8.encode (unprefixed text) ≠ [] := by
    obtain ⟨front, back, heq, _⟩ := h
    simp [heq]
  rw [ofHex, literalDigits_encode]
  simp [hraw, readDigits_of_firstBadDigit h]

theorem ofHex_of_empty {text : String} (h : unprefixed text = "") :
    ofHex text = .error (.badHex (.emptyLiteral text)) := by
  have hraw : Utf8.encode (unprefixed text) = [] := (Utf8.encode_eq_nil_iff _).mpr h
  rw [ofHex, literalDigits_encode, hraw]
  rfl

/-- A literal is read, has no digits, or is refused for its first bad one. -/
theorem ofHex_cases (text : String) :
    (∃ ds, ds ≠ [] ∧ List.Forall₂ Denotes (Utf8.encode (unprefixed text)) ds ∧
      ofHex text = .ok (ofBytes (pack ds))) ∨
    (unprefixed text = "" ∧ ofHex text = .error (.badHex (.emptyLiteral text))) ∨
    ∃ byte, FirstBadDigit (Utf8.encode (unprefixed text)) byte ∧
      ofHex text = .error (.badHex (.badDigit byte text)) := by
  rcases denotes_or_firstBadDigit (Utf8.encode (unprefixed text)) with ⟨ds, hds⟩ | ⟨byte, hbad⟩
  · by_cases hne : ds = []
    · subst ds
      have hempty := (Utf8.encode_eq_nil_iff _).mp (List.forall₂_nil_right_iff.mp hds)
      exact Or.inr (Or.inl ⟨hempty, ofHex_of_empty hempty⟩)
    · exact Or.inl ⟨ds, hne, hds, ofHex_of_denotes hne hds⟩
  · exact Or.inr (Or.inr ⟨byte, hbad, ofHex_of_firstBadDigit hbad⟩)

theorem ofHex_isOk_iff (text : String) :
    (∃ w, ofHex text = .ok w) ↔
      unprefixed text ≠ "" ∧ ∀ byte ∈ Utf8.encode (unprefixed text), IsDigit byte := by
  constructor
  · rintro ⟨w, h⟩
    rcases ofHex_cases text with ⟨ds, hne, hds, _⟩ | ⟨_, hfail⟩ | ⟨byte, _, hfail⟩
    · refine ⟨?_, (exists_forall₂_denotes_iff _).mp ⟨ds, hds⟩⟩
      intro hempty
      rw [hempty] at hds
      exact hne (List.forall₂_nil_left_iff.mp hds)
    · cases h.symm.trans hfail
    · cases h.symm.trans hfail
  · rintro ⟨hne, hdigits⟩
    obtain ⟨ds, hds⟩ := (exists_forall₂_denotes_iff _).mpr hdigits
    refine ⟨_, ofHex_of_denotes ?_ hds⟩
    rintro rfl
    exact hne ((Utf8.encode_eq_nil_iff _).mp (List.forall₂_nil_right_iff.mp hds))

theorem value_of_ofHex {text : String} {w : Word} (h : ofHex text = .ok w) :
    ∃ ds, List.Forall₂ Denotes (Utf8.encode (unprefixed text)) ds ∧ w.value = Hex.value ds := by
  rcases ofHex_cases text with ⟨ds, _, hds, hread⟩ | ⟨_, hfail⟩ | ⟨byte, _, hfail⟩
  · cases h.symm.trans hread
    exact ⟨ds, hds, by rw [value_ofBytes, valueOfBytes_pack]⟩
  · cases h.symm.trans hfail
  · cases h.symm.trans hfail

theorem ofHex_eq_error_iff (text : String) (fault : Fault) :
    ofHex text = .error fault ↔
      (unprefixed text = "" ∧ fault = .badHex (.emptyLiteral text)) ∨
      ∃ byte, FirstBadDigit (Utf8.encode (unprefixed text)) byte ∧
        fault = .badHex (.badDigit byte text) := by
  constructor
  · intro h
    rcases ofHex_cases text with ⟨ds, _, _, hread⟩ | ⟨hempty, hfail⟩ | ⟨byte, hbad, hfail⟩
    · cases h.symm.trans hread
    · exact Or.inl ⟨hempty, Except.error.inj (h.symm.trans hfail)⟩
    · exact Or.inr ⟨byte, hbad, Except.error.inj (h.symm.trans hfail)⟩
  · rintro (⟨hempty, rfl⟩ | ⟨byte, hbad, rfl⟩)
    · exact ofHex_of_empty hempty
    · exact ofHex_of_firstBadDigit hbad

theorem unprefixed_lower (text : String) : unprefixed ("0x" ++ text) = text := by
  simp [unprefixed]

theorem unprefixed_upper (text : String) : unprefixed ("0X" ++ text) = text := by
  simp [unprefixed]

/-- The letter of a prefix is no digit. -/
theorem unprefixed_of_digits {text : String} (h : ∀ byte ∈ Utf8.encode text, IsDigit byte) :
    unprefixed text = text := by
  unfold unprefixed
  split
  · rename_i rest htext
    have hmem : 0x78 ∈ Utf8.encode text := by
      rw [Utf8.encode, htext]
      exact List.mem_cons_of_mem _ List.mem_cons_self
    exact absurd (h _ hmem) (by decide)
  · rename_i rest htext
    have hmem : 0x58 ∈ Utf8.encode text := by
      rw [Utf8.encode, htext]
      exact List.mem_cons_of_mem _ List.mem_cons_self
    exact absurd (h _ hmem) (by decide)
  · rfl

/-- The two readers of hexadecimal text agree, with a prefix or without. -/
theorem ofHex_of_toBytes {literal text : String} {bytes : List UInt8}
    (hliteral : unprefixed literal = text) (hne : text ≠ "")
    (h : HexText.toBytes text = .ok bytes) : ofHex literal = .ok (ofBytes bytes) := by
  have hds := (toLower_eq_ofBytes_iff text bytes).mp ((HexText.toBytes_eq_ok_iff text bytes).mp h)
  rw [← hliteral] at hds hne
  rw [ofHex_of_denotes ?_ hds, pack_digits]
  intro hnil
  rw [hnil] at hds
  exact hne ((Utf8.encode_eq_nil_iff _).mp (List.forall₂_nil_right_iff.mp hds))

theorem unprefixed_of_toBytes {text : String} {bytes : List UInt8}
    (h : HexText.toBytes text = .ok bytes) : unprefixed text = text :=
  unprefixed_of_digits ((HexText.toBytes_isOk_iff text).mp ⟨bytes, h⟩).2

theorem toBytes_paddedHex (w : Word) (n : Nat) :
    HexText.toBytes (w.paddedHex n) = .ok (w.padded n) :=
  HexText.toBytes_ofBytes _

theorem length_paddedHex (w : Word) (n : Nat) : (w.paddedHex n).length = 2 * max n w.size := by
  rw [paddedHex, Hex.ofBytes, String.length_ofList, chars_eq, List.length_map, length_digits,
    padded, List.length_leftpad]
  rfl

theorem eq_zero_of_size {w : Word} (h : w.size = 0) : w = zero := by
  obtain ⟨bytes, canonical⟩ := w
  obtain rfl : bytes = [] := List.length_eq_zero_iff.mp h
  rfl

theorem paddedHex_ne_empty {w : Word} {n : Nat} (h : 1 ≤ n ∨ w ≠ zero) : w.paddedHex n ≠ "" := by
  intro hempty
  have hlength := w.length_paddedHex n
  rw [hempty, String.length_empty] at hlength
  rcases h with hn | hw
  · omega
  · exact hw (eq_zero_of_size (by omega))

/-- A literal is read exactly when it is one or more digits behind at most one prefix, and its word
has their value in base 16; else the first bad digit is named. The text of a word is read back as
that word, padded or not and with a prefix or without, and where a text stands for bytes too, its
word is the word of the bytes. -/
theorem hex_literals_stand_for_words :
    (∀ text : String,
      ((∃ w, ofHex text = .ok w) ↔
        unprefixed text ≠ "" ∧ ∀ byte ∈ Utf8.encode (unprefixed text), IsDigit byte) ∧
      (∀ w, ofHex text = .ok w → ∃ ds, List.Forall₂ Denotes (Utf8.encode (unprefixed text)) ds ∧
        w.value = Nat.ofDigits 16 (ds.reverse.map Fin.val)) ∧
      (∀ fault, ofHex text = .error fault ↔
        (unprefixed text = "" ∧ fault = .badHex (.emptyLiteral text)) ∨
        ∃ byte, FirstBadDigit (Utf8.encode (unprefixed text)) byte ∧
          fault = .badHex (.badDigit byte text))) ∧
    (∀ (w : Word) (n : Nat), 1 ≤ n ∨ w ≠ zero →
      ofHex (w.paddedHex n) = .ok w ∧ ofHex ("0x" ++ w.paddedHex n) = .ok w ∧
      ofHex ("0X" ++ w.paddedHex n) = .ok w) ∧
    (∀ w : Word, ofHex w.hex = .ok w) ∧
    (∀ (w : Word) (n : Nat), (w.paddedHex n).length = 2 * max n w.size ∧
      ∀ byte ∈ Utf8.encode (w.paddedHex n), IsDigit byte) ∧
    (∀ text bytes, text ≠ "" → HexText.toBytes text = .ok bytes →
      ofHex text = .ok (ofBytes bytes)) := by
  have hread : ∀ (w : Word) (n : Nat) (literal : String), 1 ≤ n ∨ w ≠ zero →
      unprefixed literal = w.paddedHex n → ofHex literal = .ok w := by
    intro w n literal hne hliteral
    rw [ofHex_of_toBytes hliteral (paddedHex_ne_empty hne) (w.toBytes_paddedHex n), ofBytes_padded]
  refine ⟨fun text => ⟨ofHex_isOk_iff text, fun w => value_of_ofHex, ofHex_eq_error_iff text⟩,
    ?_, ?_, ?_, ?_⟩
  · intro w n hne
    exact ⟨hread w n _ hne (unprefixed_of_toBytes (w.toBytes_paddedHex n)),
      hread w n _ hne (unprefixed_lower _), hread w n _ hne (unprefixed_upper _)⟩
  · intro w
    exact hread w 1 _ (Or.inl (Nat.le_refl 1)) (unprefixed_of_toBytes (w.toBytes_paddedHex 1))
  · intro w n
    exact ⟨w.length_paddedHex n, ((HexText.toBytes_isOk_iff _).mp ⟨_, w.toBytes_paddedHex n⟩).2⟩
  · intro text bytes hne h
    exact ofHex_of_toBytes (unprefixed_of_toBytes h) hne h

end Word

end Assembler
