import Assembler.Instruction.Listing
import Assembler.Proofs.Word.Literal
import Mathlib.Data.List.TakeWhile
import Mathlib.Order.Bounds.Basic

/-! Listings are faithful. Each line stands for one instruction and names the byte where it was
read, although the offsets are summed up anew from the sizes, and the text has no second reading:
two byte strings with the same listing are the same. -/

namespace Assembler

namespace Hex

theorem value_concat (ds : List (Fin 16)) (d : Fin 16) : value (ds ++ [d]) = 16 * value ds + d := by
  simp only [value, List.reverse_append, List.reverse_singleton, List.singleton_append,
    List.map_cons, Nat.ofDigits_cons]
  ring

theorem value_replicate_append (k : Nat) (ds : List (Fin 16)) :
    value (List.replicate k 0 ++ ds) = value ds := by
  induction k with
  | zero => rfl
  | succ k ih => simp [List.replicate_succ, value_cons, ih]

/-- A text is `n` in lowercase digits, of which there are `width` or else as many as `n` takes. -/
structure Writes (width n : Nat) (text : String) : Prop where
  digits : ∃ ds, text.toList = ds.map digitChar ∧ value ds = n
  length : IsLeast {k | width ≤ k ∧ n < 16 ^ k} text.length

theorem toDigits_eq_map (n : Nat) : ∃ ds, Nat.toDigits 16 n = ds.map digitChar ∧ value ds = n := by
  induction n using Nat.strongRecOn with
  | ind n ih =>
    rw [Nat.toDigits_eq_if (by decide)]
    by_cases hn : n < 16
    · exact ⟨[⟨n, hn⟩], by simp [hn, digitChar], by simp [value]⟩
    · obtain ⟨ds, hds, hvalue⟩ := ih (n / 16) (by omega)
      refine ⟨ds ++ [⟨n % 16, by omega⟩], ?_, ?_⟩
      · simp [hn, hds, digitChar]
      · rw [value_concat, hvalue]
        exact Nat.div_add_mod n 16

theorem ofNat_writes {width : Nat} (hwidth : 0 < width) (n : Nat) :
    Writes width n (ofNat width n) := by
  have hlength : (ofNat width n).length = max width (Nat.toDigits 16 n).length := by
    rw [ofNat, String.length_ofList, List.length_leftpad]
  constructor
  · obtain ⟨ds, hds, hvalue⟩ := toDigits_eq_map n
    refine ⟨List.replicate (width - (Nat.toDigits 16 n).length) 0 ++ ds, ?_, ?_⟩
    · rw [ofNat, String.toList_ofList, List.leftpad, List.map_append, List.map_replicate, hds]
      rfl
    · rw [value_replicate_append, hvalue]
  · rw [hlength]
    constructor
    · refine ⟨Nat.le_max_left _ _, ?_⟩
      exact (Nat.length_toDigits_le_iff (by decide) (by omega)).mp (Nat.le_max_right _ _)
    · rintro k ⟨hk, hn⟩
      exact Nat.max_le.mpr ⟨hk, (Nat.length_toDigits_le_iff (by decide) (by omega)).mpr hn⟩

end Hex

/-- Characters that stand for themselves on one line. -/
def Plain (text : String) : Prop := ∀ c ∈ text.toList, 32 ≤ c.toNat ∧ c.toNat < 127

theorem plain_append {first second : String} (hfirst : Plain first) (hsecond : Plain second) :
    Plain (first ++ second) := by
  intro c hc
  rw [String.toList_append, List.mem_append] at hc
  rcases hc with hc | hc
  · exact hfirst c hc
  · exact hsecond c hc

theorem plain_of_digits {text : String} (ds : List (Fin 16))
    (h : text.toList = ds.map Hex.digitChar) : Plain text := by
  have table : ∀ d, 32 ≤ (Hex.digitChar d).toNat ∧ (Hex.digitChar d).toNat < 127 := by decide
  intro c hc
  rw [h, List.mem_map] at hc
  obtain ⟨d, _, rfl⟩ := hc
  exact table d

theorem plain_of_all {text : String}
    (h : text.toList.all fun c => decide (32 ≤ c.toNat ∧ c.toNat < 127)) : Plain text := by
  intro c hc
  exact of_decide_eq_true (List.all_eq_true.mp h c hc)

theorem Opcode.plain_name (op : Opcode) : Plain op.name ∧ ' ' ∉ op.name.toList := by
  -- `Plain` itself may be decided by trying every character there is.
  have table : ∀ op ∈ all, op.name.toList.all (fun c => decide (32 ≤ c.toNat ∧ c.toNat < 127)) ∧
      ' ' ∉ op.name.toList := by
    decide +kernel
  obtain ⟨hplain, hspace⟩ := table op op.mem_all
  exact ⟨plain_of_all hplain, hspace⟩

theorem Opcode.name_injective : Function.Injective name := by
  intro op op' h
  have hsome := op.ofName?_name
  rw [h, ofName?_name] at hsome
  exact (Option.some.inj hsome).symm

theorem Word.paddedHex_injective (n : Nat) : Function.Injective (paddedHex · n) := by
  intro w v h
  have hread := w.toBytes_paddedHex n
  have hsame : w.paddedHex n = v.paddedHex n := h
  rw [hsame, toBytes_paddedHex] at hread
  rw [← w.ofBytes_padded n, ← Except.ok.inj hread, ofBytes_padded]

namespace Instruction

theorem plain_text (i : Instruction) : Plain i.text := by
  unfold text
  split
  · exact i.opcode.plain_name.1
  · refine plain_append (plain_append i.opcode.plain_name.1 (plain_of_all (by decide))) ?_
    refine plain_of_digits (Hex.digits (i.immediate.padded i.opcode.width)) ?_
    rw [Word.paddedHex, Hex.ofBytes, String.toList_ofList, Hex.chars_eq]

/-- The mnemonic is the text up to the first space. -/
theorem takeWhile_text (i : Instruction) :
    i.text.toList.takeWhile (· ≠ ' ') = i.opcode.name.toList := by
  have hname : ∀ c ∈ i.opcode.name.toList, decide (c ≠ ' ') = true := by
    intro c hc
    have hne : c ≠ ' ' := fun hspace => i.opcode.plain_name.2 (hspace ▸ hc)
    simp [hne]
  unfold text
  split
  · exact List.takeWhile_eq_self_iff.mpr hname
  · rw [String.toList_append, String.toList_append, List.append_assoc,
      List.takeWhile_append_of_pos hname]
    simp

theorem text_injective {i j : Instruction} (hi : i.Fits) (hj : j.Fits) (h : i.text = j.text) :
    i = j := by
  have hname : i.opcode.name = j.opcode.name := by
    rw [← String.toList_inj, ← takeWhile_text, ← takeWhile_text, h]
  have hop := Opcode.name_injective hname
  obtain ⟨op, w⟩ := i
  obtain ⟨_, v⟩ := j
  cases hop
  have hw : w.size ≤ op.width := hi
  have hv : v.size ≤ op.width := hj
  by_cases hwidth : op.width = 0
  · rw [Word.eq_zero_of_size (w := w) (by omega), Word.eq_zero_of_size (w := v) (by omega)]
  · simp only [text, if_neg hwidth] at h
    rw [Word.paddedHex_injective op.width ((String.append_right_inj _).mp h)]

end Instruction

namespace Listing

theorem length_lines (offset : Nat) (code : List Instruction) :
    (lines offset code).length = code.length := by
  induction code generalizing offset with
  | nil => rfl
  | cons i rest ih => simp [lines, ih]

/-- Each line's offset is where its instruction begins. -/
theorem getElem?_lines (offset : Nat) (code : List Instruction) (k : Nat) :
    (lines offset code)[k]? = code[k]?.map (line (offset + codeSize (code.take k))) := by
  induction code generalizing offset k with
  | nil => rfl
  | cons i rest ih =>
    cases k with
    | zero => simp [lines, codeSize]
    | succ k => simp [lines, codeSize, ih, Nat.add_assoc]

/-- On a line, what is not plain can only be the marker. -/
theorem mem_line_iff {c : Char} (hc : ¬ (32 ≤ c.toNat ∧ c.toNat < 127)) (offset : Nat)
    (i : Instruction) : c ∈ (line offset i).toList ↔ c ∈ (marker i).toList := by
  have hoffset : c ∉ (Hex.ofNat 4 offset).toList := by
    obtain ⟨ds, hds, _⟩ := (Hex.ofNat_writes (by decide : 0 < 4) offset).digits
    exact fun hmem => hc (plain_of_digits ds hds c hmem)
  have hspace : c ≠ ' ' := by
    rintro rfl
    exact hc (by decide)
  have htext : c ∉ i.text.toList := fun hmem => hc (i.plain_text c hmem)
  simp [line, hoffset, hspace, htext]

theorem newline_notMem_line (offset : Nat) (i : Instruction) : '\n' ∉ (line offset i).toList := by
  rw [mem_line_iff (by decide)]
  unfold marker
  split <;> decide

theorem mark_mem_line_iff (offset : Nat) (i : Instruction) :
    '►' ∈ (line offset i).toList ↔ i.opcode = .jumpDest := by
  rw [mem_line_iff (by decide)]
  by_cases hi : i.opcode = .jumpDest
  · simp [marker, hi]
  · simp [marker, hi]

theorem splitOn_render (code : List Instruction) (base : Nat) :
    (render code base).toList.splitOn '\n' = (lines base code).map String.toList ++ [[]] := by
  rw [render, String.toList_join]
  induction code generalizing base with
  | nil => rfl
  | cons i rest ih =>
    simp only [lines, List.map_cons, List.flatMap_cons, String.toList_append, List.append_assoc,
      List.cons_append]
    exact (List.splitOn_append_cons_self_of_not_mem (newline_notMem_line base i) _).trans
      (congrArg _ (ih (base + i.size)))

theorem line_injective {offset : Nat} {i j : Instruction} (hi : i.Fits) (hj : j.Fits)
    (h : line offset i = line offset j) : i = j := by
  have hlength : (marker i).toList.length = (marker j).toList.length := by
    have hone : ∀ i, (marker i).toList.length = 1 := by
      intro i
      unfold marker
      split <;> rfl
    rw [hone, hone]
  simp only [line, String.append_assoc, String.append_right_inj] at h
  have hlists := String.toList_inj.mpr h
  simp only [String.toList_append] at hlists
  obtain ⟨_, htail⟩ := List.append_inj hlists hlength
  have htext := String.toList_inj.mp (List.append_cancel_left htail)
  exact Instruction.text_injective hi hj htext

theorem lines_injective {offset : Nat} {code other : List Instruction}
    (hcode : ∀ i ∈ code, i.Fits) (hother : ∀ i ∈ other, i.Fits)
    (h : lines offset code = lines offset other) : code = other := by
  induction code generalizing offset other with
  | nil =>
    cases other with
    | nil => rfl
    | cons j others => cases h
  | cons i rest ih =>
    cases other with
    | nil => cases h
    | cons j others =>
      obtain ⟨hi, hrest⟩ := List.forall_mem_cons.mp hcode
      obtain ⟨hj, hothers⟩ := List.forall_mem_cons.mp hother
      obtain ⟨hline, htail⟩ := List.cons.inj h
      cases line_injective hi hj hline
      rw [ih hrest hothers htail]

theorem render_injective {base : Nat} {code other : List Instruction}
    (hcode : ∀ i ∈ code, i.Fits) (hother : ∀ i ∈ other, i.Fits)
    (h : render code base = render other base) : code = other := by
  have hsplit := splitOn_render code base
  rw [h, splitOn_render] at hsplit
  have hinjective : Function.Injective String.toList := fun _ _ => String.toList_inj.mp
  have hlines := List.map_injective_iff.mpr hinjective (List.append_cancel_right hsplit)
  exact lines_injective hcode hother hlines.symm

end Listing

namespace Bytecode

/-- The instruction behind the first `k` is read at the byte where these end. -/
theorem decode_at {bytes : List UInt8} {code : List Instruction} {k : Nat} {i : Instruction}
    (h : decode bytes = .ok code) (hi : code[k]? = some i) :
    decode (bytes.take (codeSize (code.take k))) = .ok (code.take k) ∧
      bytes[codeSize (code.take k)]? = some i.opcode.code ∧
      decode (bytes.drop (codeSize (code.take k))) = .ok (code.drop k) := by
  obtain ⟨hk, rfl⟩ := List.getElem?_eq_some_iff.mp hi
  rw [decode_eq_ok_iff, ← List.take_append_drop k code] at h
  have hbyte : bytes[codeSize (code.take k)]? = some code[k].opcode.code := by
    apply getElem?_of_encode
    rw [← List.drop_eq_getElem_cons hk]
    exact h
  obtain ⟨first, second, hfirst, hsecond, rfl⟩ := encode_append_eq_ok_iff.mp h
  refine ⟨?_, hbyte, ?_⟩
  · rw [← length_of_encode hfirst, List.take_left]
    exact decode_of_encode hfirst
  · rw [← length_of_encode hfirst, List.drop_left]
    exact decode_of_encode hsecond

end Bytecode

namespace Listing

/-- A listing is a faithful disassembly. It has one line for each instruction of an input, which
begins with the offset of the byte where the instruction was read and carries the marker exactly
when that byte is a landing point, and inputs with the same listing are the same. -/
theorem render_disassembles :
    (∀ (bytes : List UInt8) (code : List Instruction) (base : Nat),
      Bytecode.decode bytes = .ok code →
      ∃ shown : List String,
        (render code base).toList.splitOn '\n' = shown.map String.toList ++ [[]] ∧
        shown.length = code.length ∧
        ∀ (k : Nat) (i : Instruction), code[k]? = some i →
          ∃ (p : Nat) (offset text : String),
            Bytecode.decode (bytes.take p) = .ok (code.take k) ∧
            bytes[p]? = some i.opcode.code ∧
            Bytecode.decode (bytes.drop p) = .ok (code.drop k) ∧
            Hex.Writes 4 (base + p) offset ∧
            shown[k]? = some text ∧
            text = offset ++ " " ++ (if bytes[p]? = some 0x5B then "►" else " ") ++ " " ++ i.text ∧
            ('►' ∈ text.toList ↔ bytes[p]? = some 0x5B)) ∧
    (∀ (bytes others : List UInt8) (code more : List Instruction) (base : Nat),
      Bytecode.decode bytes = .ok code → Bytecode.decode others = .ok more →
      render code base = render more base → bytes = others) := by
  constructor
  · intro bytes code base h
    refine ⟨lines base code, splitOn_render code base, length_lines base code, ?_⟩
    intro k i hi
    obtain ⟨hfront, hbyte, hback⟩ := Bytecode.decode_at h hi
    have hmark : bytes[codeSize (code.take k)]? = some 0x5B ↔ i.opcode = .jumpDest := by
      rw [hbyte, Option.some_inj]
      exact Opcode.code_injective.eq_iff (b := Opcode.jumpDest)
    refine ⟨codeSize (code.take k), Hex.ofNat 4 (base + codeSize (code.take k)),
      line (base + codeSize (code.take k)) i, hfront, hbyte, hback,
      Hex.ofNat_writes (by decide) _, ?_, ?_, ?_⟩
    · rw [getElem?_lines, hi, Option.map_some]
    · simp only [line, marker, hmark]
    · rw [mark_mem_line_iff, hmark]
  · intro bytes others code more base h hmore hrender
    obtain ⟨hfits, hbytes⟩ := Bytecode.bytes_of_decodeFrom h
    obtain ⟨hmoreFits, hothers⟩ := Bytecode.bytes_of_decodeFrom hmore
    rw [hbytes, hothers, render_injective hfits hmoreFits hrender]

example :
    render [⟨.push 1, .ofNat 3⟩, .plain .jump, .plain .jumpDest, .plain .stop] 16 =
      "0010   PUSH1 0x03\n0012   JUMP\n0013 ► JUMPDEST\n0014   STOP\n" := by
  decide +kernel

end Listing

end Assembler
