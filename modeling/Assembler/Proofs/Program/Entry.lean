import Assembler.Proofs.Program.History
import Assembler.Proofs.Segment.Emission

/-! The entry of a program: a dispatcher in front of all segments whose jump lands on the segment
it names, although the literal of the jump moves everything behind it. -/

namespace Assembler

namespace Program

def entryJump (n : Fin 33) (e : Nat) : List Instruction := [⟨.push n, .ofNat e⟩, .plain .jump]

/-- The dispatcher's literal counts the push, the jump, what they skip and its own bytes. -/
theorem dispatcherCode_ok {skipped e : Nat} (h : (dispatcherCode skipped).outcome = .ok e) :
    ∃ n : Fin 33, n.val = (Word.ofNat e).size ∧ e = 2 + skipped + n.val ∧
      (dispatcherCode skipped).code = entryJump n e := by
  obtain ⟨_, hpush, h, hcode⟩ := Emission.bind_ok h
  have he : (SelfSized.solve (2 + skipped)).value = e := Except.ok.inj h
  have hword : (SelfSized.solve (2 + skipped)).word = .ofNat e := by rw [← he]; rfl
  rw [hword] at hpush hcode
  by_cases hsize : (Word.ofNat e).size < 33
  · have hvalue := SelfSized.solve_value (2 + skipped)
    rw [SelfSized.solve_width, he] at hvalue
    refine ⟨⟨_, hsize⟩, rfl, hvalue, ?_⟩
    rw [dispatcherCode, hword, hcode, Emission.push_of_fits hsize]
    rfl
  · rw [Emission.push_of_wide hsize] at hpush
    cases hpush

/-- In the address space, the literal of a jump is far from the widest that can be pushed. -/
theorem dispatcherCode_succeeds {skipped : Nat} (h : skipped < addressSpace) :
    ∃ e, (dispatcherCode skipped).outcome = .ok e := by
  have hfixed : 2 + skipped < 256 ^ 9 := by
    unfold addressSpace at h
    omega
  have hguess := (Word.size_ofNat_le_iff (2 + skipped) 9).mpr hfixed
  have hwidth := SelfSized.solve_width_le (2 + skipped)
  have hsize : (SelfSized.solve (2 + skipped)).word.size < 33 := by
    rw [SelfSized.word, ← SelfSized.solve_width]
    omega
  refine ⟨(SelfSized.solve (2 + skipped)).value, ?_⟩
  rw [dispatcherCode, Emission.push_of_fits hsize]
  rfl

def withHead (p : Program) (dispatcher : String) (code : List Instruction) : Program :=
  { p with segments := ⟨dispatcher, code, none, p.memory.registers⟩ :: p.segments }

theorem addEntry_of_exists {p : Program} {dispatcher target : String}
    (h : dispatcher ∈ p.segments.map Segment.name) :
    p.addEntry dispatcher target = .error (.segmentExists dispatcher) := by
  have hsome : (p.position? dispatcher).isSome = true := by
    rw [Option.isSome_iff_ne_none]
    exact fun hnone => position?_eq_none_iff.mp hnone h
  rw [addEntry, if_pos hsome]

theorem addEntry_of_not_exists {p : Program} {dispatcher target : String}
    (h : dispatcher ∉ p.segments.map Segment.name)
    (ht : target ∉ p.segments.map Segment.name) :
    p.addEntry dispatcher target = .error (.noSuchSegment target) := by
  rw [addEntry, position?_eq_none_iff.mpr h, position?_eq_none_iff.mpr ht]
  rfl

theorem addEntry_eq {p : Program} {dispatcher target : String} {i : Nat}
    (h : p.position? dispatcher = none) (hi : p.position? target = some i) :
    p.addEntry dispatcher target =
      (dispatcherCode (segmentsSize (p.segments.take i))).outcome.map fun e =>
        (e, (p.withHead dispatcher
          (dispatcherCode (segmentsSize (p.segments.take i))).code).placeAll) := by
  rw [addEntry, h, hi]
  rfl

theorem addEntry_ok {p q : Program} {dispatcher target : String} {e : Nat}
    (h : p.addEntry dispatcher target = .ok (e, q)) :
    dispatcher ∉ p.segments.map Segment.name ∧
      ∃ (i : Nat) (n : Fin 33), p.position? target = some i ∧ n.val = (Word.ofNat e).size ∧
        e = 2 + segmentsSize (p.segments.take i) + n.val ∧
        q = (p.withHead dispatcher (entryJump n e)).placeAll := by
  by_cases hd : dispatcher ∈ p.segments.map Segment.name
  · rw [addEntry_of_exists hd] at h
    cases h
  · cases hi : p.position? target with
    | none =>
      rw [addEntry_of_not_exists hd (position?_eq_none_iff.mp hi)] at h
      cases h
    | some i =>
      rw [addEntry_eq (position?_eq_none_iff.mpr hd) hi] at h
      cases hjump : (dispatcherCode (segmentsSize (p.segments.take i))).outcome with
      | error fault =>
        rw [hjump] at h
        cases h
      | ok value =>
        rw [hjump] at h
        cases h
        obtain ⟨n, hn, he, hcode⟩ := dispatcherCode_ok hjump
        exact ⟨hd, i, n, rfl, hn, he, by rw [hcode]⟩

theorem addEntry_isOk_iff {p : Program} {dispatcher target : String}
    (hsize : segmentsSize p.segments < addressSpace) :
    (∃ e q, p.addEntry dispatcher target = .ok (e, q)) ↔
      dispatcher ∉ p.segments.map Segment.name ∧ target ∈ p.segments.map Segment.name := by
  constructor
  · rintro ⟨e, q, h⟩
    obtain ⟨hd, i, _, hi, _⟩ := addEntry_ok h
    refine ⟨hd, ?_⟩
    by_contra ht
    rw [position?_eq_none_iff.mpr ht] at hi
    cases hi
  · rintro ⟨hd, ht⟩
    cases hi : p.position? target with
    | none => exact absurd ht (position?_eq_none_iff.mp hi)
    | some i =>
      obtain ⟨e, he⟩ := dispatcherCode_succeeds
        (lt_of_le_of_lt (segmentsSize_take_le p.segments i) hsize)
      rw [addEntry_eq (position?_eq_none_iff.mpr hd) hi, he]
      exact ⟨e, _, rfl⟩

theorem placeAll_position? (p : Program) (name : String) :
    p.placeAll.position? name = p.position? name :=
  position?_eq_of_names (map_placeFrom (fun _ _ => rfl) 0 p.segments) name

theorem withHead_position? {p : Program} {dispatcher name : String} {code : List Instruction}
    (h : dispatcher ≠ name) :
    (p.withHead dispatcher code).position? name = (p.position? name).map (· + 1) := by
  rw [position?, withHead, List.findIdx?_cons, position?]
  simp [h]

theorem segmentsSize_take_withHead (p : Program) (dispatcher : String) (code : List Instruction)
    (i : Nat) :
    segmentsSize ((p.withHead dispatcher code).placeAll.segments.take (i + 1)) =
      codeSize code + segmentsSize (p.segments.take i) := by
  rw [placeAll, take_placeFrom, segmentsSize_placeFrom]
  rfl

theorem map_withHead {α : Type} {f : Segment → α} (hf : ∀ s offset, f (s.place offset) = f s)
    (p : Program) (dispatcher : String) (code : List Instruction) :
    (p.withHead dispatcher code).placeAll.segments.map f =
      f ⟨dispatcher, code, none, p.memory.registers⟩ :: p.segments.map f := by
  rw [placeAll, map_placeFrom hf, withHead, List.map_cons]

theorem codeSize_entryJump (n : Fin 33) (e : Nat) : codeSize (entryJump n e) = 2 + n.val := by
  change 1 + n.val + (1 + 0 + 0) = 2 + n.val
  omega

theorem withHead_target {p : Program} {dispatcher target : String} {i : Nat}
    (hd : dispatcher ∉ p.segments.map Segment.name) (hi : p.position? target = some i)
    (code : List Instruction) :
    (p.withHead dispatcher code).placeAll.position? target = some (i + 1) := by
  obtain ⟨⟨t, ht, htname⟩, _⟩ := position?_eq_some_iff.mp hi
  have hne : dispatcher ≠ target := by
    rintro rfl
    exact hd (List.mem_map.mpr ⟨t, List.mem_of_getElem? ht, htname⟩)
  rw [placeAll_position?, withHead_position? hne, hi, Option.map_some]

theorem addEntry_offset {p q : Program} {dispatcher target : String} {e : Nat}
    (h : p.addEntry dispatcher target = .ok (e, q)) : q.offset target = .ok e := by
  obtain ⟨hd, i, n, hi, _, he, rfl⟩ := addEntry_ok h
  have hoffset := Placed.offset (placeAll_placed _) (withHead_target hd hi (entryJump n e))
  rw [segmentsSize_take_withHead, codeSize_entryJump] at hoffset
  have hsum : 2 + n.val + segmentsSize (p.segments.take i) = e := by omega
  rw [hoffset, hsum]

theorem addEntry_bytes {p q : Program} {dispatcher target : String} {e : Nat}
    (h : p.addEntry dispatcher target = .ok (e, q)) {bytes : List UInt8}
    (hbytes : q.assemble.2 = .ok bytes) {n : Fin 33} (hn : n.val = (Word.ofNat e).size) :
    (∃ head, Bytecode.encode (entryJump n e) = .ok head ∧ head <+: bytes) ∧
    ∃ (i : Nat) (t : Segment), p.position? target = some i ∧ p.segments[i]? = some t ∧
      ∃ front body later, Bytecode.encode t.code = .ok body ∧
        Bytecode.encode ((p.segments.drop (i + 1)).flatMap Segment.code) = .ok later ∧
        bytes = front ++ (body ++ later) ∧ front.length = e := by
  obtain ⟨_, i, m, hi, hm, he, rfl⟩ := addEntry_ok h
  have hmn : m = n := Fin.ext (hm.trans hn.symm)
  subst m
  obtain ⟨⟨t, ht, _⟩, _⟩ := position?_eq_some_iff.mp hi
  have hcodes := map_withHead (f := Segment.code) (fun _ _ => rfl) p dispatcher (entryJump n e)
  constructor
  · have hflat : Bytecode.encode (List.flatMap Segment.code
        (p.withHead dispatcher (entryJump n e)).placeAll.segments) = .ok bytes := hbytes
    rw [List.flatMap_def, hcodes, List.flatten_cons] at hflat
    obtain ⟨head, rest, hhead, _, rfl⟩ := Bytecode.encode_append_eq_ok_iff.mp hflat
    exact ⟨head, hhead, List.prefix_append _ _⟩
  · have hs : (p.withHead dispatcher (entryJump n e)).placeAll.segments[i + 1]? =
        some (t.place (0 + segmentsSize
          ((p.withHead dispatcher (entryJump n e)).segments.take (i + 1)))) := by
      rw [placeAll, getElem?_placeFrom, withHead, List.getElem?_cons_succ, ht, Option.map_some]
    obtain ⟨front, body, later, hbody, hlater, hsplit, hlen⟩ := assemble_split hbytes hs
    rw [List.flatMap_def, List.map_drop, hcodes, List.drop_succ_cons, ← List.map_drop,
      ← List.flatMap_def] at hlater
    rw [segmentsSize_take_withHead, codeSize_entryJump] at hlen
    exact ⟨i, t, hi, ht, front, body, later, hbody, hlater, hsplit, by omega⟩

/-- A dispatcher can be put in front of a program exactly when its name is free and its target is
there, and a fault leaves the program alone. Then the other segments keep their order and code, all
are placed back to back, and the jump of the dispatcher lands on the first byte of the target. -/
theorem addEntry_dispatches (p : Program) (dispatcher target : String)
    (hsize : segmentsSize p.segments < addressSpace) :
    ((∃ e q, p.addEntry dispatcher target = .ok (e, q)) ↔
      dispatcher ∉ p.segments.map Segment.name ∧ target ∈ p.segments.map Segment.name) ∧
    (dispatcher ∈ p.segments.map Segment.name →
      p.addEntry dispatcher target = .error (.segmentExists dispatcher)) ∧
    (dispatcher ∉ p.segments.map Segment.name → target ∉ p.segments.map Segment.name →
      p.addEntry dispatcher target = .error (.noSuchSegment target)) ∧
    (∀ fault, p.addEntry dispatcher target = .error fault →
      p.next (.enter dispatcher target) = p) ∧
    ∀ e q, p.addEntry dispatcher target = .ok (e, q) →
      p.next (.enter dispatcher target) = q ∧
      ∃ n : Fin 33, IsLeast {k | e < 256 ^ k} n.val ∧
        q.segments.map (fun s => (s.name, s.code)) =
          (dispatcher, [⟨.push n, .ofNat e⟩, .plain .jump]) ::
            p.segments.map (fun s => (s.name, s.code)) ∧
        (∀ (i : Nat) (s : Segment), q.segments[i]? = some s →
          s.offset = some (segmentsSize (q.segments.take i))) ∧
        q.offset target = .ok e ∧
        ∀ bytes, q.assemble.2 = .ok bytes →
          (∃ head, Bytecode.encode [⟨.push n, .ofNat e⟩, .plain .jump] = .ok head ∧
            head <+: bytes) ∧
          ∃ (i : Nat) (t : Segment), p.position? target = some i ∧ p.segments[i]? = some t ∧
            ∃ front body later, Bytecode.encode t.code = .ok body ∧
              Bytecode.encode ((p.segments.drop (i + 1)).flatMap Segment.code) = .ok later ∧
              bytes = front ++ (body ++ later) ∧ front.length = e := by
  refine ⟨addEntry_isOk_iff hsize, addEntry_of_exists, addEntry_of_not_exists, ?_, ?_⟩
  · intro fault h
    rw [next, h]
    rfl
  · intro e q h
    refine ⟨by rw [next, h]; rfl, ?_⟩
    obtain ⟨_, i, n, _, hn, _, hq⟩ := addEntry_ok h
    refine ⟨n, hn ▸ Word.isLeast_size_ofNat e, ?_, ?_, addEntry_offset h, ?_⟩
    · rw [hq]
      exact map_withHead (fun _ _ => rfl) p dispatcher (entryJump n e)
    · rw [hq]
      exact placeAll_placed _
    · intro bytes hbytes
      exact addEntry_bytes h hbytes hn

/-- Before the literal is counted the target stands at byte 255, so the literal takes a second byte
only because of its own width. -/
theorem addEntry_dispatches_across_a_byte :
    let p : Program := ⟨.ofSettings {}, [⟨"pad", List.replicate 253 (.plain .stop), none, ⟨0, 4⟩⟩,
      ⟨"main", [.plain .jumpDest], none, ⟨0, 4⟩⟩], []⟩
    segmentsSize p.segments < addressSpace ∧
    ∃ q, p.addEntry "entry" "main" = .ok (257, q) ∧ q.offset "main" = .ok 257 := by
  intro p
  have hsize : segmentsSize p.segments < addressSpace := by decide +kernel
  have hentry : p.addEntry "entry" "main" = .ok (257, p.next (.enter "entry" "main")) := by
    decide +kernel
  obtain ⟨_, _, _, _, _, hoffset, _⟩ :=
    (addEntry_dispatches p "entry" "main" hsize).2.2.2.2 257 _ hentry
  exact ⟨hsize, _, hentry, hoffset⟩

end Program

end Assembler
