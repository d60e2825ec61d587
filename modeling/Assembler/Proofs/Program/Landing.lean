import Assembler.Proofs.Program.Entry

/-! Return addresses. A call computes its return address from where its segment was placed, before
the code in between is emitted. The address is still that of its landing point when the program is
assembled, whatever was added meanwhile, as long as nothing before the segment was. -/

namespace Assembler

theorem codeSize_le_of_prefix {code more : List Instruction} (h : code <+: more) :
    codeSize code ≤ codeSize more := by
  obtain ⟨rest, rfl⟩ := h
  rw [codeSize_append]
  exact Nat.le_add_right _ _

theorem Segment.call_ok {s : Segment} {slot : Cell} {dest : Operand} {r : Nat}
    (h : (s.perform (.call slot dest)).2 = .ok (some r)) :
    ∃ offset body, s.offset = some offset ∧
      (s.emission (.call slot dest)).code = body ++ [.plain .jump, .plain .jumpDest] ∧
      r = offset + codeSize (s.code ++ body ++ [.plain .jump]) := by
  change (s.emission (.call slot dest)).outcome = .ok (some r) at h
  cases hoffset : s.offset with
  | none =>
    rw [emission, hoffset] at h
    cases h
  | some offset =>
    rw [emission_call hoffset, Emission.map_outcome] at h
    rw [emission_call hoffset, Emission.map_code]
    cases hcall : (Emission.call (offset + s.size) slot dest).outcome with
    | error fault =>
      rw [hcall] at h
      cases h
    | ok value =>
      rw [hcall] at h
      cases h
      obtain ⟨body, hcode, hr⟩ := Emission.call_ok hcall
      refine ⟨offset, body, rfl, hcode, ?_⟩
      rw [hr, Segment.size, List.append_assoc, codeSize_append s.code, Nat.add_assoc]

namespace Program

/-- Every segment has just been placed, by itself or together with a new entry. -/
def JustPlaced (p : Program) : Prop :=
  (∃ q : Program, p = q.placeAll) ∨
    ∃ (q : Program) (dispatcher target : String) (e : Nat),
      q.addEntry dispatcher target = .ok (e, p)

theorem JustPlaced.placed {p : Program} (h : p.JustPlaced) : p.Placed := by
  rcases h with ⟨q, rfl⟩ | ⟨q, dispatcher, target, e, h⟩
  · exact placeAll_placed q
  · obtain ⟨_, _, _, _, _, _, rfl⟩ := addEntry_ok h
    exact placeAll_placed _

def SameBefore (p q : Program) (name : String) : Prop :=
  ∀ i, p.position? name = some i → q.segments.take i = p.segments.take i

/-- Action `k` is a call that succeeds with the return address `r`. -/
structure CallEvent (p : Program) (actions : List Action) (k : Nat) (name : String) (slot : Cell)
    (dest : Operand) (r : Nat) : Prop where
  action : actions[k]? = some (.emit name (.call slot dest))
  result : ((p.run (actions.take k)).perform name (.call slot dest)).2 = .ok (some r)

/-- What a call finds and leaves: its segment is where it was placed, and the emitted code stands
behind the code that the segment had. -/
theorem CallEvent.emitted {p : Program} (hp : p.Placed) {actions : List Action}
    (ha : ∀ a ∈ actions, a.Adds) {k : Nat} {name : String} {slot : Cell} {dest : Operand}
    {r : Nat} (h : CallEvent p actions k name slot dest r) :
    ∃ i s t body, p.position? name = some i ∧
      (p.run (actions.take k)).position? name = some i ∧
      (p.run (actions.take k)).segments[i]? = some s ∧
      (p.run (actions.take (k + 1))).segments[i]? = some t ∧
      (s.emission (.call slot dest)).code = body ++ [.plain .jump, .plain .jumpDest] ∧
      t.code = s.code ++ body ++ [.plain .jump] ++ [.plain .jumpDest] ∧
      r = segmentsSize (p.segments.take i) + codeSize (s.code ++ body ++ [.plain .jump]) := by
  have hgrown : p.Grown (p.run (actions.take k)) := p.run_take_grown ha (Nat.zero_le k)
  have hresult := h.result
  cases hi : (p.run (actions.take k)).position? name with
  | none =>
    rw [perform_of_position?_none hi] at hresult
    cases hresult
  | some i =>
    obtain ⟨⟨s, hs, _⟩, _⟩ := position?_eq_some_iff.mp hi
    have hlt : i < (p.run (actions.take k)).segments.length := (List.getElem?_eq_some_iff.mp hs).1
    rw [perform_of_position? hi hs] at hresult
    obtain ⟨offset, body, hoffset, hcode, hr⟩ := Segment.call_ok hresult
    -- A segment created in the meantime is not placed, and there the call would have failed.
    have hold : i < p.segments.length := by
      by_contra hge
      rw [hgrown.fresh i s (by omega) hs] at hoffset
      cases hoffset
    have hplaced := hp i _ (List.getElem?_eq_getElem hold)
    rw [← (hgrown.extends (List.getElem?_eq_getElem hold) hs).offset, hoffset] at hplaced
    refine ⟨i, s, (s.perform (.call slot dest)).1, body, hgrown.position?_of_lt hi hold, rfl, hs,
      ?_, hcode, ?_, by rw [hr, Option.some.inj hplaced]⟩
    · rw [run_take_succ h.action, next, perform_of_position? hi hs]
      exact List.getElem?_set_self hlt
    · rw [Segment.perform_code, hcode]
      simp

/-- In `code` the instructions that a call emitted stand behind `front`. They end in a jump and a
landing point, and the landing point begins at byte `r`. -/
def LandsAt (code front emitted : List Instruction) (r : Nat) : Prop :=
  ∃ body back, emitted = body ++ [.plain .jump, .plain .jumpDest] ∧
    code = front ++ body ++ [.plain .jump] ++ .plain .jumpDest :: back ∧
    codeSize (front ++ body ++ [.plain .jump]) = r

theorem CallEvent.landsAt {p : Program} (hp : p.Placed) {actions : List Action}
    (ha : ∀ a ∈ actions, a.Adds) {k : Nat} {name : String} {slot : Cell} {dest : Operand}
    {r : Nat} (h : CallEvent p actions k name slot dest r)
    (hsame : p.SameBefore (p.run actions) name) :
    ∃ i s, p.position? name = some i ∧ (p.run (actions.take k)).get name = .ok s ∧
      LandsAt (p.run actions).link.code
        (((p.run actions).segments.take i).flatMap Segment.code ++ s.code)
        (s.emission (.call slot dest)).code r := by
  obtain ⟨i, s, t, body, hi, hki, hs, ht, hcode, htcode, hr⟩ := h.emitted hp ha
  have hk : k < actions.length := (List.getElem?_eq_some_iff.mp h.action).1
  have hgrown := p.run_take_grown ha (Nat.succ_le_of_lt hk)
  rw [List.take_length] at hgrown
  obtain ⟨u, hu, htu⟩ := hgrown.kept i t ht
  obtain ⟨more, hmore⟩ := htu.code
  refine ⟨i, s, hi, get_of_position? hki hs, body,
    more ++ ((p.run actions).segments.drop (i + 1)).flatMap Segment.code, hcode, ?_, ?_⟩
  · rw [link_code, flatMap_code_split hu, ← hmore, htcode]
    simp
  · rw [hr, hsame i hi, List.append_assoc, List.append_assoc, codeSize_append,
      codeSize_flatMap_code, List.append_assoc]

theorem CallEvent.increasing {p : Program} (hp : p.Placed) {actions : List Action}
    (ha : ∀ a ∈ actions, a.Adds) {j k : Nat} (hjk : j < k) {name : String} {slot slot' : Cell}
    {dest dest' : Operand} {r r' : Nat} (h : CallEvent p actions j name slot dest r)
    (h' : CallEvent p actions k name slot' dest' r') : r < r' := by
  obtain ⟨i, s, t, body, hi, _, _, ht, _, htcode, hr⟩ := h.emitted hp ha
  obtain ⟨i', s', _, body', hi', _, hs', _, _, _, hr'⟩ := h'.emitted hp ha
  have heq : i = i' := Option.some.inj (hi.symm.trans hi')
  subst i'
  have hgrown := p.run_take_grown ha (Nat.succ_le_of_lt hjk)
  have hfirst : codeSize (s.code ++ body ++ [.plain .jump]) + 1 ≤ codeSize s'.code := by
    have hle := codeSize_le_of_prefix (hgrown.extends ht hs').code
    rw [htcode, codeSize_append] at hle
    exact hle
  have hsecond : codeSize s'.code ≤ codeSize (s'.code ++ body' ++ [.plain .jump]) := by
    rw [List.append_assoc]
    exact codeSize_le_of_prefix (List.prefix_append _ _)
  omega

/-- Every return address is a landing point of the final bytecode. After all segments were placed,
let code be emitted and segments created in any way. If the segments before that of a call are
unchanged in the end, the byte at the return address is that of the landing point which this call
emitted, right behind its jump. And calls of one segment return to ever later addresses. -/
theorem call_returns_to_landing_point {p : Program} (hp : p.JustPlaced) {actions : List Action}
    (ha : ∀ a ∈ actions, a.Adds) :
    (∀ k name slot dest r, CallEvent p actions k name slot dest r →
      p.SameBefore (p.run actions) name →
      ∀ bytes, (p.run actions).assemble.2 = .ok bytes →
        r < bytes.length ∧ bytes[r]? = some 0x5B ∧
        ∃ i s code, p.position? name = some i ∧ (p.run (actions.take k)).get name = .ok s ∧
          Bytecode.decode bytes = .ok code ∧
          LandsAt code (((p.run actions).segments.take i).flatMap Segment.code ++ s.code)
            (s.emission (.call slot dest)).code r) ∧
    (∀ j k name slot slot' dest dest' r r', j < k →
      CallEvent p actions j name slot dest r → CallEvent p actions k name slot' dest' r' →
      r < r') := by
  constructor
  · intro k name slot dest r h hsame bytes hbytes
    have hencode : Bytecode.encode (p.run actions).link.code = .ok bytes := hbytes
    obtain ⟨i, s, hi, hs, body, back, hbody, hcode, hr⟩ := h.landsAt hp.placed ha hsame
    have hbyte : bytes[r]? = some 0x5B := by
      rw [hcode] at hencode
      rw [← hr]
      exact Bytecode.getElem?_of_encode hencode
    exact ⟨(List.getElem?_eq_some_iff.mp hbyte).1, hbyte, i, s, _, hi, hs,
      Bytecode.decode_of_encode hencode, body, back, hbody, hcode, hr⟩
  · intro j k name slot slot' dest dest' r r' hjk h h'
    exact h.increasing hp.placed ha hjk h'

def callerBehindStop : Program :=
  ⟨.ofSettings {}, [⟨"main", [.plain .stop], none, ⟨0, 4⟩⟩, ⟨"caller", [], none, ⟨0, 4⟩⟩], []⟩

/-- Two calls, with a failing emission, a new segment and a call that fails there in between. -/
def twoCalls : List Action :=
  [.emit "caller" (.operands [none, some (.ofNat 1)]),
    .emit "caller" (.call ⟨"back", 64, 32⟩ (.value (.ofNat 9))),
    .create "tail",
    .emit "tail" (.call ⟨"back", 64, 32⟩ (.value (.ofNat 9))),
    .emit "caller" (.call ⟨"back", 64, 32⟩ (.place (.cell ⟨"to", 96, 32⟩)))]

theorem two_calls_return_to_landing_points :
    let p := callerBehindStop.placeAll
    let bytes : List UInt8 := [0x00, 0x60, 0x01, 0x60, 0x0B, 0x60, 0x40, 0x52, 0x60, 0x09, 0x56,
      0x5B, 0x60, 0x15, 0x60, 0x40, 0x52, 0x60, 0x60, 0x51, 0x56, 0x5B]
    (p.run twoCalls).assemble.2 = .ok bytes ∧
    CallEvent p twoCalls 1 "caller" ⟨"back", 64, 32⟩ (.value (.ofNat 9)) 11 ∧
    CallEvent p twoCalls 4 "caller" ⟨"back", 64, 32⟩ (.place (.cell ⟨"to", 96, 32⟩)) 21 ∧
    bytes[11]? = some 0x5B ∧ bytes[21]? = some 0x5B ∧ 11 < 21 := by
  intro p bytes
  have hbytes : (p.run twoCalls).assemble.2 = .ok bytes := by decide +kernel
  have hfirst : CallEvent p twoCalls 1 "caller" ⟨"back", 64, 32⟩ (.value (.ofNat 9)) 11 :=
    ⟨rfl, by decide +kernel⟩
  have hsecond : CallEvent p twoCalls 4 "caller" ⟨"back", 64, 32⟩
      (.place (.cell ⟨"to", 96, 32⟩)) 21 := ⟨rfl, by decide +kernel⟩
  have hsame : p.SameBefore (p.run twoCalls) "caller" := by
    intro i hi
    have hone : p.position? "caller" = some 1 := by decide +kernel
    cases hone.symm.trans hi
    decide +kernel
  have hmain := call_returns_to_landing_point (show p.JustPlaced from Or.inl ⟨_, rfl⟩)
    (show ∀ a ∈ twoCalls, a.Adds by decide)
  exact ⟨hbytes, hfirst, hsecond, (hmain.1 _ _ _ _ _ hfirst hsame _ hbytes).2.1,
    (hmain.1 _ _ _ _ _ hsecond hsame _ hbytes).2.1,
    hmain.2 _ _ _ _ _ _ _ _ _ (by decide) hfirst hsecond⟩

end Program

end Assembler
