import Assembler.Proofs.Program.Assembled
import Assembler.Proofs.Program.Names
import Assembler.Proofs.Segment.Encodable

/-! Programs that always assemble. As long as every directive chooses its own immediates, no action
leaves an instruction behind that cannot be encoded, however many of the actions fail. -/

namespace Assembler

def Action.ownImmediates : Action → Bool
  | .emit _ d => d.ownImmediates
  | _ => true

namespace Program

def Encodable (p : Program) : Prop := ∀ s ∈ p.segments, ∀ i ∈ s.code, i.Fits

theorem Encodable.assembles {p : Program} (h : p.Encodable) :
    ∃ bytes, p.assemble.2 = .ok bytes ∧ bytes.length = segmentsSize p.segments := by
  obtain ⟨bytes, hbytes⟩ := p.assembles_iff.mpr h
  exact ⟨bytes, hbytes, length_of_assemble hbytes⟩

theorem entryCode_fits (entry : Nat) : ∀ i ∈ entryCode entry, i.Fits := by
  refine List.forall_mem_append.mpr ⟨?_, List.forall_mem_singleton.mpr (Nat.zero_le _)⟩
  intro i hi
  exact (Emission.Emits.push (.ofNat entry) i hi).fits

theorem emits_fits (p : Program) (name : String) {a : Action} (h : a.ownImmediates) :
    ∀ i ∈ p.emits name a, i.Fits := by
  cases a with
  | emit receiver d =>
    rw [emits]
    split
    · cases p.get receiver with
      | ok s => exact s.emission_fits h
      | error fault => exact List.forall_mem_nil _
    · exact List.forall_mem_nil _
  | enter dispatcher target =>
    rcases p.next_enter_cases dispatcher target with ⟨_, _, hemits⟩ | ⟨_, _, e, _, hemits⟩
    · rw [hemits]
      exact List.forall_mem_nil _
    · rw [hemits]
      split
      · exact entryCode_fits e
      · exact List.forall_mem_nil _
  | _ => exact List.forall_mem_nil _

theorem next_encodable {p : Program} (hnames : p.names.Nodup) (h : p.Encodable) {a : Action}
    (ha : a.ownImmediates) : (p.next a).Encodable := by
  intro t ht
  rcases mem_next hnames ht with ⟨s, hs, _, _, hcode⟩ | ⟨_, _, hcode⟩
  · rw [hcode]
    exact List.forall_mem_append.mpr ⟨h s hs, p.emits_fits s.name ha⟩
  · rw [hcode]
    exact p.emits_fits t.name ha

theorem run_encodable {p : Program} (hnames : p.names.Nodup) (h : p.Encodable)
    {actions : List Action} (hown : ∀ a ∈ actions, a.ownImmediates) :
    (p.run actions).Encodable := by
  induction actions generalizing p with
  | nil => exact h
  | cons a rest ih =>
    obtain ⟨ha, hrest⟩ := List.forall_mem_cons.mp hown
    exact ih (nodup_names_next hnames a) (next_encodable hnames h ha) hrest

/-- Emission only appends, and what it appends can be encoded. A directive, successful or not,
leaves the rest of its segment alone; the immediates that it chooses fit, and its pushes are the
narrowest ones. A push fails exactly for values of more than 32 bytes, and then appends nothing. So
a program assembles after any actions that choose their own immediates, to as many bytes as its
segments take together. -/
theorem emissions_append_encodable_code :
    (∀ (s : Segment) (d : Directive), ∃ added,
      (s.perform d).1 = { s with code := s.code ++ added } ∧
      (d.ownImmediates → ∀ i ∈ added, i.immediate.size ≤ i.opcode.width) ∧
      (d.ownImmediates → (∀ name, d ≠ .mnemonic name) →
        ∀ i ∈ added, ∀ n, i.opcode = .push n →
          IsLeast {k | i.immediate.value < 256 ^ k} n.val)) ∧
    (∀ (s : Segment) (w : Word),
      (∀ h : w.size < 33, s.perform (.push w) =
        ({ s with code := s.code ++ [⟨.push ⟨w.size, h⟩, w⟩] }, .ok none)) ∧
      (32 < w.size → s.perform (.push w) = (s, .error (.valueTooWide w.size 32)))) ∧
    ∀ (settings : Settings) (actions : List Action), (∀ a ∈ actions, a.ownImmediates) →
      let p := (ofSettings settings).run actions
      ∃ bytes, p.assemble.2 = .ok bytes ∧ bytes.length = segmentsSize p.segments := by
  refine ⟨?_, ?_, ?_⟩
  · intro s d
    refine ⟨(s.emission d).code, rfl, fun h => s.emission_fits h, ?_⟩
    intro h hm i hi n hn
    exact (s.emission_exact h hm i hi).push hn
  · intro s w
    refine ⟨s.perform_push_of_fits, ?_⟩
    intro hw
    exact s.perform_push_of_wide (Nat.not_lt.mpr hw)
  · intro settings actions hown
    have hstart : (ofSettings settings).Encodable := List.forall_mem_nil _
    exact (run_encodable (ofSettings_coherent settings).distinct hstart hown).assembles

/-- A subtraction that ends behind its first push, a value too wide, an index out of range and a
name that is taken leave a program that assembles. -/
theorem emissions_append_encodable_code_around_faults :
    let wide := Word.ofNat (256 ^ 32)
    let actions := [.create "main", .emit "main" (.binary .sub none (some (.ofNat 258))),
      .emit "main" (.push wide), .emit "main" (.dup 17), .emit "main" (.mnemonic "push2"),
      .enter "main" "main", .enter "start" "main", .emit "absent" .pop]
    let p := (ofSettings {}).run actions
    (∀ a ∈ actions, a.ownImmediates) ∧
    ((ofSettings {}).run (actions.take 1)).perform "main" (.binary .sub none (some (.ofNat 258))) =
      ((ofSettings {}).run (actions.take 2), .error (.operandOrder 0)) ∧
    (p.perform "main" (.push wide)) = (p, .error (.valueTooWide 33 32)) ∧
    segmentsSize p.segments = 9 ∧
    ∃ bytes, p.assemble.2 = .ok bytes ∧ bytes.length = segmentsSize p.segments := by
  intro wide actions p
  have hown : ∀ a ∈ actions, a.ownImmediates := by decide
  exact ⟨hown, by decide +kernel, by decide +kernel, by decide +kernel,
    emissions_append_encodable_code.2.2 {} actions hown⟩

end Program

end Assembler
