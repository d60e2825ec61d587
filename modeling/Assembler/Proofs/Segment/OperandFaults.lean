import Assembler.Proofs.Segment.Encodable
import Mathlib.Data.List.Forall2
import Mathlib.Data.List.ReduceOption

/-! Which operands can be taken. They are pushed from the right, so of several faults in a list the
last one decides, and the operands behind it have been pushed by then. -/

namespace Assembler

/-- The operand at a position cannot be taken: it is too wide, or it is left out although one to its
right is supplied. -/
inductive OperandFault (values : List (Option Word)) (p : Nat) : Fault → Prop
  | wide {w : Word} (h : values[p]? = some (some w)) (hw : 32 < w.size) :
      OperandFault values p (.valueTooWide w.size 32)
  | gap {w : Word} (h : values[p]? = some none) (hw : some w ∈ values.drop (p + 1)) :
      OperandFault values p (.operandOrder p)

/-- Supplied operands of at most 32 bytes, with none but omitted ones behind them. -/
def SuppliedFirst (values : List (Option Word)) : Prop :=
  ∃ (words : List Word) (n : Nat),
    values = words.map some ++ List.replicate n none ∧ ∀ w ∈ words, w.size ≤ 32

theorem getElem?_append_cons {α : Type} (front rest : List α) (x : α) :
    (front ++ x :: rest)[front.length]? = some x := by simp

theorem drop_append_cons {α : Type} (front rest : List α) (x : α) :
    (front ++ x :: rest).drop (front.length + 1) = rest := by
  rw [← List.drop_drop, List.drop_left, List.drop_one, List.tail_cons]

namespace OperandFault

variable {front rest : List (Option Word)} {w : Word} {p : Nat} {fault : Fault}

theorem at_some_iff :
    OperandFault (front ++ some w :: rest) front.length fault ↔
      32 < w.size ∧ fault = .valueTooWide w.size 32 := by
  constructor
  · intro h
    cases h with
    | wide h hw =>
      rw [getElem?_append_cons] at h
      cases h
      exact ⟨hw, rfl⟩
    | gap h hw =>
      rw [getElem?_append_cons] at h
      cases h
  · rintro ⟨hw, rfl⟩
    exact .wide (getElem?_append_cons _ _ _) hw

theorem at_none_iff :
    OperandFault (front ++ none :: rest) front.length fault ↔
      (∃ w, some w ∈ rest) ∧ fault = .operandOrder front.length := by
  constructor
  · intro h
    cases h with
    | wide h hw =>
      rw [getElem?_append_cons] at h
      cases h
    | gap h hw =>
      rw [drop_append_cons] at hw
      exact ⟨⟨_, hw⟩, rfl⟩
  · rintro ⟨⟨w, hw⟩, rfl⟩
    exact .gap (getElem?_append_cons _ _ _) (by rwa [drop_append_cons])

/-- An operand in front moves a fault, and its number with it. -/
theorem cons (h : OperandFault rest p fault) (operand : Option Word) :
    ∃ other, OperandFault (operand :: rest) (p + 1) other := by
  cases h with
  | wide h hw => exact ⟨_, .wide h hw⟩
  | gap h hw => exact ⟨_, .gap h hw⟩

end OperandFault

theorem SuppliedFirst.not_operandFault {values : List (Option Word)} (h : SuppliedFirst values)
    (p : Nat) (fault : Fault) : ¬ OperandFault values p fault := by
  obtain ⟨words, n, rfl, hwords⟩ := h
  intro hfault
  cases hfault with
  | wide h hw =>
    have hmem := List.mem_of_getElem? h
    simp only [List.mem_append, List.mem_map, Option.some.injEq, exists_eq_right,
      List.mem_replicate, reduceCtorEq, and_false, or_false] at hmem
    exact absurd (hwords _ hmem) (Nat.not_le_of_lt hw)
  | gap h hw =>
    have hbehind : words.length ≤ p := by
      by_contra hfront
      rw [List.getElem?_append_left (by rw [List.length_map]; omega)] at h
      simp at h
    rw [List.drop_append, List.drop_eq_nil_of_le (by rw [List.length_map]; omega),
      List.nil_append, List.drop_replicate] at hw
    cases List.eq_of_mem_replicate hw

theorem suppliedFirst_of_not_operandFault {values : List (Option Word)}
    (h : ∀ p fault, ¬ OperandFault values p fault) : SuppliedFirst values := by
  induction values with
  | nil => exact ⟨[], 0, rfl, List.forall_mem_nil _⟩
  | cons operand rest ih =>
    have hrest : SuppliedFirst rest := by
      apply ih
      intro p fault hfault
      obtain ⟨other, hother⟩ := hfault.cons operand
      exact h _ _ hother
    obtain ⟨words, n, rfl, hwords⟩ := hrest
    cases operand with
    | some w =>
      have hw : w.size ≤ 32 := by
        by_contra hwide
        exact h 0 _ (.wide rfl (Nat.lt_of_not_le hwide))
      exact ⟨w :: words, n, rfl, List.forall_mem_cons.mpr ⟨hw, hwords⟩⟩
    | none =>
      cases words with
      | nil => exact ⟨[], n + 1, rfl, List.forall_mem_nil _⟩
      | cons w words => exact absurd (.gap rfl (List.mem_cons_self)) (h 0 _)

theorem suppliedFirst_iff (values : List (Option Word)) :
    SuppliedFirst values ↔ ∀ p fault, ¬ OperandFault values p fault :=
  ⟨SuppliedFirst.not_operandFault, suppliedFirst_of_not_operandFault⟩

theorem any_isSome_iff (values : List (Option Word)) :
    values.any Option.isSome = true ↔ ∃ w, some w ∈ values := by
  simp [Option.isSome_iff_exists]

namespace Emission

section Step

variable {position : Nat} {rest : List (Option Word)} {pushed : List Instruction}

theorem operandsFrom_cons_of_error {fault : Fault}
    (h : operandsFrom (position + 1) rest = ⟨pushed, .error fault⟩) (operand : Option Word) :
    operandsFrom position (operand :: rest) = ⟨pushed, .error fault⟩ := by
  rw [operandsFrom, h, bind_of_error rfl]

variable {supplied : Bool} (h : operandsFrom (position + 1) rest = ⟨pushed, .ok supplied⟩)
include h

theorem operandsFrom_cons_of_fits {w : Word} {i : Instruction}
    (hpush : push w = ⟨[i], .ok ()⟩) :
    operandsFrom position (some w :: rest) = ⟨pushed ++ [i], .ok true⟩ := by
  rw [operandsFrom, h, bind_of_ok rfl]
  simp only [hpush]
  rfl

theorem operandsFrom_cons_of_wide {w : Word} (hw : ¬ w.size < 33) :
    operandsFrom position (some w :: rest) = ⟨pushed, .error (.valueTooWide w.size 32)⟩ := by
  rw [operandsFrom, h, bind_of_ok rfl]
  simp only [push_of_wide hw]
  exact congrArg₂ Emission.mk (List.append_nil pushed) rfl

theorem operandsFrom_cons_none :
    operandsFrom position (none :: rest) =
      ⟨pushed, if supplied then .error (.operandOrder position) else .ok false⟩ := by
  rw [operandsFrom, h, bind_of_ok rfl]
  cases supplied <;> exact congrArg₂ Emission.mk (List.append_nil pushed) rfl

end Step

/-- How far the operands behind `front` have been taken, counted from the right: all of them, or
those behind the last fault. -/
inductive Scanned (front rest : List (Option Word)) : Emission Bool → Prop
  | all {pushed : List Instruction}
      (sound : ∀ p fault, front.length ≤ p → ¬ OperandFault (front ++ rest) p fault)
      (pushes : List.Forall₂ Instruction.Pushes pushed rest.reduceOption.reverse) :
      Scanned front rest ⟨pushed, .ok (rest.any Option.isSome)⟩
  | upTo {p : Nat} {fault : Fault} {pushed : List Instruction} (inside : front.length ≤ p)
      (wrong : OperandFault (front ++ rest) p fault)
      (last : ∀ q > p, ∀ other, ¬ OperandFault (front ++ rest) q other)
      (pushes : List.Forall₂ Instruction.Pushes pushed
        ((front ++ rest).drop (p + 1)).reduceOption.reverse) :
      Scanned front rest ⟨pushed, .error fault⟩

namespace Scanned

variable {front rest : List (Option Word)} {operand : Option Word} {pushed : List Instruction}
  (sound : ∀ p fault, front.length < p → ¬ OperandFault (front ++ operand :: rest) p fault)
include sound

/-- The first operand behind `front` is at fault, and none to its right is. -/
theorem of_wrong {fault : Fault}
    (wrong : OperandFault (front ++ operand :: rest) front.length fault)
    (pushes : List.Forall₂ Instruction.Pushes pushed rest.reduceOption.reverse) :
    Scanned front (operand :: rest) ⟨pushed, .error fault⟩ := by
  refine .upTo le_rfl wrong (fun q hq other => sound q other hq) ?_
  rwa [drop_append_cons]

/-- Neither is the first operand behind `front` at fault nor any to its right. -/
theorem of_right
    (right : ∀ fault, ¬ OperandFault (front ++ operand :: rest) front.length fault)
    (pushes : List.Forall₂ Instruction.Pushes pushed (operand :: rest).reduceOption.reverse) :
    Scanned front (operand :: rest) ⟨pushed, .ok ((operand :: rest).any Option.isSome)⟩ := by
  refine .all ?_ pushes
  intro p fault hp
  rcases Nat.eq_or_lt_of_le hp with rfl | hlater
  · exact right fault
  · exact sound p fault hlater

end Scanned

/-- The scan of the operands from any position on. -/
theorem operandsFrom_scanned (front rest : List (Option Word)) :
    Scanned front rest (operandsFrom front.length rest) := by
  induction rest generalizing front with
  | nil =>
    refine .all ?_ .nil
    intro p fault hp hfault
    have hnone : (front ++ [])[p]? = none := by
      rw [List.append_nil]
      exact List.getElem?_eq_none hp
    cases hfault with
    | wide h hw => cases hnone.symm.trans h
    | gap h hw => cases hnone.symm.trans h
  | cons operand rest ih =>
    have hscan := ih (front ++ [operand])
    rw [List.length_append, List.length_singleton] at hscan
    generalize hrest : operandsFrom (front.length + 1) rest = behind at hscan
    cases hscan with
    | upTo inside wrong last pushes =>
      rw [List.append_assoc, List.singleton_append] at wrong last pushes
      rw [List.length_append, List.length_singleton] at inside
      rw [operandsFrom_cons_of_error hrest]
      exact .upTo (Nat.le_of_succ_le inside) wrong last pushes
    | all sound pushes =>
      rw [List.append_assoc, List.singleton_append, List.length_append,
        List.length_singleton] at sound
      cases operand with
      | some w =>
        by_cases hw : w.size < 33
        · obtain ⟨i, hi, hpush⟩ := push_pushes (Nat.le_of_lt_succ hw)
          rw [operandsFrom_cons_of_fits hrest hpush]
          refine .of_right sound ?_ ?_
          · intro fault hfault
            obtain ⟨hwide, _⟩ := OperandFault.at_some_iff.mp hfault
            omega
          · rw [List.reduceOption_cons_of_some, List.reverse_cons]
            exact List.rel_append pushes (.cons hi .nil)
        · rw [operandsFrom_cons_of_wide hrest hw]
          exact .of_wrong sound (OperandFault.at_some_iff.mpr ⟨Nat.le_of_not_lt hw, rfl⟩) pushes
      | none =>
        rw [operandsFrom_cons_none hrest]
        cases hsupplied : rest.any Option.isSome with
        | true =>
          have hright := (any_isSome_iff rest).mp hsupplied
          exact .of_wrong sound (OperandFault.at_none_iff.mpr ⟨hright, rfl⟩) pushes
        | false =>
          have hright : ∀ fault, ¬ OperandFault (front ++ none :: rest) front.length fault := by
            intro fault hfault
            obtain ⟨hright, _⟩ := OperandFault.at_none_iff.mp hfault
            rw [← any_isSome_iff, hsupplied] at hright
            cases hright
          have hscanned := Scanned.of_right sound hright pushes
          rwa [List.any_cons, hsupplied] at hscanned

end Emission

namespace Segment

theorem perform_operands (s : Segment) (values : List (Option Word)) :
    s.perform (.operands values) =
      ({ s with code := s.code ++ (Emission.operandsFrom 0 values).code },
        (Emission.operandsFrom 0 values).outcome.map fun _ => none) := by
  simp only [perform, emission, Emission.operands, Emission.silent, Emission.map_code,
    Emission.map_outcome]
  cases (Emission.operandsFrom 0 values).outcome <;> rfl

/-- The last operand at fault decides. Without one, all that are supplied are pushed, from right to
left and each in its narrowest form; else the fault is that of the last one, and what is supplied to
its right has been pushed. So operands are taken exactly if those supplied come first and fit. -/
theorem last_fault_decides_operands (s : Segment) (values : List (Option Word)) :
    ((∀ p fault, ¬ OperandFault values p fault) ∧
        (∃ pushed,
          List.Forall₂ Instruction.Pushes pushed values.reduceOption.reverse ∧
          s.perform (.operands values) = ({ s with code := s.code ++ pushed }, .ok none)) ∨
      ∃ p fault, OperandFault values p fault ∧
        (∀ q > p, ∀ other, ¬ OperandFault values q other) ∧
        ∃ pushed,
          List.Forall₂ Instruction.Pushes pushed (values.drop (p + 1)).reduceOption.reverse ∧
          s.perform (.operands values) = ({ s with code := s.code ++ pushed }, .error fault)) ∧
    ((s.perform (.operands values)).2 = .ok none ↔ SuppliedFirst values) := by
  rw [suppliedFirst_iff, perform_operands]
  have hscan := Emission.operandsFrom_scanned [] values
  rw [List.length_nil] at hscan
  generalize Emission.operandsFrom 0 values = emitted at hscan ⊢
  cases hscan with
  | all sound pushes =>
    have hsound : ∀ p fault, ¬ OperandFault values p fault :=
      fun p fault => sound p fault (Nat.zero_le p)
    exact ⟨Or.inl ⟨hsound, _, pushes, rfl⟩, fun _ => hsound, fun _ => rfl⟩
  | upTo _ wrong last pushes =>
    refine ⟨Or.inr ⟨_, _, wrong, last, _, pushes, rfl⟩, ?_, ?_⟩
    · intro hok
      cases hok
    · intro hsound
      exact absurd wrong (hsound _ _)

end Segment

end Assembler
