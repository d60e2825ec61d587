import Assembler.Proofs.Segment.Emission

/-! Operands on the stack. The code in front of an opcode is run on a symbolic stack: the opcode
finds its operands there in the order in which they are written, those that were left out among
them, and nothing below is touched. -/

namespace Assembler

inductive Symbolic where
  | word (w : Word)
  | load (address : Symbolic)
  /-- Something the code did not put there. -/
  | given (n : Nat)
  deriving DecidableEq, Repr

namespace Symbolic

/-- Operands are put on the stack by pushes and loads only, so anything else stops the machine. -/
def step (stack : List Symbolic) (i : Instruction) : Option (List Symbolic) :=
  match i.opcode, stack with
  | .push _, stack => some (.word i.immediate :: stack)
  | .mload, address :: rest => some (.load address :: rest)
  | _, _ => none

def run (code : List Instruction) (stack : List Symbolic) : Option (List Symbolic) :=
  code.foldlM step stack

theorem run_append (code more : List Instruction) (stack : List Symbolic) :
    run (code ++ more) stack = (run code stack).bind (run more) := List.foldlM_append

theorem step_height {stack found : List Symbolic} {i : Instruction}
    (h : step stack i = some found) :
    (found.length : Int) = stack.length + i.opcode.stackChange := by
  unfold step at h
  split at h
  · rename_i n hop
    cases h
    have hpush : (Opcode.push n).stackChange = 1 := rfl
    rw [hop, hpush, List.length_cons, Int.natCast_succ]
  · rename_i hop
    cases h
    have hload : Opcode.mload.stackChange = 0 := rfl
    rw [hop, hload, List.length_cons, List.length_cons, Int.add_zero]
  · cases h

theorem run_height {code : List Instruction} {stack found : List Symbolic}
    (h : run code stack = some found) :
    (found.length : Int) = stack.length + stackChange code := by
  induction code generalizing stack with
  | nil =>
    cases h
    simp [stackChange]
  | cons i rest ih =>
    rw [run, List.foldlM_cons] at h
    obtain ⟨middle, hstep, hrest⟩ := Option.bind_eq_some_iff.mp h
    have hfirst := step_height hstep
    have hlater := ih hrest
    rw [stackChange]
    omega

/-- The operands an opcode finds: each one left out is the next entry of the stack. -/
def arguments : List (Option Symbolic) → List Symbolic → List Symbolic
  | [], _ => []
  | some operand :: rest, stack => operand :: arguments rest stack
  | none :: rest, entry :: stack => entry :: arguments rest stack
  | none :: _, [] => []

def omitted (operands : List (Option Symbolic)) : Nat := operands.countP Option.isNone

@[simp] theorem omitted_some (operand : Symbolic) (rest : List (Option Symbolic)) :
    omitted (some operand :: rest) = omitted rest := by
  simp [omitted]

@[simp] theorem omitted_none (rest : List (Option Symbolic)) :
    omitted (none :: rest) = omitted rest + 1 := by
  simp [omitted]

theorem omitted_replicate (n : Nat) : omitted (List.replicate n none) = n := by
  induction n with
  | zero => rfl
  | succ n ih => rw [List.replicate_succ, omitted_none, ih]

theorem arguments_replicate (n : Nat) (stack : List Symbolic) :
    arguments (List.replicate n none) stack = stack.take n := by
  induction n generalizing stack with
  | zero => rfl
  | succ n ih =>
    cases stack with
    | nil => rfl
    | cons entry stack => rw [List.replicate_succ, arguments, List.take_succ_cons, ih]

theorem length_arguments {operands : List (Option Symbolic)} {stack : List Symbolic}
    (h : omitted operands ≤ stack.length) :
    (arguments operands stack).length = operands.length := by
  induction operands generalizing stack with
  | nil => rfl
  | cons operand rest ih =>
    cases operand with
    | some x =>
      rw [omitted_some] at h
      rw [arguments, List.length_cons, List.length_cons, ih h]
    | none =>
      rw [omitted_none] at h
      cases stack with
      | nil => cases h
      | cons entry stack =>
        rw [arguments, List.length_cons, List.length_cons, ih (Nat.le_of_succ_le_succ h)]

/-- Code that completes the operands: behind it they stand on top, and below them is what the
stack had below the entries taken for the omitted ones. -/
def Supplies (code : List Instruction) (operands : List (Option Symbolic)) : Prop :=
  ∀ stack, omitted operands ≤ stack.length →
    run code stack = some (arguments operands stack ++ stack.drop (omitted operands))

namespace Supplies

theorem of_all_omitted (n : Nat) : Supplies [] (List.replicate n none) := by
  intro stack h
  rw [arguments_replicate, omitted_replicate, List.take_append_drop]
  rfl

theorem push {code : List Instruction} {operands : List (Option Symbolic)}
    (h : Supplies code operands) {w : Word} {u : Unit} (hpush : (Emission.push w).outcome = .ok u) :
    Supplies (code ++ (Emission.push w).code) (some (.word w) :: operands) := by
  intro stack hstack
  rw [omitted_some] at hstack ⊢
  by_cases hw : w.size < 33
  · rw [run_append, h stack hstack, Emission.push_of_fits hw]
    rfl
  · rw [Emission.push_of_wide hw] at hpush
    cases hpush

theorem load {code : List Instruction} {address : Symbolic} {operands : List (Option Symbolic)}
    (h : Supplies code (some address :: operands)) :
    Supplies (code ++ [.plain .mload]) (some (.load address) :: operands) := by
  intro stack hstack
  rw [omitted_some, ← omitted_some address] at hstack ⊢
  rw [run_append, h stack hstack]
  rfl

theorem stackChange_eq {code : List Instruction} {operands : List (Option Symbolic)}
    (h : Supplies code operands) :
    stackChange code = (operands.length : Int) - omitted operands := by
  have hlen : (List.replicate (omitted operands) (given 0)).length = omitted operands :=
    List.length_replicate
  have hrun := run_height (h (List.replicate (omitted operands) (given 0)) (le_of_eq hlen.symm))
  rw [List.length_append, length_arguments (le_of_eq hlen.symm), List.length_drop, hlen] at hrun
  omega

end Supplies

end Symbolic

namespace Emission

open Symbolic

theorem then_opcode_ok {e : Emission Unit} {op : Opcode} {u : Unit}
    (h : (e >>= fun _ => opcode op).outcome = .ok u) :
    e.outcome = .ok () ∧ (e >>= fun _ => opcode op).code = e.code ++ [.plain op] := by
  obtain ⟨_, he, _, hcode⟩ := bind_ok h
  exact ⟨he, hcode⟩

theorem operandsFrom_ok {position : Nat} {values : List (Option Word)} {supplied : Bool}
    (h : (operandsFrom position values).outcome = .ok supplied) :
    Supplies (operandsFrom position values).code (values.map (Option.map Symbolic.word)) ∧
      (supplied = false → (operandsFrom position values).code = [] ∧
        values = List.replicate values.length none) := by
  induction values generalizing position supplied with
  | nil => exact ⟨Supplies.of_all_omitted 0, fun _ => ⟨rfl, rfl⟩⟩
  | cons operand rest ih =>
    obtain ⟨more, hrest, hlast, hcode⟩ := bind_ok h
    obtain ⟨hsupplies, hnone⟩ := ih hrest
    rw [operandsFrom, hcode]
    cases operand with
    | some value =>
      obtain ⟨_, hpush, hdone, hpushCode⟩ := bind_ok hlast
      rw [hpushCode]
      cases hdone
      refine ⟨?_, fun hfalse => by cases hfalse⟩
      have hnil : (pure true : Emission Bool).code = [] := rfl
      rw [hnil, List.append_nil]
      exact hsupplies.push hpush
    | none =>
      cases more with
      | true => cases hlast
      | false =>
        -- Nothing was pushed to the right, so all operands from here on are left out.
        obtain ⟨hempty, hall⟩ := hnone rfl
        have hvalues : none :: rest = List.replicate (rest.length + 1) none := by
          rw [List.replicate_succ, ← hall]
        have hnil : (operandsFrom (position + 1) rest).code ++ (pure false : Emission Bool).code =
            [] := by
          rw [hempty]
          rfl
        refine ⟨?_, fun _ => ⟨hnil, hvalues⟩⟩
        rw [hvalues, List.map_replicate]
        exact hnil ▸ Supplies.of_all_omitted (rest.length + 1)

theorem operands_ok {values : List (Option Word)} {u : Unit}
    (h : (operands values).outcome = .ok u) :
    Supplies (operands values).code (values.map (Option.map Symbolic.word)) := by
  cases hfrom : (operandsFrom 0 values).outcome with
  | error fault =>
    rw [operands, map_outcome, hfrom] at h
    cases h
  | ok supplied => exact (operandsFrom_ok hfrom).1

end Emission

def Operand.asAddress : Operand → Symbolic
  | .value w => .word w
  | .place view => .word (.ofNat view.addr)

/-- What an operand stands for as a jump target, which a place only holds. -/
def Operand.asTarget : Operand → Symbolic
  | .value w => .word w
  | .place view => .load (.word (.ofNat view.addr))

def ValueTree.word? : ValueTree → Option Word
  | .leaf w => some w
  | .node _ => none

def regionSize : Option Operand → Option Word → Option Word
  | some (.place view), none => some (.ofNat view.footprint)
  | _, size => size

/-- An opcode with the operands written for it; `none` stands for one that is left out. -/
structure Application where
  opcode : Opcode
  operands : List (Option Symbolic)

/-- What a directive applies to its operands, if it takes operands from the stack. Storing into a
grid does not: it is one store for each element. -/
def Directive.application? : Directive → Option Application
  | .unary op x => some ⟨op.opcode, [x.map .word]⟩
  | .binary op x y => some ⟨op.opcode, [x.map .word, y.map .word]⟩
  | .ternary op x y n => some ⟨op.opcode, [x.map .word, y.map .word, n.map .word]⟩
  | .load source => some ⟨.mload, [source.map Operand.asAddress]⟩
  | .store (some (.place (.grid _))) _ => none
  | .store dest value =>
    some ⟨.mstore, [dest.map Operand.asAddress, (value.bind ValueTree.word?).map .word]⟩
  | .copyInput dest offset size =>
    some ⟨.callDataCopy,
      [dest.map Operand.asAddress, offset.map .word, (regionSize dest size).map .word]⟩
  | .finish source size =>
    some ⟨.returnData, [source.map Operand.asAddress, (regionSize source size).map .word]⟩
  | .jump dest => some ⟨.jump, [dest.map Operand.asTarget]⟩
  | .jumpIf dest condition =>
    some ⟨.jumpIf, [dest.map Operand.asTarget, condition.map .word]⟩
  | .jumpBack returnSlot => some ⟨.jump, [some (.load (.word (.ofNat returnSlot.addr)))]⟩
  | _ => none

theorem Directive.pops_application {d : Directive} {a : Application}
    (h : d.application? = some a) : a.opcode.pops = a.operands.length := by
  unfold application? at h
  split at h
  case h_1 op x => cases h; cases op <;> rfl
  case h_2 op x y => cases h; cases op <;> rfl
  case h_3 op x y n => cases h; cases op <;> rfl
  all_goals cases h <;> rfl

namespace Emission

open Symbolic

theorem address_ok {source : Option Operand} {u : Unit} (h : (address source).outcome = .ok u) :
    Supplies (address source).code [source.map Operand.asAddress] := by
  cases source with
  | none => exact Supplies.of_all_omitted 1
  | some operand => cases operand <;> exact (Supplies.of_all_omitted 0).push h

theorem target_ok {code : List Instruction} {operands : List (Option Symbolic)}
    (hcode : Supplies code operands) {dest : Operand} {u : Unit}
    (h : (target (some dest)).outcome = .ok u) :
    Supplies (code ++ (target (some dest)).code) (some dest.asTarget :: operands) := by
  cases dest with
  | value w => exact hcode.push h
  | place view =>
    obtain ⟨haddress, hload⟩ := then_opcode_ok h
    rw [target, load, hload, ← List.append_assoc]
    exact (hcode.push haddress).load

theorem branchOperands_ok {dest : Option Operand} {condition : Option Word} {u : Unit}
    (h : (branchOperands dest condition).outcome = .ok u) :
    Supplies (branchOperands dest condition).code
      [dest.map Operand.asTarget, condition.map .word] := by
  cases dest with
  | some dest =>
    obtain ⟨_, hcondition, htarget, hcode⟩ := bind_ok h
    rw [branchOperands, hcode]
    exact target_ok (operands_ok hcondition) htarget
  | none =>
    cases condition with
    | some w => cases h
    | none => exact Supplies.of_all_omitted 2

theorem regionOperands_ok {source : Option Operand} {size : Option Word} {u : Unit}
    (h : (regionOperands source size).outcome = .ok u) :
    Supplies (regionOperands source size).code
      [source.map Operand.asAddress, (regionSize source size).map .word] := by
  cases source with
  | none => exact operands_ok h
  | some operand =>
    cases operand with
    | value w => exact operands_ok h
    | place view =>
      obtain ⟨_, hsize, haddress, hcode⟩ := bind_ok h
      rw [regionOperands, hcode]
      have hpushed := ((Supplies.of_all_omitted 0).push hsize).push haddress
      cases size <;> exact hpushed

theorem copyOperands_ok {dest : Option Operand} {offset size : Option Word} {u : Unit}
    (h : (copyOperands dest offset size).outcome = .ok u) :
    Supplies (copyOperands dest offset size).code
      [dest.map Operand.asAddress, offset.map .word, (regionSize dest size).map .word] := by
  cases dest with
  | none => exact operands_ok h
  | some operand =>
    cases operand with
    | value w => exact operands_ok h
    | place view =>
      cases offset with
      | none => cases h
      | some offset =>
        obtain ⟨_, hsize, h, hfirst⟩ := bind_ok h
        obtain ⟨_, hoffset, haddress, hsecond⟩ := bind_ok h
        rw [copyOperands, hfirst, hsecond, ← List.append_assoc]
        have hpushed := (((Supplies.of_all_omitted 0).push hsize).push hoffset).push haddress
        cases size <;> exact hpushed

theorem singleValue_ok {name : String} {value : Option ValueTree} {result : Option Word}
    (h : (singleValue name value).outcome = .ok result) :
    (singleValue name value).code = [] ∧ result = value.bind ValueTree.word? := by
  cases value with
  | none => cases h; exact ⟨rfl, rfl⟩
  | some tree =>
    cases tree with
    | leaf w => cases h; exact ⟨rfl, rfl⟩
    | node children => cases h

theorem store_ok {dest : Option Operand} {value : Option ValueTree} {u : Unit}
    (hdest : ∀ g, dest ≠ some (.place (.grid g))) (h : (store dest value).outcome = .ok u) :
    ∃ supply, (store dest value).code = supply ++ [.plain .mstore] ∧
      Supplies supply
        [dest.map Operand.asAddress, (value.bind ValueTree.word?).map .word] := by
  cases dest with
  | none =>
    obtain ⟨single, hsingle, h, hfirst⟩ := bind_ok h
    obtain ⟨hnil, rfl⟩ := singleValue_ok hsingle
    obtain ⟨hoperands, hsecond⟩ := then_opcode_ok h
    exact ⟨_, by rw [store, hfirst, hnil, hsecond]; rfl, operands_ok hoperands⟩
  | some operand =>
    cases operand with
    | value w =>
      obtain ⟨single, hsingle, h, hfirst⟩ := bind_ok h
      obtain ⟨hnil, rfl⟩ := singleValue_ok hsingle
      obtain ⟨hoperands, hsecond⟩ := then_opcode_ok h
      exact ⟨_, by rw [store, hfirst, hnil, hsecond]; rfl, operands_ok hoperands⟩
    | place view =>
      cases view with
      | grid g => exact absurd rfl (hdest g)
      | cell c =>
        obtain ⟨single, hsingle, h, hfirst⟩ := bind_ok h
        obtain ⟨hnil, rfl⟩ := singleValue_ok hsingle
        obtain ⟨_, hoperands, h, hsecond⟩ := bind_ok h
        obtain ⟨haddress, hthird⟩ := then_opcode_ok h
        refine ⟨_, ?_, (operands_ok hoperands).push haddress⟩
        rw [store, hfirst, hnil, hsecond, hthird, List.nil_append, List.append_assoc]
        rfl

theorem silent_ok {e : Emission Unit} {result : Option Nat} (h : e.silent.outcome = .ok result) :
    e.outcome = .ok () := by
  rw [silent, map_outcome] at h
  cases he : e.outcome with
  | error fault =>
    rw [he] at h
    cases h
  | ok u => rfl

end Emission

namespace Segment

open Symbolic

theorem emission_supplies {s : Segment} {d : Directive} {a : Application}
    (ha : d.application? = some a) {result : Option Nat}
    (h : (s.emission d).outcome = .ok result) :
    ∃ supply, (s.emission d).code = supply ++ [.plain a.opcode] ∧ Supplies supply a.operands := by
  cases d with
  | unary op x =>
    cases ha
    rw [emission, op.mnemonic_eq_name, Emission.mnemonic_name] at h ⊢
    obtain ⟨_, hoperands, _, hcode⟩ := Emission.bind_ok h
    exact ⟨_, hcode, Emission.operands_ok hoperands⟩
  | binary op x y =>
    cases ha
    rw [emission, op.mnemonic_eq_name, Emission.mnemonic_name] at h ⊢
    obtain ⟨_, hoperands, _, hcode⟩ := Emission.bind_ok h
    exact ⟨_, hcode, Emission.operands_ok hoperands⟩
  | ternary op x y n =>
    cases ha
    rw [emission, op.mnemonic_eq_name, Emission.mnemonic_name] at h ⊢
    obtain ⟨_, hoperands, _, hcode⟩ := Emission.bind_ok h
    exact ⟨_, hcode, Emission.operands_ok hoperands⟩
  | load source =>
    cases ha
    obtain ⟨haddress, hcode⟩ := Emission.then_opcode_ok (Emission.silent_ok h)
    exact ⟨_, hcode, Emission.address_ok haddress⟩
  | store dest value =>
    have hdest : ∀ g, dest ≠ some (.place (.grid g)) := by
      rintro g rfl
      cases ha
    have happlication : Directive.application? (.store dest value) = some
        ⟨.mstore, [dest.map Operand.asAddress, (value.bind ValueTree.word?).map .word]⟩ := by
      rcases dest with _ | _ | _ | g
      · rfl
      · rfl
      · rfl
      · exact absurd rfl (hdest g)
    cases happlication.symm.trans ha
    exact Emission.store_ok hdest (Emission.silent_ok h)
  | copyInput dest offset size =>
    cases ha
    obtain ⟨hoperands, hcode⟩ := Emission.then_opcode_ok (Emission.silent_ok h)
    exact ⟨_, hcode, Emission.copyOperands_ok hoperands⟩
  | finish source size =>
    cases ha
    obtain ⟨hoperands, hcode⟩ := Emission.then_opcode_ok (Emission.silent_ok h)
    exact ⟨_, hcode, Emission.regionOperands_ok hoperands⟩
  | jump dest =>
    cases ha
    obtain ⟨htarget, hcode⟩ := Emission.then_opcode_ok (Emission.silent_ok h)
    refine ⟨_, hcode, ?_⟩
    cases dest with
    | none => exact Supplies.of_all_omitted 1
    | some dest => exact Emission.target_ok (Supplies.of_all_omitted 0) htarget
  | jumpIf dest condition =>
    cases ha
    obtain ⟨hoperands, hcode⟩ := Emission.then_opcode_ok (Emission.silent_ok h)
    exact ⟨_, hcode, Emission.branchOperands_ok hoperands⟩
  | jumpBack returnSlot =>
    cases ha
    obtain ⟨htarget, hcode⟩ := Emission.then_opcode_ok (Emission.silent_ok h)
    exact ⟨_, hcode, Emission.target_ok (Supplies.of_all_omitted 0) htarget⟩
  | _ => cases ha

/-- The operand rule. Whenever a directive that takes operands from the stack succeeds, the opcode
at the end of its code finds, top first, the operands in their written order, where those left out
are the top entries of the stack, and what was below them is untouched. So the height of the stack
changes by what the opcode leaves, less the operands left out. -/
theorem operands_in_written_order {s : Segment} {d : Directive} {a : Application}
    (ha : d.application? = some a) {result : Option Nat} (h : (s.perform d).2 = .ok result) :
    ∃ supply, (s.perform d).1.code = s.code ++ (supply ++ [.plain a.opcode]) ∧
      (∀ stack, omitted a.operands ≤ stack.length →
        ∃ found, run supply stack = some found ∧
          found.take a.opcode.pops = arguments a.operands stack ∧
          found.drop a.opcode.pops = stack.drop (omitted a.operands)) ∧
      stackChange (s.perform d).1.code =
        stackChange s.code + a.opcode.pushes - omitted a.operands := by
  obtain ⟨supply, hcode, hsupplies⟩ := emission_supplies ha h
  have hperform : (s.perform d).1.code = s.code ++ (supply ++ [.plain a.opcode]) := by
    rw [← hcode]
    rfl
  have hpops := Directive.pops_application ha
  refine ⟨supply, hperform, ?_, ?_⟩
  · intro stack hstack
    have hlen : (arguments a.operands stack).length = a.opcode.pops := by
      rw [length_arguments hstack, hpops]
    exact ⟨_, hsupplies stack hstack, List.take_left' hlen, List.drop_left' hlen⟩
  · have hsupply := hsupplies.stackChange_eq
    have hlast : stackChange [.plain a.opcode] = (a.opcode.pushes : Int) - a.opcode.pops :=
      Int.add_zero _
    rw [hperform, stackChange_append, stackChange_append, hsupply, hlast, hpops]
    omega

/-- A jump through a cell whose condition is left out: the target is loaded on top of the entry that
serves as the condition. -/
theorem operands_in_written_order_of_branch :
    let s : Segment := ⟨"main", [.plain .jumpDest], none, ⟨0, 4⟩⟩
    let d : Directive := .jumpIf (some (.place (.cell ⟨"to", 96, 32⟩))) none
    let a : Application := ⟨.jumpIf, [some (.load (.word (.ofNat 96))), none]⟩
    d.application? = some a ∧ (s.perform d).2 = .ok none ∧
    ∃ supply, (s.perform d).1.code = s.code ++ (supply ++ [.plain .jumpIf]) ∧
      (∃ found, run supply [.given 0, .given 1] = some found ∧
        found.take 2 = [.load (.word (.ofNat 96)), .given 0] ∧ found.drop 2 = [.given 1]) ∧
      stackChange (s.perform d).1.code = -1 := by
  intro s d a
  have ha : d.application? = some a := rfl
  have hok : (s.perform d).2 = .ok none := by decide +kernel
  obtain ⟨supply, hcode, hrun, hchange⟩ := operands_in_written_order ha hok
  exact ⟨ha, hok, supply, hcode, hrun [.given 0, .given 1] (by decide), hchange⟩

end Segment

end Assembler
