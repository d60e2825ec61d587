import Assembler.Proofs.Text.Scanning
import Assembler.Settings.Text
import Mathlib.Algebra.Group.Nat.Defs
import Mathlib.Data.List.Nodup

/-! Settings from entries. Entries that name each setting at most once override the defaults
whatever their order, and the checks that follow come in a fixed order. -/

namespace Assembler

theorem Setting.mem_all (setting : Setting) : setting ∈ all := by
  cases setting <;> decide

theorem Setting.nodup_all : all.Nodup := by decide

theorem Setting.key_injective : Function.Injective key := by
  have table : ∀ a ∈ all, ∀ b ∈ all, a.key = b.key → a = b := by decide
  intro a b h
  exact table a a.mem_all b b.mem_all h

theorem Setting.ofKey?_key (setting : Setting) : ofKey? setting.key = some setting := by
  cases setting <;> decide

namespace Settings

/-- Numbers for some of the settings, in any order, each setting at most once. -/
structure Choice where
  entries : List (Setting × Nat)
  distinct : (entries.map Prod.fst).Nodup
  bounded : ∀ entry ∈ entries, entry.2 < 2 ^ 64

theorem get_set (s : Settings) (setting other : Setting) (value : Nat) :
    (s.set setting value).get other = if other = setting then value else s.get other := by
  cases setting <;> cases other <;> rfl

theorem set_comm (s : Settings) {setting other : Setting} (h : setting ≠ other) (m n : Nat) :
    (s.set setting m).set other n = (s.set other n).set setting m := by
  cases setting <;> cases other <;> first | rfl | exact absurd rfl h

section Override

def override (s : Settings) (entries : List (Setting × Nat)) : Settings :=
  entries.foldl (fun s entry => s.set entry.1 entry.2) s

theorem get_override {entries : List (Setting × Nat)} (h : (entries.map Prod.fst).Nodup)
    (s : Settings) (setting : Setting) :
    (s.override entries).get setting = (entries.lookup setting).getD (s.get setting) := by
  induction entries generalizing s with
  | nil => rfl
  | cons entry rest ih =>
    obtain ⟨first, value⟩ := entry
    obtain ⟨hfirst, hrest⟩ := List.nodup_cons.mp h
    have hstep : (s.override ((first, value) :: rest)).get setting =
        (rest.lookup setting).getD ((s.set first value).get setting) := ih hrest _
    rw [hstep, get_set, List.lookup_cons]
    by_cases hsame : setting = first
    · subst hsame
      simp [lookup_eq_none_of_notMem hfirst]
    · have hother : (setting == first) = false := beq_eq_false_iff_ne.mpr hsame
      simp [hsame, hother]

theorem get_ofEntries (c : Choice) (setting : Setting) :
    (ofEntries c.entries).get setting =
      (c.entries.lookup setting).getD (({} : Settings).get setting) :=
  get_override c.distinct {} setting

theorem ofEntries_perm {entries others : List (Setting × Nat)} (h : entries.Perm others)
    (hdistinct : (entries.map Prod.fst).Nodup) : ofEntries entries = ofEntries others := by
  apply h.foldl_eq'
  intro first hfirst second hsecond s
  by_cases hsame : first.1 = second.1
  · rw [List.inj_on_of_nodup_map hdistinct hfirst hsecond hsame]
  · exact s.set_comm hsame first.2 second.2

end Override

section Validate

/-- The checks come in this order, and the first that fails decides the fault. -/
theorem validate_cases (s : Settings) :
    (s.registerLimbs = 0 ∧ s.validate = .error .noLimbs) ∨
    (0 < s.registerLimbs ∧ s.elementSize = 0 ∧ s.validate = .error .noElementSize) ∨
    (0 < s.registerLimbs ∧ 0 < s.elementSize ∧ s.memoryBase < s.registerBase ∧
      s.validate = .error (.memoryBelowRegisters s.memoryBase s.registerBase)) ∨
    (0 < s.registerLimbs ∧ 0 < s.elementSize ∧ s.registerBase ≤ s.memoryBase ∧
      s.validate = .ok s) := by
  by_cases hlimbs : s.registerLimbs = 0
  · simp [validate, hlimbs]
  · by_cases hsize : s.elementSize = 0
    · simp [validate, hlimbs, hsize, Nat.pos_of_ne_zero]
    · by_cases hbase : s.memoryBase < s.registerBase
      · simp [validate, hlimbs, hsize, hbase, Nat.pos_of_ne_zero]
      · simp [validate, hlimbs, hsize, hbase, Nat.pos_of_ne_zero, Nat.le_of_not_lt]

end Validate

end Settings

end Assembler
