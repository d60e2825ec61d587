import Mathlib.Data.List.TakeWhile

/-! Runs of characters and decimal numbers, as readers of texts scan them. A scan takes the longest
run of its class; a number is one run of digits, and only zero begins with the digit zero. -/

namespace Assembler

theorem lookup_eq_none_of_notMem {α β : Type} [BEq α] [LawfulBEq α] {entries : List (α × β)}
    {key : α} (h : key ∉ entries.map Prod.fst) : entries.lookup key = none := by
  rw [List.lookup_eq_none_iff]
  intro entry hentry
  rw [bne_iff_ne]
  rintro rfl
  exact h (List.mem_map_of_mem hentry)

abbrev Blanks (isBlank : Char → Bool) := {cs : List Char // ∀ c ∈ cs, isBlank c = true}

def Stops (isMember : Char → Bool) (text : List Char) : Prop :=
  ∀ c ∈ text.head?, isMember c = false

theorem stops_cons {isMember : Char → Bool} {c : Char} (h : isMember c = false)
    (text : List Char) : Stops isMember (c :: text) := by
  rintro _ ⟨⟩
  exact h

theorem Stops.blanks_append {isBlank isMember : Char → Bool} {text : List Char}
    (h : Stops isMember text) (hblank : ∀ c, isBlank c = true → isMember c = false)
    (blanks : Blanks isBlank) : Stops isMember (blanks.1 ++ text) := by
  obtain ⟨_ | ⟨b, more⟩, hmore⟩ := blanks
  · exact h
  · exact stops_cons (hblank b (hmore b List.mem_cons_self)) _

structure Run (isMember : Char → Bool) (run rest : List Char) : Prop where
  inside : ∀ c ∈ run, isMember c = true
  stops : Stops isMember rest

namespace Run

variable {isMember : Char → Bool} {run rest : List Char}

theorem takeWhile_append (h : Run isMember run rest) : (run ++ rest).takeWhile isMember = run := by
  rw [List.takeWhile_append_of_pos h.inside]
  cases rest with
  | nil => simp
  | cons c more => simp [h.stops c rfl]

theorem dropWhile_append (h : Run isMember run rest) : (run ++ rest).dropWhile isMember = rest := by
  rw [List.dropWhile_append_of_pos h.inside]
  cases rest with
  | nil => rfl
  | cons c more => simp [h.stops c rfl]

end Run

theorem isDigit_of_mem_toDigits {n : Nat} {c : Char} (h : c ∈ Nat.toDigits 10 n) :
    c.isDigit = true :=
  Nat.isDigit_of_mem_toDigits (by decide) (by decide) h

/-- A number begins with a digit, and with a zero only if it is zero. -/
theorem toDigits_cases (n : Nat) :
    (n = 0 ∧ Nat.toDigits 10 n = ['0']) ∨
      ∃ c more, Nat.toDigits 10 n = c :: more ∧ c.isDigit = true ∧ c ≠ '0' := by
  have table : ∀ d < 10, d ≠ 0 → Nat.digitChar d ≠ '0' := by decide
  induction n using Nat.strongRecOn with
  | ind n ih =>
    by_cases hlt : n < 10
    · have hone : Nat.toDigits 10 n = [Nat.digitChar n] := Nat.toDigits_of_lt_base hlt
      by_cases hzero : n = 0
      · subst n
        exact Or.inl ⟨rfl, hone⟩
      · have hdigit : (Nat.digitChar n).isDigit = true :=
          isDigit_of_mem_toDigits (n := n) (hone ▸ List.mem_singleton_self _)
        exact Or.inr ⟨Nat.digitChar n, [], hone, hdigit, table n hlt hzero⟩
    · have hsplit : Nat.toDigits 10 n = Nat.toDigits 10 (n / 10) ++ [Nat.digitChar (n % 10)] := by
        rw [Nat.toDigits_eq_if (by decide), if_neg hlt]
      rcases ih (n / 10) (by omega) with ⟨hzero, _⟩ | ⟨c, more, hmore, hc⟩
      · omega
      · refine Or.inr ⟨c, more ++ [Nat.digitChar (n % 10)], ?_, hc⟩
        rw [hsplit, hmore, List.cons_append]

theorem stops_toDigits {isMember : Char → Bool} (h : ∀ c, c.isDigit = true → isMember c = false)
    (n : Nat) (rest : List Char) : Stops isMember (Nat.toDigits 10 n ++ rest) := by
  obtain ⟨c, more, hmore⟩ := List.exists_cons_of_ne_nil (Nat.toDigits_ne_nil (b := 10) (n := n))
  rw [hmore]
  exact stops_cons (h c (isDigit_of_mem_toDigits (hmore ▸ List.mem_cons_self))) _

end Assembler
