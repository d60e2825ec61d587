import Assembler.Proofs.Text.Scanning
import Assembler.Toml.Document
import Mathlib.Algebra.Group.Nat.Defs

/-! Flat TOML documents: each line gives a number under a key that needs no quotes. The reader
finds exactly the keys with their numbers, in the order of the lines, wherever blanks stand and
however the lines end. -/

namespace Assembler.Toml

def BareKey (key : String) : Prop :=
  key.toList ≠ [] ∧ ∀ c ∈ key.toList, isBare c = true

instance (key : String) : Decidable (BareKey key) :=
  decidable_of_iff (key.toList ≠ [] ∧ key.toList.all isBare = true) (by simp [BareKey])

structure Spacing where
  indent : Blanks isBlank
  before : Blanks isBlank
  after : Blanks isBlank
  trailing : Blanks isBlank

def Spacing.line (s : Spacing) (key : String) (n : Nat) (stop : List Char) : List Char :=
  s.indent.1 ++ (key.toList ++ (s.before.1 ++
    '=' :: (s.after.1 ++ (Nat.toDigits 10 n ++ (s.trailing.1 ++ stop)))))

/-- The end of a line, and the lines behind it. The last line may end with the text. -/
inductive LineEnd : List Char → List Char → Prop
  | text : LineEnd [] []
  | feed (rest : List Char) : LineEnd ('\n' :: rest) rest
  | carriage (rest : List Char) : LineEnd ('\r' :: '\n' :: rest) rest

/-- A text whose lines give numbers under keys. -/
inductive FlatText : List (String × Nat) → List Char → Prop
  | nil : FlatText [] []
  | line {key : String} {n : Nat} {pairs : List (String × Nat)} {stop rest : List Char}
      (hkey : BareKey key) (spacing : Spacing) (hstop : LineEnd stop rest)
      (hrest : FlatText pairs rest) : FlatText ((key, n) :: pairs) (spacing.line key n stop)

section Blanks

theorem eq_of_isBlank {c : Char} (h : isBlank c = true) : c = ' ' ∨ c = '\t' := by
  simpa [isBlank] using h

theorem skipBlanks_append (blanks : Blanks isBlank) {rest : List Char}
    (h : Stops isBlank rest) : skipBlanks (blanks.1 ++ rest) = rest :=
  Run.dropWhile_append ⟨blanks.2, h⟩

theorem LineEnd.lineEnd? {stop rest : List Char} (h : LineEnd stop rest) :
    Toml.lineEnd? false stop = some rest := by
  cases h <;> rfl

theorem lineEnd?_append (blanks : Blanks isBlank) {stop rest : List Char}
    (h : LineEnd stop rest) : lineEnd? false (blanks.1 ++ stop) = some rest := by
  obtain ⟨blanks, hblanks⟩ := blanks
  induction blanks with
  | nil => exact h.lineEnd?
  | cons c more ih =>
    obtain ⟨hc, hmore⟩ := List.forall_mem_cons.mp hblanks
    rw [List.cons_append, Toml.lineEnd?]
    · simpa [hc] using ih hmore
    · rintro rfl
      cases hc
    · rintro _ rfl
      cases hc

end Blanks

section Key

theorem keyPart?_append {key : String} (hkey : BareKey key) {rest : List Char}
    (hrest : Stops isBare rest) :
    keyPart? (key.toList ++ rest) = some (key, rest) := by
  have hrun : Run isBare key.toList rest := ⟨hkey.2, hrest⟩
  obtain ⟨c, more, hkeyChars⟩ := List.exists_cons_of_ne_nil hkey.1
  have hc : isBare c = true := hkey.2 c (hkeyChars ▸ List.mem_cons_self)
  unfold keyPart?
  split
  · rename_i h
    rw [hkeyChars] at h
    cases h
    cases hc
  · rename_i h
    rw [hkeyChars] at h
    cases h
    cases hc
  · have hfull : key.toList.isEmpty = false := by rw [hkeyChars]; rfl
    simp only [hrun.takeWhile_append, hrun.dropWhile_append, hfull, String.ofList_toList]
    rfl

theorem key?_append {key : String} (hkey : BareKey key) (blanks : Blanks isBlank)
    (value : List Char) :
    key? (key.toList ++ (blanks.1 ++ '=' :: value)) = some ([], key, '=' :: value) := by
  have hrest : Stops isBare (blanks.1 ++ '=' :: value) := by
    apply (stops_cons rfl value).blanks_append
    intro c hc
    rcases eq_of_isBlank hc with rfl | rfl <;> rfl
  have hskip : skipBlanks (blanks.1 ++ '=' :: value) = '=' :: value :=
    skipBlanks_append blanks (stops_cons rfl value)
  rw [key?, maxKeyParts, keyPath?, keyPart?_append hkey hrest]
  simp [hskip]

end Key

section Number

variable {digits : List Char}

theorem ungroup?_of_digits (hne : digits ≠ []) (h : ∀ c ∈ digits, c.isDigit = true) :
    ungroup? Char.isDigit digits = some digits := by
  induction digits with
  | nil => exact absurd rfl hne
  | cons c more ih =>
    obtain ⟨hc, hmore⟩ := List.forall_mem_cons.mp h
    cases more with
    | nil => simp [ungroup?, hc]
    | cons d rest =>
      have hd : d ≠ '_' := by
        rintro rfl
        cases hmore '_' List.mem_cons_self
      rw [ungroup?, if_pos hc, ih (List.cons_ne_nil d rest) hmore]
      · rfl
      · exact hd

theorem splitSign_of_digits (h : ∀ c ∈ digits, c.isDigit = true) :
    splitSign digits = (false, digits) := by
  unfold splitSign
  split
  · cases h '+' List.mem_cons_self
  · cases h '-' List.mem_cons_self
  · rfl

/-- A date has hyphens. -/
theorem isDate_of_digits (h : ∀ c ∈ digits, c.isDigit = true) : isDate digits = false := by
  unfold isDate date?
  split
  · cases h '-' (by simp)
  · rfl

theorem decimalDigits?_toDigits (n : Nat) :
    decimalDigits? (Nat.toDigits 10 n) = some (Nat.toDigits 10 n) := by
  rcases toDigits_cases n with ⟨_, hzero⟩ | ⟨c, more, hmore, _, hc⟩
  · rw [hzero]
    rfl
  · have hdigits := ungroup?_of_digits (List.cons_ne_nil c more)
      (hmore ▸ fun _ => isDigit_of_mem_toDigits)
    rw [hmore]
    unfold decimalDigits?
    split
    · rename_i h
      exact absurd (List.cons.inj h).1 hc
    · rename_i h
      exact absurd (List.cons.inj h).1 hc
    · exact hdigits

theorem integer?_toDigits (n : Nat) : integer? (Nat.toDigits 10 n) = some (n : Int) := by
  have hdigits : ∀ c ∈ Nat.toDigits 10 n, c.isDigit = true := fun _ => isDigit_of_mem_toDigits
  unfold integer?
  split
  · rename_i h
    cases hdigits 'x' (by simp [h])
  · rename_i h
    cases hdigits 'o' (by simp [h])
  · rename_i h
    cases hdigits 'b' (by simp [h])
  · simp [splitSign_of_digits hdigits, decimalDigits?_toDigits, Nat.ofDigitChars_ten_toDigits]

theorem scalar?_toDigits {n : Nat} (h : n < 2 ^ 128) :
    scalar? (Nat.toDigits 10 n) = some (.integer n) := by
  have hrange : inRange (n : Int) = true := by
    have hnonneg : ¬ (n : Int) < 0 := by omega
    rw [inRange, if_neg hnonneg, Int.natAbs_natCast]
    exact decide_eq_true h
  rw [scalar?, integer?_toDigits]
  exact if_pos hrange

theorem word_toDigits (n : Nat) {rest : List Char}
    (hrest : Stops isWordChar rest) :
    word (Nat.toDigits 10 n ++ rest) = (Nat.toDigits 10 n, rest) := by
  have hdigits : ∀ c ∈ Nat.toDigits 10 n, c.isDigit = true := fun _ => isDigit_of_mem_toDigits
  have hrun : Run isWordChar (Nat.toDigits 10 n) rest := by
    refine ⟨fun c hc => ?_, hrest⟩
    simp [isWordChar, Char.isAlphanum, hdigits c hc]
  unfold word
  simp only [hrun.takeWhile_append, hrun.dropWhile_append, isDate_of_digits hdigits]
  split <;> rfl

theorem value?_toDigits {n : Nat} (h : n < 2 ^ 128) {rest : List Char}
    (hrest : Stops isWordChar rest) :
    value? (Nat.toDigits 10 n ++ rest) = some (.integer n, rest) := by
  have hword := word_toDigits n hrest
  have hscalar := scalar?_toDigits h
  obtain ⟨c, more, hmore⟩ := List.exists_cons_of_ne_nil (Nat.toDigits_ne_nil (b := 10) (n := n))
  have hc : c.isDigit = true := isDigit_of_mem_toDigits (hmore ▸ List.mem_cons_self)
  rw [hmore, List.cons_append] at hword ⊢
  rw [hmore] at hscalar
  rw [value?, valueAt?]
  · simp only [hword, hscalar]
    rfl
  all_goals
    intros
    rename_i hopen
    obtain ⟨rfl, _⟩ := List.cons.inj hopen
    cases hc

end Number

section Document

def assigning (pair : String × Nat) : Assignment := ([], pair.1, .integer pair.2)

theorem LineEnd.stops {stop rest : List Char} (h : LineEnd stop rest) : Stops isWordChar stop := by
  cases h with
  | text => rintro _ ⟨⟩
  | feed => exact stops_cons rfl _
  | carriage => exact stops_cons rfl _

/-- A line that begins with a character of a key is an assignment. -/
theorem line?_of_isBare {text more value after rest : List Char} {c : Char} {key : String}
    {path : List String} {item : Item} (hc : isBare c = true) (hskip : skipBlanks text = c :: more)
    (hkey : key? (c :: more) = some (path, key, '=' :: value))
    (hvalue : value? (skipBlanks value) = some (item, after))
    (hend : lineEnd? false after = some rest) :
    line? text = some (.assignment (path, key, item), rest) := by
  unfold line?
  rw [hskip]
  split
  case h_7 => simp [hkey, hvalue, hend]
  all_goals
    rename_i hother
    cases hother
  all_goals cases hc

theorem isBlank_eq_false_of {c : Char} (h : isBare c = true ∨ c.isDigit = true) :
    isBlank c = false := by
  by_contra hblank
  rcases eq_of_isBlank (Bool.of_not_eq_false hblank) with rfl | rfl
  all_goals rcases h with h | h <;> cases h

theorem line?_line {key : String} {n : Nat} {stop rest : List Char} (hkey : BareKey key)
    (hn : n < 2 ^ 128) (s : Spacing) (hstop : LineEnd stop rest) :
    line? (s.line key n stop) = some (.assignment (assigning (key, n)), rest) := by
  obtain ⟨c, more, hchars⟩ := List.exists_cons_of_ne_nil hkey.1
  have hc : isBare c = true := hkey.2 c (hchars ▸ List.mem_cons_self)
  have hnumber : value? (skipBlanks (s.after.1 ++ (Nat.toDigits 10 n ++ (s.trailing.1 ++ stop)))) =
      some (.integer n, s.trailing.1 ++ stop) := by
    rw [skipBlanks_append, value?_toDigits hn]
    · apply hstop.stops.blanks_append
      intro b hb
      rcases eq_of_isBlank hb with rfl | rfl <;> rfl
    · exact stops_toDigits (fun _ hdigit => isBlank_eq_false_of (Or.inr hdigit)) n _
  apply line?_of_isBare hc
  · rw [Spacing.line, hchars, List.cons_append]
    exact skipBlanks_append _ (stops_cons (isBlank_eq_false_of (Or.inl hc)) _)
  · rw [← List.cons_append, ← hchars]
    exact key?_append hkey s.before _
  · exact hnumber
  · exact lineEnd?_append s.trailing hstop

theorem LineEnd.length_le {stop rest : List Char} (h : LineEnd stop rest) :
    rest.length ≤ stop.length := by
  cases h with
  | text => exact le_rfl
  | feed => exact Nat.le_add_right _ 1
  | carriage => exact Nat.le_add_right _ 2

theorem lines?_flat {pairs : List (String × Nat)} {text : List Char} (h : FlatText pairs text)
    (hrange : ∀ pair ∈ pairs, pair.2 < 2 ^ 128) {fuel : Nat} (hfuel : text.length ≤ fuel) :
    lines? fuel text = some ((pairs.map assigning).map .assignment) := by
  induction h generalizing fuel with
  | nil => cases fuel <;> rfl
  | @line key n pairs stop rest hkey s hstop _ ih =>
    obtain ⟨hn, hpairs⟩ := List.forall_mem_cons.mp hrange
    have hshorter : rest.length < (s.line key n stop).length := by
      have hle := hstop.length_le
      simp only [Spacing.line, List.length_append, List.length_cons]
      omega
    obtain ⟨fuel, rfl⟩ : ∃ k, fuel = k + 1 := ⟨fuel - 1, by omega⟩
    have hmore : lines? fuel rest = some ((pairs.map assigning).map .assignment) :=
      ih hpairs (by omega)
    rw [lines?]
    · simp [line?_line hkey hn s hstop, hmore]
    · intro hempty
      simp [hempty] at hshorter

theorem sections_assignments (assignments : List Assignment) :
    sections (assignments.map .assignment) = (assignments, []) := by
  induction assignments with
  | nil => rfl
  | cons a rest ih => rw [List.map_cons, sections, ih]

/-- Without headers, the lines fill the table of the document itself. -/
theorem build_assignments {assignments : List Assignment} {table : Table}
    (h : Table.assignAll [] assignments = some table) :
    build (assignments.map .assignment) = some table := by
  rw [build, sections_assignments]
  simp [h]

theorem put_of_notMem {table : Table} {key : String} (h : key ∉ table.map Prod.fst)
    (item : Item) : table.put key item = table ++ [(key, item)] := by
  induction table with
  | nil => rfl
  | cons entry rest ih =>
    obtain ⟨other, old⟩ := entry
    rw [List.map_cons, List.mem_cons, not_or] at h
    obtain ⟨hother, hrest⟩ := h
    have hne : ¬ (other == key) = true := fun heq => hother (beq_iff_eq.mp heq).symm
    rw [Table.put, if_neg hne, ih hrest, List.cons_append]

theorem assignAll_pairs {table : Table} {pairs : List (String × Nat)}
    (h : (table.map Prod.fst ++ pairs.map Prod.fst).Nodup) :
    table.assignAll (pairs.map assigning) =
      some (table ++ pairs.map fun pair => (pair.1, .integer pair.2)) := by
  induction pairs generalizing table with
  | nil => simp [Table.assignAll]
  | cons pair pairs ih =>
    obtain ⟨key, n⟩ := pair
    have hnew : key ∉ table.map Prod.fst := by
      intro hmem
      exact (List.nodup_append.mp h).2.2 key hmem key List.mem_cons_self rfl
    have hassign : table.assign true [] key (.integer n) =
        some (table ++ [(key, .integer n)]) := by
      rw [Table.assign, lookup_eq_none_of_notMem hnew, put_of_notMem hnew]
      rfl
    have hrest := @ih (table ++ [(key, .integer n)]) (by simpa using h)
    rw [Table.assignAll] at hrest ⊢
    simp only [List.map_cons, List.foldlM_cons, assigning, hassign]
    simpa using hrest

/-- A byte order mark is no blank and stands in no key without quotes. -/
theorem FlatText.no_mark {pairs : List (String × Nat)} {text : List Char}
    (h : FlatText pairs text) : Stops (· == '\ufeff') text := by
  cases h with
  | nil => rintro _ ⟨⟩
  | @line key n pairs stop rest hkey s hstop _ =>
    obtain ⟨c, more, hchars⟩ := List.exists_cons_of_ne_nil hkey.1
    have hc : isBare c = true := hkey.2 c (hchars ▸ List.mem_cons_self)
    rw [Spacing.line, hchars]
    apply Stops.blanks_append
    · apply stops_cons
      rw [beq_eq_false_iff_ne]
      rintro rfl
      cases hc
    · intro b hb
      rcases eq_of_isBlank hb with rfl | rfl <;> rfl

/-- A flat document with distinct keys is read as the table of its lines. -/
theorem read?_flat {pairs : List (String × Nat)} {text : String} (h : FlatText pairs text.toList)
    (hrange : ∀ pair ∈ pairs, pair.2 < 2 ^ 128) (hkeys : (pairs.map Prod.fst).Nodup) :
    read? text = some (pairs.map fun pair => (pair.1, .integer pair.2)) := by
  have hlines := lines?_flat h hrange le_rfl
  have htable := build_assignments (@assignAll_pairs [] pairs hkeys)
  unfold read?
  split
  · rename_i rest hmark
    exact absurd (h.no_mark '\ufeff' (by rw [hmark]; rfl)) (by decide)
  · simp only [hlines]
    exact htable

end Document

end Assembler.Toml
