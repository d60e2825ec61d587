import Assembler.Json.Document
import Assembler.Proofs.Text.Scanning
import Assembler.Settings.Library
import Mathlib.Algebra.Group.Nat.Defs

/-! Flat JSON objects: each field gives a number under a key without escapes. The reader finds
exactly the keys with their numbers, in the order of the fields, wherever blanks stand. -/

namespace Assembler.Json

def PlainKey (key : String) : Prop := ∀ c ∈ key.toList, isPlain c = true

instance (key : String) : Decidable (PlainKey key) :=
  decidable_of_iff (key.toList.all isPlain = true) (by simp [PlainKey])

structure FieldSpacing where
  beforeColon : Blanks isBlank
  afterColon : Blanks isBlank
  trailing : Blanks isBlank

def FieldSpacing.field (s : FieldSpacing) (key : String) (n : Nat) (stop : List Char) : List Char :=
  '\x22' :: (key.toList ++ '\x22' :: (s.beforeColon.1 ++
    ':' :: (s.afterColon.1 ++ (Nat.toDigits 10 n ++ (s.trailing.1 ++ stop)))))

inductive FlatFields (after : List Char) : List (String × Nat) → List Char → Prop
  | last {key : String} (hkey : PlainKey key) (n : Nat) (s : FieldSpacing) :
      FlatFields after [(key, n)] (s.field key n ('\x7d' :: after))
  | cons {key : String} (hkey : PlainKey key) (n : Nat) (s : FieldSpacing)
      (blanks : Blanks isBlank) {pairs : List (String × Nat)} {text : List Char}
      (hrest : FlatFields after pairs text) :
      FlatFields after ((key, n) :: pairs) (s.field key n (',' :: (blanks.1 ++ text)))

/-- A text that is an object and gives numbers under keys. -/
inductive FlatObject : List (String × Nat) → List Char → Prop
  | empty (before inside after : Blanks isBlank) :
      FlatObject [] (before.1 ++ '\x7b' :: (inside.1 ++ '\x7d' :: after.1))
  | fields {pairs : List (String × Nat)} {text : List Char}
      (before inside after : Blanks isBlank) (h : FlatFields after.1 pairs text) :
      FlatObject pairs (before.1 ++ '\x7b' :: (inside.1 ++ text))

section Blanks

theorem eq_of_isBlank {c : Char} (h : isBlank c = true) :
    c = ' ' ∨ c = '\t' ∨ c = '\n' ∨ c = '\r' := by
  simpa [isBlank, or_assoc] using h

theorem skipBlanks_append (blanks : Blanks isBlank) {rest : List Char} (h : Stops isBlank rest) :
    skipBlanks (blanks.1 ++ rest) = rest :=
  Run.dropWhile_append ⟨blanks.2, h⟩

theorem skipBlanks_blanks (blanks : Blanks isBlank) : skipBlanks blanks.1 = [] := by
  have h : skipBlanks (blanks.1 ++ []) = [] := skipBlanks_append blanks (by rintro _ ⟨⟩)
  rwa [List.append_nil] at h

end Blanks

section Field

theorem string?_append {content : List Char} (h : ∀ c ∈ content, isPlain c = true)
    (rest : List Char) : string? (content ++ '\x22' :: rest) = some (content, rest) := by
  induction content with
  | nil => rw [List.nil_append, string?]
  | cons c more ih =>
    obtain ⟨hc, hmore⟩ := List.forall_mem_cons.mp h
    have hquote : c ≠ '\x22' := by
      rintro rfl
      cases hc
    have hslash : c ≠ '\\' := by
      rintro rfl
      cases hc
    rw [List.cons_append, string?]
    · simp [hc, ih hmore]
    all_goals
      intros
      contradiction

theorem natural?_toDigits (n : Nat) {rest : List Char} (h : Stops Char.isDigit rest) :
    natural? (Nat.toDigits 10 n ++ rest) = some (n, rest) := by
  have hrun : Run Char.isDigit (Nat.toDigits 10 n) rest := ⟨fun _ => isDigit_of_mem_toDigits, h⟩
  rcases toDigits_cases n with ⟨hn, hzero⟩ | ⟨c, more, hmore, _, hc⟩
  · rw [hzero, hn]
    rfl
  · unfold natural?
    split
    · rename_i hother
      rw [hmore] at hother
      exact absurd (List.cons.inj hother).1 hc
    · simp [hrun.takeWhile_append, hrun.dropWhile_append, Nat.ofDigitChars_ten_toDigits]

def EndsNumber (stop : List Char) : Prop :=
  Stops isBlank stop ∧ Stops Char.isDigit stop ∧ Stops isNumberTail stop

theorem value?_append (n : Nat) (before after : Blanks isBlank) {stop : List Char}
    (hstop : EndsNumber stop) :
    value? (skipBlanks (before.1 ++ (Nat.toDigits 10 n ++ (after.1 ++ stop)))) =
      some (some n, after.1 ++ stop) := by
  have hdigit : ∀ c, isBlank c = true → c.isDigit = false := by
    intro c hc
    rcases eq_of_isBlank hc with rfl | rfl | rfl | rfl <;> rfl
  have htail : ∀ c, isBlank c = true → isNumberTail c = false := by
    intro c hc
    rcases eq_of_isBlank hc with rfl | rfl | rfl | rfl <;> rfl
  have hblank : ∀ c, c.isDigit = true → isBlank c = false := by
    intro c hc
    by_contra hother
    rw [hdigit c (Bool.of_not_eq_false hother)] at hc
    cases hc
  have hend : (after.1 ++ stop).head?.any isNumberTail = false := by
    cases hhead : (after.1 ++ stop).head? with
    | none => rfl
    | some c => exact hstop.2.2.blanks_append htail after c hhead
  rw [skipBlanks_append before (stops_toDigits hblank n _), value?,
    natural?_toDigits n (hstop.2.1.blanks_append hdigit after)]
  simp only [hend]
  rfl

/-- One field is read whole: a brace behind it ends the object, a comma leads to the next field. -/
theorem fields?_field {key : String} (hkey : PlainKey key) (n : Nat) (s : FieldSpacing)
    (fuel : Nat) {stop : List Char} (hstop : EndsNumber stop) :
    (∀ after, stop = '\x7d' :: after →
      fields? (fuel + 1) (s.field key n stop) = some ([(key, some n)], after)) ∧
    ∀ more, stop = ',' :: more →
      fields? (fuel + 1) (s.field key n stop) =
        (fields? fuel (skipBlanks more)).map fun found => ((key, some n) :: found.1, found.2) := by
  have hvalue := value?_append n s.afterColon s.trailing hstop
  have hcolon := skipBlanks_append s.beforeColon (stops_cons (c := ':') rfl
    (s.afterColon.1 ++ (Nat.toDigits 10 n ++ (s.trailing.1 ++ stop))))
  have hend := skipBlanks_append s.trailing hstop.1
  constructor
  · rintro after rfl
    simp [fields?, FieldSpacing.field, string?_append hkey, hcolon, hvalue, hend]
  · rintro more rfl
    cases hmore : fields? fuel (skipBlanks more) <;>
      simp [fields?, FieldSpacing.field, string?_append hkey, hcolon, hvalue, hend, hmore]

theorem length_lt_field (s : FieldSpacing) (key : String) (n : Nat) (stop : List Char) :
    stop.length < (s.field key n stop).length := by
  simp only [FieldSpacing.field, List.length_cons, List.length_append]
  omega

end Field

section Object

variable {pairs : List (String × Nat)} {text : List Char}

theorem endsNumber_brace (after : List Char) : EndsNumber ('\x7d' :: after) :=
  ⟨stops_cons rfl _, stops_cons rfl _, stops_cons rfl _⟩

theorem endsNumber_comma (more : List Char) : EndsNumber (',' :: more) :=
  ⟨stops_cons rfl _, stops_cons rfl _, stops_cons rfl _⟩

theorem FlatFields.stops {after : List Char} (h : FlatFields after pairs text) :
    Stops isBlank text := by
  cases h with
  | last => exact stops_cons rfl _
  | cons => exact stops_cons rfl _

theorem fields?_flat {after : List Char} (h : FlatFields after pairs text) {fuel : Nat}
    (hfuel : text.length ≤ fuel) :
    fields? fuel text = some (pairs.map fun pair => (pair.1, some pair.2), after) := by
  induction h generalizing fuel with
  | @last key hkey n s =>
    have hlong := length_lt_field s key n ('\x7d' :: after)
    obtain ⟨fuel, rfl⟩ : ∃ k, fuel = k + 1 := ⟨fuel - 1, by omega⟩
    exact (fields?_field hkey n s fuel (endsNumber_brace after)).1 after rfl
  | @cons key hkey n s blanks pairs text hrest ih =>
    have hlong := length_lt_field s key n (',' :: (blanks.1 ++ text))
    rw [List.length_cons, List.length_append] at hlong
    obtain ⟨fuel, rfl⟩ : ∃ k, fuel = k + 1 := ⟨fuel - 1, by omega⟩
    have hread := (fields?_field hkey n s fuel (endsNumber_comma _)).2 (blanks.1 ++ text) rfl
    rw [hread, skipBlanks_append blanks hrest.stops, ih (by omega)]
    rfl

theorem body?_flat (h : FlatObject pairs text) (hbound : ∀ pair ∈ pairs, pair.2 < 2 ^ 64) :
    ∃ after : Blanks isBlank, body? text =
      some (.fields (pairs.map fun pair => (pair.1, some pair.2)), after.1) := by
  cases h with
  | empty before inside after =>
    have hopen := skipBlanks_append before
      (stops_cons (c := '\x7b') rfl (inside.1 ++ '\x7d' :: after.1))
    have hclose := skipBlanks_append inside (stops_cons (c := '\x7d') rfl after.1)
    refine ⟨after, ?_⟩
    simp only [body?, hopen, hclose, List.map_nil]
  | @fields _ text before inside after hfields =>
    have hopen := skipBlanks_append before (stops_cons (c := '\x7b') rfl (inside.1 ++ text))
    have hstart := skipBlanks_append inside hfields.stops
    have hread := fields?_flat hfields le_rfl
    have hnumbers : ∀ pair ∈ pairs, number64? pair.2 = some pair.2 :=
      fun pair hpair => if_pos (hbound pair hpair)
    refine ⟨after, ?_⟩
    simp only [body?, hopen, hstart]
    split
    · cases hfields
    · simpa [hread] using fun key n hpair => hnumbers (key, n) hpair

/-- A flat object is read as the fields of its text. -/
theorem document?_flat {text : String} (h : FlatObject pairs text.toList)
    (hbound : ∀ pair ∈ pairs, pair.2 < 2 ^ 64) :
    document? text = some (.fields (pairs.map fun pair => (pair.1, some pair.2))) := by
  obtain ⟨after, hbody⟩ := body?_flat h hbound
  simp [document?, hbody, skipBlanks_blanks]

end Object

section Written

def flatText (pairs : List (String × Nat)) : String :=
  render 0 (.object (pairs.map fun pair => (pair.1, .number pair.2)))

theorem escape_of_isPlain {c : Char} (h : isPlain c = true) : escape c = [c] := by
  have hcontrol : ∀ d : Char, d.toNat < 0x20 → c ≠ d := by
    rintro d hd rfl
    simp only [isPlain, Bool.and_eq_true, decide_eq_true_eq] at h
    omega
  simp only [isPlain, Bool.and_eq_true, decide_eq_true_eq] at h
  simp [escape, h, hcontrol]

theorem toList_quoted {key : String} (hkey : PlainKey key) :
    (quoted key).toList = '\x22' :: (key.toList ++ ['\x22']) := by
  have hself : key.toList.flatMap escape = key.toList := by
    rw [List.flatMap_def, List.map_congr_left fun c hc => escape_of_isPlain (hkey c hc),
      ← List.flatMap_def]
    exact List.flatMap_singleton' _
  rw [quoted, String.toList_ofList, hself]
  rfl

def fieldText (pair : String × Nat) : String := quoted pair.1 ++ ": " ++ toString pair.2

theorem renderFields_numbers (level : Nat) (pairs : List (String × Nat)) :
    renderFields level (pairs.map fun pair => (pair.1, .number pair.2)) = pairs.map fieldText := by
  induction pairs with
  | nil =>
    rw [List.map_nil, renderFields]
    rfl
  | cons pair pairs ih =>
    rw [List.map_cons, renderFields, ih, render]
    rfl

def lineBreak (level : Nat) : Blanks isBlank where
  val := (newline level).toList
  property := by
    intro c hc
    rw [newline, String.toList_ofList] at hc
    rcases List.mem_cons.mp hc with rfl | hspace
    · rfl
    · rw [List.eq_of_mem_replicate hspace]
      rfl

def writtenSpacing (trailing : Blanks isBlank) : FieldSpacing where
  beforeColon := ⟨[], by simp⟩
  afterColon := ⟨[' '], by simp [isBlank]⟩
  trailing := trailing

theorem toList_fieldText_append {key : String} (hkey : PlainKey key) (n : Nat)
    (trailing : Blanks isBlank) (stop : List Char) :
    (fieldText (key, n)).toList ++ (trailing.1 ++ stop) =
      (writtenSpacing trailing).field key n stop := by
  simp [fieldText, writtenSpacing, FieldSpacing.field, toList_quoted hkey]

theorem flatFields_lines {pairs : List (String × Nat)} (h : pairs ≠ [])
    (hkeys : ∀ pair ∈ pairs, PlainKey pair.1) :
    FlatFields [] pairs ((String.intercalate ("," ++ newline 1) (pairs.map fieldText)).toList ++
      ((lineBreak 0).1 ++ ['\x7d'])) := by
  induction pairs with
  | nil => exact absurd rfl h
  | cons pair pairs ih =>
    obtain ⟨hkey, hkeys⟩ := List.forall_mem_cons.mp hkeys
    cases pairs with
    | nil =>
      rw [List.map_singleton, String.intercalate_singleton, toList_fieldText_append hkey]
      exact .last hkey pair.2 _
    | cons other more =>
      have hmore := FlatFields.cons hkey pair.2 (writtenSpacing ⟨[], by simp⟩) (lineBreak 1)
        (ih (List.cons_ne_nil other more) hkeys)
      rw [← toList_fieldText_append hkey] at hmore
      rw [List.map_cons, List.map_cons, String.intercalate_cons_cons, ← List.map_cons]
      simpa [lineBreak] using hmore

theorem flatObject_flatText {pairs : List (String × Nat)}
    (hkeys : ∀ pair ∈ pairs, PlainKey pair.1) : FlatObject pairs (flatText pairs).toList := by
  rw [flatText, render, renderFields_numbers, bracketed]
  cases pairs with
  | nil => exact .empty ⟨[], by simp⟩ ⟨[], by simp⟩ ⟨[], by simp⟩
  | cons pair pairs =>
    have hlines := flatFields_lines (List.cons_ne_nil pair pairs) hkeys
    have hobject := FlatObject.fields ⟨[], by simp⟩ (lineBreak 1) ⟨[], by simp⟩ hlines
    simpa [lineBreak] using hobject

end Written

end Assembler.Json
