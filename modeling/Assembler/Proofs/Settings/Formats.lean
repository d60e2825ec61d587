import Assembler.Proofs.Json.Flat
import Assembler.Proofs.Toml.Flat

/-! What settings ask of the libraries for TOML and JSON: flat texts are read as what they say, and
written they are flat texts. Nothing is asked about any other text. The readers for the two formats
make such a library. -/

namespace Assembler

/-- Numbers of 64 bits, each under a key of its own that needs no quotes. -/
structure Flat (pairs : List (String × Nat)) : Prop where
  bare : ∀ pair ∈ pairs, Toml.BareKey pair.1
  distinct : (pairs.map Prod.fst).Nodup
  bounded : ∀ pair ∈ pairs, pair.2 < 2 ^ 64

/-- A document with these numbers under their keys and nothing else, in whatever order. -/
def Document.Holds (document : Document) (pairs : List (String × Nat)) : Prop :=
  ∃ entries, document = .fields entries ∧
    entries.Perm (pairs.map fun pair => (pair.1, some pair.2))

/-- The libraries keep to the formats on flat texts. -/
structure TextLibrary.FollowsFormats (lib : TextLibrary) : Prop where
  readToml : ∀ (pairs : List (String × Nat)) (text : String), Flat pairs →
    Toml.FlatText pairs text.toList →
    ∃ document, lib.readToml text = some document ∧ document.Holds pairs
  readJson : ∀ (pairs : List (String × Nat)) (text : String), Flat pairs →
    Json.FlatObject pairs text.toList →
    ∃ document, lib.readJson text = some document ∧ document.Holds pairs
  writeToml : ∀ pairs : List (String × Nat), Flat pairs →
    ∃ text, lib.writeToml pairs = some text ∧ Toml.FlatText pairs text.toList

namespace Toml

/-- A flat text is read as the fields of its lines. -/
theorem document?_flat {pairs : List (String × Nat)} {text : String} (hflat : Flat pairs)
    (h : FlatText pairs text.toList) :
    document? text = some (.fields (pairs.map fun pair => (pair.1, some pair.2))) := by
  have hbound : ∀ pair ∈ pairs, pair.2 < 2 ^ 128 := fun pair hpair =>
    lt_trans (hflat.bounded pair hpair) (by decide)
  have hread := read?_flat h hbound hflat.distinct
  have hnumber : ∀ pair ∈ pairs, (Item.integer pair.2).number? = some pair.2 := by
    intro pair hpair
    rw [Item.number?, if_pos (Int.natCast_nonneg _), Int.toNat_natCast]
    exact if_pos (hflat.bounded pair hpair)
  rw [document?, hread]
  simpa using fun key n hpair => hnumber (key, n) hpair

def lineSpacing : Spacing where
  indent := ⟨[], by simp⟩
  before := ⟨[' '], by simp [isBlank]⟩
  after := ⟨[' '], by simp [isBlank]⟩
  trailing := ⟨[], by simp⟩

theorem flatText_writeLines {pairs : List (String × Nat)}
    (h : ∀ pair ∈ pairs, BareKey pair.1) : FlatText pairs (writeLines pairs).toList := by
  induction pairs with
  | nil => exact .nil
  | cons pair pairs ih =>
    obtain ⟨hkey, hrest⟩ := List.forall_mem_cons.mp h
    have hline : (writeLines (pair :: pairs)).toList =
        lineSpacing.line pair.1 pair.2 ('\n' :: (writeLines pairs).toList) := by
      simp [writeLines, lineSpacing, Spacing.line]
    rw [hline]
    exact .line hkey lineSpacing (.feed _) (ih hrest)

end Toml

theorem reference_followsFormats : TextLibrary.reference.FollowsFormats where
  readToml _ _ hflat h := ⟨_, Toml.document?_flat hflat h, _, rfl, .refl _⟩
  readJson _ _ hflat h := ⟨_, Json.document?_flat h hflat.bounded, _, rfl, .refl _⟩
  writeToml _ hflat := ⟨_, rfl, Toml.flatText_writeLines hflat.bare⟩

end Assembler
