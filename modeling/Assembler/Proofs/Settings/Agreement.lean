import Assembler.Proofs.Settings.Entries
import Assembler.Proofs.Settings.Formats

/-! Settings survive their text, and the two formats agree. With any libraries that keep to the
formats, what is written is read back as the same settings, and a TOML document and a JSON object
with the same entries are read as the same settings or refused with the same fault. -/

namespace Assembler

theorem Setting.bareKey_key (setting : Setting) : Toml.BareKey setting.key := by
  cases setting <;> decide

theorem Setting.plainKey_key (setting : Setting) : Json.PlainKey setting.key := by
  cases setting <;> decide

/-- When nothing fails, nothing is lost. -/
theorem mapM_eq_some_filterMap {α β : Type} {f : α → Option β} {xs : List α}
    (h : ∀ x ∈ xs, ∃ y, f x = some y) : xs.mapM f = some (xs.filterMap f) := by
  induction xs with
  | nil => rfl
  | cons x rest ih =>
    obtain ⟨⟨y, hy⟩, hrest⟩ := List.forall_mem_cons.mp h
    rw [List.mapM_cons, hy, ih hrest, List.filterMap_cons_some hy]
    rfl

namespace Settings

def keyed (entries : List (Setting × Nat)) : List (String × Nat) :=
  entries.map fun entry => (entry.1.key, entry.2)

theorem Choice.flat_keyed (c : Choice) : Flat (keyed c.entries) where
  bare := by
    intro pair hpair
    obtain ⟨entry, _, rfl⟩ := List.mem_map.mp hpair
    exact entry.1.bareKey_key
  distinct := by
    have hkeys := c.distinct.map Setting.key_injective
    rw [List.map_map] at hkeys
    rwa [keyed, List.map_map]
  bounded := by
    intro pair hpair
    obtain ⟨entry, hentry, rfl⟩ := List.mem_map.mp hpair
    exact c.bounded entry hentry

section Read

theorem known_keyed (entries : List (Setting × Nat)) :
    Document.known ((keyed entries).map fun pair => (pair.1, some pair.2)) =
      entries.map fun entry => (entry.1, some entry.2) := by
  simp [Document.known, keyed, List.filterMap_map, Function.comp_def, Setting.ofKey?_key]

/-- From a document that holds the entries, these are what settings are made of. -/
theorem entries?_of_holds {c : Choice} {document : Document}
    (h : document.Holds (keyed c.entries)) :
    ∃ found, document.entries? = some found ∧ found.Perm c.entries := by
  obtain ⟨fields, rfl, hperm⟩ := h
  have hknown : (Document.known fields).Perm
      (c.entries.map fun entry => (entry.1, some entry.2)) := by
    rw [← known_keyed]
    exact hperm.filterMap _
  have hdistinct : ((Document.known fields).map Prod.fst).Nodup := by
    rw [(hknown.map Prod.fst).nodup_iff, List.map_map]
    exact c.distinct
  have hnumbers : ∀ entry ∈ Document.known fields, ∃ found : Setting × Nat,
      entry.2.map (entry.1, ·) = some found := by
    intro entry hentry
    obtain ⟨given, _, rfl⟩ := List.mem_map.mp (hknown.mem_iff.mp hentry)
    exact ⟨given, rfl⟩
  have hentries : (Document.fields fields).entries? =
      some ((Document.known fields).filterMap fun entry => entry.2.map (entry.1, ·)) := by
    rw [Document.entries?, if_pos hdistinct, Document.numbers?, mapM_eq_some_filterMap hnumbers]
  refine ⟨_, hentries, ?_⟩
  have hfound := hknown.filterMap fun entry => entry.2.map (entry.1, ·)
  simpa [List.filterMap_map, Function.comp_def] using hfound

theorem ofDocument_of_holds {c : Choice} {document : Document}
    (h : document.Holds (keyed c.entries)) (format : SettingsFormat) :
    ofDocument format (some document) = (ofEntries c.entries).validate := by
  obtain ⟨found, hfound, hperm⟩ := entries?_of_holds h
  have hdistinct : (found.map Prod.fst).Nodup :=
    (hperm.map Prod.fst).nodup_iff.mpr c.distinct
  rw [ofDocument, Option.bind_some, hfound]
  exact congrArg validate (ofEntries_perm hperm hdistinct)

variable {lib : TextLibrary}

theorem ofToml_lines (hlib : lib.FollowsFormats) (c : Choice) {text : String}
    (h : Toml.FlatText (keyed c.entries) text.toList) :
    ofToml lib text = (ofEntries c.entries).validate := by
  obtain ⟨document, hread, hholds⟩ := hlib.readToml _ text c.flat_keyed h
  rw [ofToml, hread, ofDocument_of_holds hholds]

theorem ofJson_object (hlib : lib.FollowsFormats) (c : Choice) {text : String}
    (h : Json.FlatObject (keyed c.entries) text.toList) :
    ofJson lib text = (ofEntries c.entries).validate := by
  obtain ⟨document, hread, hholds⟩ := hlib.readJson _ text c.flat_keyed h
  rw [ofJson, hread, ofDocument_of_holds hholds]

end Read

section Written

def choice (s : Settings) (h : ∀ setting, s.get setting < 2 ^ 64) : Choice where
  entries := Setting.all.map fun setting => (setting, s.get setting)
  distinct := by simpa [Function.comp_def] using Setting.nodup_all
  bounded := by
    intro entry hentry
    obtain ⟨setting, _, rfl⟩ := List.mem_map.mp hentry
    exact h setting

theorem ofEntries_choice (s : Settings) (h : ∀ setting, s.get setting < 2 ^ 64) :
    ofEntries (s.choice h).entries = s := rfl

theorem ofToml_toToml {lib : TextLibrary} (hlib : lib.FollowsFormats) (s : Settings)
    (h : ∀ setting, s.get setting < 2 ^ 64) :
    ∃ text, s.toToml lib = .ok text ∧ ofToml lib text = s.validate := by
  obtain ⟨text, hwrite, hlines⟩ := hlib.writeToml _ (s.choice h).flat_keyed
  have hfields : keyed (s.choice h).entries =
      Setting.all.map fun setting => (setting.key, s.get setting) := by
    rw [keyed, choice, List.map_map]
    rfl
  refine ⟨text, ?_, ?_⟩
  · rw [toToml, ← hfields, hwrite]
  · rw [ofToml_lines hlib (s.choice h) hlines, ofEntries_choice]

end Written

/-- With libraries that keep to the formats, settings whose numbers fit 64 bits can be written, and
come back from their text as they are, or with the fault that the checks find in them. Numbers for
some of the settings can be written in both formats, and however they are ordered and laid out,
both readers give the defaults overridden by them, checked in the order limbs, element size,
bases. -/
theorem settings_texts_agree (lib : TextLibrary) (hlib : lib.FollowsFormats) :
    (∀ s : Settings, (∀ setting, s.get setting < 2 ^ 64) →
      ∃ text, s.toToml lib = .ok text ∧ ofToml lib text = s.validate) ∧
    (∀ c : Choice,
      Toml.FlatText (keyed c.entries) (Toml.writeLines (keyed c.entries)).toList ∧
      Json.FlatObject (keyed c.entries) (Json.flatText (keyed c.entries)).toList ∧
      (∀ toml json : String,
        Toml.FlatText (keyed c.entries) toml.toList →
        Json.FlatObject (keyed c.entries) json.toList →
        ofToml lib toml = (ofEntries c.entries).validate ∧ ofJson lib json = ofToml lib toml) ∧
      ∀ setting, (ofEntries c.entries).get setting =
        (c.entries.lookup setting).getD (({} : Settings).get setting)) ∧
    ∀ s : Settings,
      (s.registerLimbs = 0 ∧ s.validate = .error .noLimbs) ∨
      (0 < s.registerLimbs ∧ s.elementSize = 0 ∧ s.validate = .error .noElementSize) ∨
      (0 < s.registerLimbs ∧ 0 < s.elementSize ∧ s.memoryBase < s.registerBase ∧
        s.validate = .error (.memoryBelowRegisters s.memoryBase s.registerBase)) ∨
      (0 < s.registerLimbs ∧ 0 < s.elementSize ∧ s.registerBase ≤ s.memoryBase ∧
        s.validate = .ok s) := by
  refine ⟨ofToml_toToml hlib, ?_, validate_cases⟩
  intro c
  refine ⟨Toml.flatText_writeLines c.flat_keyed.bare, Json.flatObject_flatText ?_, ?_,
    get_ofEntries c⟩
  · intro pair hpair
    obtain ⟨entry, _, rfl⟩ := List.mem_map.mp hpair
    exact entry.1.plainKey_key
  · intro toml json htoml hjson
    have hread := ofToml_lines hlib c htoml
    exact ⟨hread, (ofJson_object hlib c hjson).trans hread.symm⟩

/-- Two settings above all signed numbers, the later one first, and settings without limbs. -/
theorem settings_texts_agree_above_signed_numbers :
    let lib := TextLibrary.reference
    let pairs := [("register_base", 2 ^ 63), ("memory_base", 2 ^ 64 - 1)]
    let s : Settings := ⟨2 ^ 64 - 1, 2 ^ 63, 4, 32⟩
    let t : Settings := ⟨0, 2 ^ 63, 0, 0⟩
    lib.FollowsFormats ∧
    ofToml lib (Toml.writeLines pairs) = .ok s ∧ ofJson lib (Json.flatText pairs) = .ok s ∧
    (∃ text, s.toToml lib = .ok text ∧ ofToml lib text = .ok s) ∧
    ∃ text, t.toToml lib = .ok text ∧ ofToml lib text = .error .noLimbs := by
  intro lib pairs s t
  have hlib : lib.FollowsFormats := reference_followsFormats
  let c : Choice := ⟨[(.registerBase, 2 ^ 63), (.memoryBase, 2 ^ 64 - 1)], by decide, by decide⟩
  obtain ⟨hwritten, hchoice, _⟩ := settings_texts_agree lib hlib
  obtain ⟨htoml, hjson, hread, _⟩ := hchoice c
  obtain ⟨hsame, hagree⟩ := hread _ _ htoml hjson
  have hvalid : (ofEntries c.entries).validate = .ok s := by decide
  have hs : ∀ setting, s.get setting < 2 ^ 64 := by
    intro setting
    cases setting <;> decide
  have ht : ∀ setting, t.get setting < 2 ^ 64 := by
    intro setting
    cases setting <;> decide
  exact ⟨hlib, hsame.trans hvalid, hagree.trans (hsame.trans hvalid), hwritten s hs, hwritten t ht⟩

end Settings

end Assembler
