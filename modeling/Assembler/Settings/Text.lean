import Assembler.Settings.Basic

/-! Settings as text. Libraries read and write the formats, and what they find in a text becomes
settings here: keys that are missing take their default, unknown ones are ignored, and no setting
may come twice. -/

namespace Assembler

/-- What is found in a text: values by their key, or values one after the other. Values are numbers
of 64 bits, and `none` stands for any other. -/
inductive Document where
  | fields (entries : List (String × Option Nat))
  | items (values : List (Option Nat))
  deriving DecidableEq, Repr

/-- What libraries do for the two formats. All of it may fail. -/
structure TextLibrary where
  readToml : String → Option Document
  readJson : String → Option Document
  writeToml : List (String × Nat) → Option String

namespace Document

def known (entries : List (String × Option Nat)) : List (Setting × Option Nat) :=
  entries.filterMap fun entry => (Setting.ofKey? entry.1).map (·, entry.2)

def numbers? (found : List (Setting × Option Nat)) : Option (List (Setting × Nat)) :=
  found.mapM fun entry => entry.2.map (entry.1, ·)

/-- Values without keys are those of the settings in their order. -/
def entries? : Document → Option (List (Setting × Nat))
  | .fields entries =>
    if ((known entries).map Prod.fst).Nodup then numbers? (known entries) else none
  | .items values =>
    if values.length ≤ Setting.all.length then numbers? (Setting.all.zip values) else none

end Document

namespace Settings

def ofDocument (format : SettingsFormat) (document : Option Document) :
    Except SettingsFault Settings :=
  match document.bind Document.entries? with
  | some entries => (ofEntries entries).validate
  | none => .error (.unreadable format)

def ofToml (lib : TextLibrary) (text : String) : Except SettingsFault Settings :=
  ofDocument .toml (lib.readToml text)

def ofJson (lib : TextLibrary) (text : String) : Except SettingsFault Settings :=
  ofDocument .json (lib.readJson text)

def toToml (lib : TextLibrary) (s : Settings) : Except SettingsFault String :=
  match lib.writeToml (Setting.all.map fun setting => (setting.key, s.get setting)) with
  | some text => .ok text
  | none => .error .unwritable

end Settings

end Assembler
