import Assembler.Storage.Registers

/-! Settings of the assembler: where allocation starts, where the register file lies and how wide
its registers are, and the element size of allocations that name none. -/

namespace Assembler

structure Settings where
  memoryBase : Nat := 0
  registerBase : Nat := 0
  registerLimbs : Nat := 4
  elementSize : Nat := 32
  deriving DecidableEq, Repr

inductive Setting where
  | memoryBase | registerBase | registerLimbs | elementSize
  deriving DecidableEq, Repr

namespace Setting

/-- All settings in the order in which they are written. -/
def all : List Setting := [.memoryBase, .registerBase, .registerLimbs, .elementSize]

def key : Setting → String
  | .memoryBase => "memory_base"
  | .registerBase => "register_base"
  | .registerLimbs => "register_limbs"
  | .elementSize => "element_size"

def ofKey? (key : String) : Option Setting := all.find? (·.key == key)

end Setting

inductive SettingsFormat where
  | toml | json
  deriving DecidableEq, Repr

inductive SettingsFault where
  | unreadable (format : SettingsFormat)
  | unwritable
  | noLimbs
  | noElementSize
  | memoryBelowRegisters (memoryBase registerBase : Nat)
  deriving DecidableEq, Repr

def SettingsFault.message : SettingsFault → String
  | .unreadable .toml => "failed to parse assembler config as TOML"
  | .unreadable .json => "failed to parse assembler config as JSON"
  | .unwritable => "failed to serialize assembler config"
  | .noLimbs => "register_limbs must be positive"
  | .noElementSize => "element_size must be positive"
  | .memoryBelowRegisters memoryBase registerBase =>
    "memory_base 0x" ++ Hex.ofNat 1 memoryBase ++ " lies below register_base 0x" ++
      Hex.ofNat 1 registerBase

namespace Settings

def get (s : Settings) : Setting → Nat
  | .memoryBase => s.memoryBase
  | .registerBase => s.registerBase
  | .registerLimbs => s.registerLimbs
  | .elementSize => s.elementSize

def set (s : Settings) (setting : Setting) (value : Nat) : Settings :=
  match setting with
  | .memoryBase => { s with memoryBase := value }
  | .registerBase => { s with registerBase := value }
  | .registerLimbs => { s with registerLimbs := value }
  | .elementSize => { s with elementSize := value }

def ofEntries (entries : List (Setting × Nat)) : Settings :=
  entries.foldl (fun s entry => s.set entry.1 entry.2) {}

def validate (s : Settings) : Except SettingsFault Settings :=
  if s.registerLimbs = 0 then .error .noLimbs
  else if s.elementSize = 0 then .error .noElementSize
  else if s.memoryBase < s.registerBase then
    .error (.memoryBelowRegisters s.memoryBase s.registerBase)
  else .ok s

def registers (s : Settings) : Registers := ⟨s.registerBase, s.registerLimbs⟩

end Settings

end Assembler
