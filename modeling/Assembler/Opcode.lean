/-! The instruction set: every opcode with its mnemonic, byte code, immediate width, stack use and
base cost. -/

namespace Assembler

inductive Opcode where
  | stop | add | mul | sub | div | sdiv | mod | smod | addMod | mulMod | exp | signExtend
  | lt | gt | slt | sgt | eq | isZero | and | or | xor | not | byte | shl | shr | sar
  | sha3 | setModX | addModX | subModX | mulMontX | toMontX
  | address | balance | origin | caller | callValue | callDataLoad | callDataSize | callDataCopy
  | codeSize | codeCopy | gasPrice | extCodeSize | extCodeCopy | returnDataSize | returnDataCopy
  | blockHash | coinbase | timestamp | number | difficulty | gasLimit
  | pop | mload | mstore | mstore8 | sload | sstore | jump | jumpIf | pc | msize | gas | jumpDest
  | push (n : Fin 33)
  /-- Copies the stack entry at depth `n + 1`. -/
  | dup (n : Fin 16)
  /-- Exchanges the top with the entry `n + 1` below it. -/
  | swap (n : Fin 16)
  | log (n : Fin 5)
  | create | call | callCode | returnData | delegateCall | staticCall | revert | invalid
  | selfDestruct
  deriving DecidableEq, Repr

structure Descriptor where
  name : String
  code : UInt8
  width : Nat
  pops : Nat
  pushes : Nat
  cost : Nat
  deriving DecidableEq, Repr

namespace Opcode

def descriptor : Opcode → Descriptor
  | .stop => ⟨"STOP", 0x00, 0, 0, 0, 0⟩
  | .add => ⟨"ADD", 0x01, 0, 2, 1, 3⟩
  | .mul => ⟨"MUL", 0x02, 0, 2, 1, 5⟩
  | .sub => ⟨"SUB", 0x03, 0, 2, 1, 3⟩
  | .div => ⟨"DIV", 0x04, 0, 2, 1, 5⟩
  | .sdiv => ⟨"SDIV", 0x05, 0, 2, 1, 5⟩
  | .mod => ⟨"MOD", 0x06, 0, 2, 1, 5⟩
  | .smod => ⟨"SMOD", 0x07, 0, 2, 1, 5⟩
  | .addMod => ⟨"ADDMOD", 0x08, 0, 3, 1, 8⟩
  | .mulMod => ⟨"MULMOD", 0x09, 0, 3, 1, 8⟩
  | .exp => ⟨"EXP", 0x0A, 0, 2, 1, 10⟩
  | .signExtend => ⟨"SIGNEXTEND", 0x0B, 0, 2, 1, 5⟩
  | .lt => ⟨"LT", 0x10, 0, 2, 1, 3⟩
  | .gt => ⟨"GT", 0x11, 0, 2, 1, 3⟩
  | .slt => ⟨"SLT", 0x12, 0, 2, 1, 3⟩
  | .sgt => ⟨"SGT", 0x13, 0, 2, 1, 3⟩
  | .eq => ⟨"EQ", 0x14, 0, 2, 1, 3⟩
  | .isZero => ⟨"ISZERO", 0x15, 0, 1, 1, 3⟩
  | .and => ⟨"AND", 0x16, 0, 2, 1, 3⟩
  | .or => ⟨"OR", 0x17, 0, 2, 1, 3⟩
  | .xor => ⟨"XOR", 0x18, 0, 2, 1, 3⟩
  | .not => ⟨"NOT", 0x19, 0, 1, 1, 3⟩
  | .byte => ⟨"BYTE", 0x1A, 0, 2, 1, 3⟩
  | .shl => ⟨"SHL", 0x1B, 0, 2, 1, 3⟩
  | .shr => ⟨"SHR", 0x1C, 0, 2, 1, 3⟩
  | .sar => ⟨"SAR", 0x1D, 0, 2, 1, 3⟩
  | .sha3 => ⟨"SHA3", 0x20, 0, 2, 1, 30⟩
  | .setModX => ⟨"SETMODX", 0x21, 0, 2, 0, 1⟩
  | .addModX => ⟨"ADDMODX", 0x22, 3, 0, 0, 1⟩
  | .subModX => ⟨"SUBMODX", 0x23, 3, 0, 0, 1⟩
  | .mulMontX => ⟨"MULMONTX", 0x24, 3, 0, 0, 1⟩
  | .toMontX => ⟨"TOMONTX", 0x25, 0, 0, 0, 1⟩
  | .address => ⟨"ADDRESS", 0x30, 0, 0, 1, 2⟩
  | .balance => ⟨"BALANCE", 0x31, 0, 1, 1, 100⟩
  | .origin => ⟨"ORIGIN", 0x32, 0, 0, 1, 2⟩
  | .caller => ⟨"CALLER", 0x33, 0, 0, 1, 2⟩
  | .callValue => ⟨"CALLVALUE", 0x34, 0, 0, 1, 2⟩
  | .callDataLoad => ⟨"CALLDATALOAD", 0x35, 0, 1, 1, 3⟩
  | .callDataSize => ⟨"CALLDATASIZE", 0x36, 0, 0, 1, 2⟩
  | .callDataCopy => ⟨"CALLDATACOPY", 0x37, 0, 3, 0, 3⟩
  | .codeSize => ⟨"CODESIZE", 0x38, 0, 0, 1, 2⟩
  | .codeCopy => ⟨"CODECOPY", 0x39, 0, 3, 0, 3⟩
  | .gasPrice => ⟨"GASPRICE", 0x3A, 0, 0, 1, 2⟩
  | .extCodeSize => ⟨"EXTCODESIZE", 0x3B, 0, 1, 1, 100⟩
  | .extCodeCopy => ⟨"EXTCODECOPY", 0x3C, 0, 4, 0, 100⟩
  | .returnDataSize => ⟨"RETURNDATASIZE", 0x3D, 0, 0, 1, 2⟩
  | .returnDataCopy => ⟨"RETURNDATACOPY", 0x3E, 0, 3, 0, 3⟩
  | .blockHash => ⟨"BLOCKHASH", 0x40, 0, 1, 1, 20⟩
  | .coinbase => ⟨"COINBASE", 0x41, 0, 0, 1, 2⟩
  | .timestamp => ⟨"TIMESTAMP", 0x42, 0, 0, 1, 2⟩
  | .number => ⟨"NUMBER", 0x43, 0, 0, 1, 2⟩
  | .difficulty => ⟨"DIFFICULTY", 0x44, 0, 0, 1, 2⟩
  | .gasLimit => ⟨"GASLIMIT", 0x45, 0, 0, 1, 2⟩
  | .pop => ⟨"POP", 0x50, 0, 1, 0, 2⟩
  | .mload => ⟨"MLOAD", 0x51, 0, 1, 1, 3⟩
  | .mstore => ⟨"MSTORE", 0x52, 0, 2, 0, 3⟩
  | .mstore8 => ⟨"MSTORE8", 0x53, 0, 2, 0, 3⟩
  | .sload => ⟨"SLOAD", 0x54, 0, 1, 1, 100⟩
  | .sstore => ⟨"SSTORE", 0x55, 0, 2, 0, 100⟩
  | .jump => ⟨"JUMP", 0x56, 0, 1, 0, 8⟩
  | .jumpIf => ⟨"JUMPI", 0x57, 0, 2, 0, 10⟩
  | .pc => ⟨"PC", 0x58, 0, 0, 1, 2⟩
  | .msize => ⟨"MSIZE", 0x59, 0, 0, 1, 2⟩
  | .gas => ⟨"GAS", 0x5A, 0, 0, 1, 2⟩
  | .jumpDest => ⟨"JUMPDEST", 0x5B, 0, 0, 0, 1⟩
  | .push n =>
    ⟨"PUSH" ++ toString n.val, 0x5F + UInt8.ofNat n, n, 0, 1, if n.val = 0 then 2 else 3⟩
  | .dup n => ⟨"DUP" ++ toString (n.val + 1), 0x80 + UInt8.ofNat n, 0, n + 1, n + 2, 3⟩
  | .swap n => ⟨"SWAP" ++ toString (n.val + 1), 0x90 + UInt8.ofNat n, 0, n + 2, n + 2, 3⟩
  | .log n => ⟨"LOG" ++ toString n.val, 0xA0 + UInt8.ofNat n, 0, n + 2, 0, 375 * (n + 1)⟩
  | .create => ⟨"CREATE", 0xF0, 0, 3, 1, 32000⟩
  | .call => ⟨"CALL", 0xF1, 0, 7, 1, 100⟩
  | .callCode => ⟨"CALLCODE", 0xF2, 0, 7, 1, 100⟩
  | .returnData => ⟨"RETURN", 0xF3, 0, 2, 0, 0⟩
  | .delegateCall => ⟨"DELEGATECALL", 0xF4, 0, 6, 1, 100⟩
  | .staticCall => ⟨"STATICCALL", 0xFA, 0, 6, 1, 100⟩
  | .revert => ⟨"REVERT", 0xFD, 0, 2, 0, 0⟩
  | .invalid => ⟨"INVALID", 0xFE, 0, 0, 0, 0⟩
  | .selfDestruct => ⟨"SELFDESTRUCT", 0xFF, 0, 1, 0, 5000⟩

def name (op : Opcode) : String := op.descriptor.name
def code (op : Opcode) : UInt8 := op.descriptor.code
def width (op : Opcode) : Nat := op.descriptor.width
def pops (op : Opcode) : Nat := op.descriptor.pops
def pushes (op : Opcode) : Nat := op.descriptor.pushes
def cost (op : Opcode) : Nat := op.descriptor.cost

def size (op : Opcode) : Nat := 1 + op.width

def stackChange (op : Opcode) : Int := (op.pushes : Int) - op.pops

/-- The mnemonic without its digits, so that all sizes of one instruction share a family. -/
def family (op : Opcode) : String :=
  String.ofList (op.name.toList.filter fun c => !c.isDigit)

def belowPush : List Opcode :=
  [.stop, .add, .mul, .sub, .div, .sdiv, .mod, .smod, .addMod, .mulMod, .exp, .signExtend, .lt,
    .gt, .slt, .sgt, .eq, .isZero, .and, .or, .xor, .not, .byte, .shl, .shr, .sar, .sha3,
    .setModX, .addModX, .subModX, .mulMontX, .toMontX, .address, .balance, .origin, .caller,
    .callValue, .callDataLoad, .callDataSize, .callDataCopy, .codeSize, .codeCopy, .gasPrice,
    .extCodeSize, .extCodeCopy, .returnDataSize, .returnDataCopy, .blockHash, .coinbase,
    .timestamp, .number, .difficulty, .gasLimit, .pop, .mload, .mstore, .mstore8, .sload,
    .sstore, .jump, .jumpIf, .pc, .msize, .gas, .jumpDest]

def aboveLog : List Opcode :=
  [.create, .call, .callCode, .returnData, .delegateCall, .staticCall, .revert, .invalid,
    .selfDestruct]

/-- Every opcode, by increasing byte code. -/
def all : List Opcode :=
  belowPush ++ (List.finRange 33).map push ++ (List.finRange 16).map dup ++
    (List.finRange 16).map swap ++ (List.finRange 5).map log ++ aboveLog

def codeTable : List (UInt8 × Opcode) := all.map fun op => (op.code, op)

def nameTable : List (String × Opcode) := all.map fun op => (op.name, op)

def ofCode? (code : UInt8) : Option Opcode := codeTable.lookup code

/-- Mnemonics are matched exactly, in upper case. -/
def ofName? (name : String) : Option Opcode := nameTable.lookup name

theorem mem_all (op : Opcode) : op ∈ all := by
  cases op with
  | push n => simp [all]
  | dup n => simp [all]
  | swap n => simp [all]
  | log n => simp [all]
  | _ => decide +kernel

/-- No two opcodes share a byte code. -/
theorem ofCode?_code (op : Opcode) : ofCode? op.code = some op := by
  have table : ∀ op ∈ all, ofCode? op.code = some op := by decide +kernel
  exact table op op.mem_all

/-- No two opcodes share a mnemonic. -/
theorem ofName?_name (op : Opcode) : ofName? op.name = some op := by
  have table : ∀ op ∈ all, ofName? op.name = some op := by decide +kernel
  exact table op op.mem_all

end Opcode

end Assembler
