import Aleth.Devcore.Bytes

/-! The instructions of the virtual machine (`Instruction.h`, `Instruction.cpp`) and what they cost
(`EVMSchedule.h`).

`pushc`, `jumpc` and `jumpci` are written by the interpreter itself when it prepares code. -/
namespace Aleth.Evm
open Devcore

inductive Instruction where
  | stop | add | mul | sub | div | sdiv | mod | smod | addmod | mulmod | exp | signextend
  | lt | gt | slt | sgt | eq | iszero | and | or | xor | not | byte | shl | shr | sar
  | sha3
  | address | balance | origin | caller | callvalue | calldataload | calldatasize | calldatacopy
  | codesize | codecopy | gasprice | extcodesize | extcodecopy | returndatasize | returndatacopy
  | extcodehash
  | blockhash | coinbase | timestamp | number | difficulty | gaslimit
  | pop | mload | mstore | mstore8 | sload | sstore | jump | jumpi | pc | msize | gas | jumpdest
  | push (n : ℕ) | dup (n : ℕ) | swap (n : ℕ) | log (n : ℕ)
  | pushc | jumpc | jumpci
  | jumpto | jumpif | jumpsub | jumpv | jumpsubv | beginsub | begindata | returnsub | putlocal
  | getlocal
  | xadd | xmul | xsub | xdiv | xsdiv | xmod | xsmod | xlt | xgt | xslt | xsgt | xeq | xiszero
  | xand | xoor | xxor | xnot | xshl | xshr | xsar | xrol | xror | xpush | xmload | xmstore
  | xsload | xsstore | xvtowide | xwidetov | xget | xput | xswizzle | xshuffle
  | create | call | callcode | return_ | delegatecall | create2 | staticcall | revert | invalid
  | suicide
  /-- A byte the enumeration has no name for. -/
  | undefined (b : UInt8)
deriving DecidableEq

namespace Instruction

/-- The enumeration as it is declared: names from a first byte on. -/
def runs : List (ℕ × List Instruction) :=
  [(0x00, [stop, add, mul, sub, div, sdiv, mod, smod, addmod, mulmod, exp, signextend]),
    (0x10, [lt, gt, slt, sgt, eq, iszero, and, or, xor, not, byte, shl, shr, sar]),
    (0x20, [sha3]),
    (0x30, [address, balance, origin, caller, callvalue, calldataload, calldatasize, calldatacopy,
      codesize, codecopy, gasprice, extcodesize, extcodecopy, returndatasize, returndatacopy,
      extcodehash]),
    (0x40, [blockhash, coinbase, timestamp, number, difficulty, gaslimit]),
    (0x50, [pop, mload, mstore, mstore8, sload, sstore, jump, jumpi, pc, msize, gas, jumpdest]),
    (0x60, (List.range 32).map fun n => push (n + 1)),
    (0x80, (List.range 16).map fun n => dup (n + 1)),
    (0x90, (List.range 16).map fun n => swap (n + 1)),
    (0xa0, (List.range 5).map log),
    (0xac, [pushc, jumpc, jumpci]),
    (0xb0, [jumpto, jumpif, jumpsub, jumpv, jumpsubv, beginsub, begindata, returnsub, putlocal,
      getlocal]),
    (0xc1, [xadd, xmul, xsub, xdiv, xsdiv, xmod, xsmod]),
    (0xd0, [xlt, xgt, xslt, xsgt, xeq, xiszero, xand, xoor, xxor, xnot]),
    (0xdb, [xshl, xshr, xsar, xrol, xror]),
    (0xe0, [xpush, xmload, xmstore]),
    (0xe4, [xsload, xsstore, xvtowide, xwidetov, xget, xput, xswizzle, xshuffle]),
    (0xf0, [create, call, callcode, return_, delegatecall, create2]),
    (0xfa, [staticcall]),
    (0xfd, [revert, invalid, suicide])]

/-- `Instruction(b)`, the cast from a byte. -/
def ofByte (b : UInt8) : Instruction :=
  (runs.findSome? fun r => if r.1 ≤ b.toNat then r.2[b.toNat - r.1]? else none).getD (undefined b)

def pushcByte : UInt8 := 0xac
def jumpcByte : UInt8 := 0xad
def jumpciByte : UInt8 := 0xae
def invalidByte : UInt8 := 0xfe

@[simp] theorem ofByte_pushcByte : ofByte pushcByte = pushc := by decide

@[simp] theorem ofByte_jumpcByte : ofByte jumpcByte = jumpc := by decide

@[simp] theorem ofByte_jumpciByte : ofByte jumpciByte = jumpci := by decide

@[simp] theorem ofByte_invalidByte : ofByte invalidByte = invalid := by decide

@[simp] theorem ofByte_zero : ofByte 0 = stop := by decide

/-- How many bytes of the code belong to the instruction, after its own: the constant of a push. -/
def pushSize : Instruction → ℕ
  | push n => n
  | _ => 0

theorem pushSize_ofByte_le (b : UInt8) : (ofByte b).pushSize ≤ 32 := by
  have hall : ∀ i < 256, (ofByte (UInt8.ofNat i)).pushSize ≤ 32 := by decide +kernel
  have h := hall b.toNat b.toNat_lt
  rwa [UInt8.ofNat_toNat] at h

/-- Not a copy of no slot, nor a log of more than four topics. -/
def known : Instruction → Bool
  | dup n => n ≠ 0
  | log n => n ≤ 4
  | _ => true

theorem known_ofByte (b : UInt8) : (ofByte b).known = true := by
  have hall : ∀ i < 256, (ofByte (UInt8.ofNat i)).known = true := by decide +kernel
  have h := hall b.toNat b.toNat_lt
  rwa [UInt8.ofNat_toNat] at h

theorem le_of_ofByte_eq_push {b : UInt8} {n : ℕ} (h : ofByte b = push n) : n ≤ 32 := by
  have hle := pushSize_ofByte_le b
  rwa [h] at hle

end Instruction

/-! ### Metrics -/

inductive Tier where
  | zero | base | veryLow | low | mid | high | ext | special
  /-- The tier of bytes that are no instruction. -/
  | invalid
deriving DecidableEq

structure InstructionMetric where
  args : ℕ
  ret : ℕ
  gasPriceTier : Tier
deriving DecidableEq

/-- `instructionInfo`, without the names. -/
def instructionInfo : Instruction → InstructionMetric
  | .stop => ⟨0, 0, .zero⟩
  | .add | .sub | .lt | .gt | .slt | .sgt | .eq | .and | .or | .xor | .byte | .shl | .shr | .sar =>
    ⟨2, 1, .veryLow⟩
  | .mul | .div | .sdiv | .mod | .smod | .signextend => ⟨2, 1, .low⟩
  | .exp | .sha3 => ⟨2, 1, .special⟩
  | .not | .iszero | .calldataload | .mload => ⟨1, 1, .veryLow⟩
  | .addmod | .mulmod => ⟨3, 1, .mid⟩
  | .address | .origin | .caller | .callvalue | .calldatasize | .codesize | .gasprice
  | .returndatasize | .coinbase | .timestamp | .number | .difficulty | .gaslimit | .pc | .msize
  | .gas => ⟨0, 1, .base⟩
  | .balance | .extcodesize | .extcodehash | .blockhash | .sload => ⟨1, 1, .special⟩
  | .calldatacopy | .codecopy | .returndatacopy => ⟨3, 0, .veryLow⟩
  | .extcodecopy => ⟨4, 0, .special⟩
  | .pop => ⟨1, 0, .base⟩
  | .mstore | .mstore8 => ⟨2, 0, .veryLow⟩
  | .sstore => ⟨2, 0, .special⟩
  | .jump | .jumpc => ⟨1, 0, .mid⟩
  | .jumpi | .jumpci => ⟨2, 0, .high⟩
  | .jumpdest => ⟨0, 0, .special⟩
  | .push _ | .pushc => ⟨0, 1, .veryLow⟩
  | .dup n => ⟨n, n + 1, .veryLow⟩
  | .swap n => ⟨n + 1, n + 1, .veryLow⟩
  | .log n => ⟨n + 2, 0, .special⟩
  | .jumpto => ⟨1, 0, .veryLow⟩
  | .jumpif => ⟨2, 0, .low⟩
  | .jumpv | .jumpsubv | .returnsub => ⟨1, 0, .mid⟩
  | .jumpsub => ⟨1, 0, .low⟩
  | .beginsub | .begindata => ⟨0, 0, .special⟩
  | .putlocal => ⟨1, 0, .veryLow⟩
  | .getlocal => ⟨0, 1, .veryLow⟩
  | .xadd => ⟨0, 0, .special⟩
  | .xmul | .xsub | .xdiv | .xsdiv | .xmod | .xsmod | .xlt | .xgt | .xslt | .xsgt | .xeq
  | .xiszero | .xoor | .xxor | .xnot | .xshl | .xshr | .xsar | .xrol | .xror | .xget
  | .xswizzle => ⟨2, 1, .special⟩
  | .xand | .xsload => ⟨1, 1, .special⟩
  | .xpush | .xmload | .xvtowide | .xwidetov => ⟨1, 1, .veryLow⟩
  | .xmstore => ⟨2, 0, .veryLow⟩
  | .xsstore => ⟨2, 0, .special⟩
  | .xput | .xshuffle => ⟨3, 1, .special⟩
  | .create => ⟨3, 1, .special⟩
  | .create2 => ⟨4, 1, .special⟩
  | .call | .callcode => ⟨7, 1, .special⟩
  | .staticcall | .delegatecall => ⟨6, 1, .special⟩
  | .return_ => ⟨2, 0, .zero⟩
  | .revert => ⟨2, 0, .special⟩
  | .invalid => ⟨0, 0, .zero⟩
  | .suicide => ⟨1, 0, .special⟩
  | .undefined _ => ⟨0, 0, .invalid⟩

/-! ### Gas prices -/

/-- The prices and rules of a fork, with the defaults of `EVMSchedule()`. Block rewards are not
here. -/
structure EVMSchedule where
  exceptionalFailedCodeDeposit : Bool := true
  haveDelegateCall : Bool := true
  eip150Mode : Bool := false
  eip158Mode : Bool := false
  eip1283Mode : Bool := false
  haveBitwiseShifting : Bool := false
  haveRevert : Bool := false
  haveReturnData : Bool := false
  haveStaticCall : Bool := false
  haveCreate2 : Bool := false
  haveExtcodehash : Bool := false
  tierStepGas : Tier → ℕ := fun
    | .zero => 0
    | .base => 2
    | .veryLow => 3
    | .low => 5
    | .mid => 8
    | .high => 10
    | .ext => 20
    | .special => 0
    -- past the end of the array; the instruction goes on to throw
    | .invalid => 0
  expGas : ℕ := 10
  expByteGas : ℕ := 10
  sha3Gas : ℕ := 30
  sha3WordGas : ℕ := 6
  sloadGas : ℕ := 50
  sstoreSetGas : ℕ := 20000
  sstoreResetGas : ℕ := 5000
  sstoreUnchangedGas : ℕ := 200
  sstoreRefundGas : ℕ := 15000
  sstoreRefundNonzeroGas : ℕ := 4800
  logGas : ℕ := 375
  logDataGas : ℕ := 8
  logTopicGas : ℕ := 375
  createGas : ℕ := 32000
  callGas : ℕ := 40
  callStipend : ℕ := 2300
  callValueTransferGas : ℕ := 9000
  callNewAccountGas : ℕ := 25000
  suicideRefundGas : ℕ := 24000
  memoryGas : ℕ := 3
  quadCoeffDiv : ℕ := 512
  createDataGas : ℕ := 200
  txGas : ℕ := 21000
  txCreateGas : ℕ := 53000
  txDataZeroGas : ℕ := 4
  txDataNonZeroGas : ℕ := 68
  copyGas : ℕ := 3
  extcodesizeGas : ℕ := 20
  extcodecopyGas : ℕ := 20
  extcodehashGas : ℕ := 400
  balanceGas : ℕ := 20
  suicideGas : ℕ := 0
  blockhashGas : ℕ := 20
  maxCodeSize : ℕ := 2 ^ 32 - 1

namespace EVMSchedule

def staticCallDepthLimit (s : EVMSchedule) : Bool := !s.eip150Mode

def suicideChargesNewAccountGas (s : EVMSchedule) : Bool := s.eip150Mode

def emptinessIsNonexistence (s : EVMSchedule) : Bool := s.eip158Mode

def zeroValueTransferChargesNewAccountGas (s : EVMSchedule) : Bool := !s.eip158Mode

end EVMSchedule

def DefaultSchedule : EVMSchedule := {}

def FrontierSchedule : EVMSchedule :=
  {exceptionalFailedCodeDeposit := false, haveDelegateCall := false, txCreateGas := 21000}

def HomesteadSchedule : EVMSchedule := {haveDelegateCall := true}

def EIP150Schedule : EVMSchedule :=
  {HomesteadSchedule with
    eip150Mode := true
    extcodesizeGas := 700
    extcodecopyGas := 700
    balanceGas := 400
    sloadGas := 200
    callGas := 700
    suicideGas := 5000}

def EIP158Schedule : EVMSchedule :=
  {EIP150Schedule with expByteGas := 50, eip158Mode := true, maxCodeSize := 0x6000}

def ByzantiumSchedule : EVMSchedule :=
  {EIP158Schedule with haveRevert := true, haveReturnData := true, haveStaticCall := true}

def EWASMSchedule : EVMSchedule := {ByzantiumSchedule with maxCodeSize := 2 ^ 32 - 1}

def ConstantinopleSchedule : EVMSchedule :=
  {ByzantiumSchedule with
    haveCreate2 := true
    haveBitwiseShifting := true
    haveExtcodehash := true
    eip1283Mode := true}

def ConstantinopleFixSchedule : EVMSchedule := {ConstantinopleSchedule with eip1283Mode := false}

def ExperimentalSchedule : EVMSchedule := {ConstantinopleSchedule with blockhashGas := 800}

/-- The schedules there are. -/
def schedules : List EVMSchedule :=
  [DefaultSchedule, FrontierSchedule, HomesteadSchedule, EIP150Schedule, EIP158Schedule,
    ByzantiumSchedule, EWASMSchedule, ConstantinopleSchedule, ConstantinopleFixSchedule,
    ExperimentalSchedule]

namespace EVMSchedule

def prices (s : EVMSchedule) : List ℕ :=
  [s.expGas, s.expByteGas, s.sha3Gas, s.sloadGas, s.sstoreSetGas, s.sstoreResetGas,
    s.sstoreUnchangedGas, s.logGas, s.logDataGas, s.logTopicGas, s.createGas, s.callGas,
    s.callStipend, s.callValueTransferGas, s.callNewAccountGas, s.extcodesizeGas,
    s.extcodecopyGas, s.extcodehashGas, s.balanceGas, s.suicideGas, s.blockhashGas]

/-- Prices are far below the bounds of machine words, and a stipend is paid for. -/
structure Moderate (s : EVMSchedule) : Prop where
  tier : ∀ t, s.tierStepGas t ≤ 20
  price : ∀ p ∈ s.prices, p ≤ 2 ^ 20
  copy : s.copyGas ≤ 16
  word : s.sha3WordGas ≤ 16
  stipend : s.callStipend ≤ s.callValueTransferGas

theorem moderate_of_mem {s : EVMSchedule} (h : s ∈ schedules) : s.Moderate := by
  have htier : ∀ s ∈ schedules, s.tierStepGas = DefaultSchedule.tierStepGas := by
    simp [schedules, FrontierSchedule, DefaultSchedule, HomesteadSchedule, EIP150Schedule,
      EIP158Schedule, ByzantiumSchedule, EWASMSchedule, ConstantinopleSchedule,
      ConstantinopleFixSchedule, ExperimentalSchedule]
  have hprice : ∀ s ∈ schedules, (∀ p ∈ s.prices, p ≤ 2 ^ 20) ∧ s.copyGas ≤ 16 ∧
      s.sha3WordGas ≤ 16 ∧ s.callStipend ≤ s.callValueTransferGas := by
    decide
  obtain ⟨hsmall, hcopy, hword, hstipend⟩ := hprice s h
  refine ⟨fun t => ?_, hsmall, hcopy, hword, hstipend⟩
  rw [htier s h]
  cases t
  all_goals decide

end EVMSchedule
end Aleth.Evm
