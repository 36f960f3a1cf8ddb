import Aleth.Evm.ExtVMFace
import Aleth.Evm.Arithmetic

/-! The state of the interpreter, and what its cases are made of (`LegacyVM.h`, `LegacyVM.cpp`).

The stack is an array of 1024 slots that grows downwards: `m_SP` is where an
instruction finds its operands, `m_SPP` where it leaves its result. An access
outside the stack, the memory or the code has no meaning in the source; here it
is an exception of its own, `fault`. -/
namespace Aleth.Evm
open Devcore Machine

/-- How many slots the stack has. -/
def stackLimit : ℕ := 1024

structure VMState where
  m_io_gas : U64
  m_PC : ℕ := 0
  m_OP : Instruction := .stop
  m_stack : ℤ → U256 := fun _ => 0
  m_SP : ℤ := stackLimit
  m_SPP : ℤ := stackLimit
  m_mem : Bytes := []
  m_returnData : Buffer := .empty
  m_output : Bytes := []
  m_runGas : U64 := 0
  m_newMemSize : U64 := 0
  m_copyMemSize : U64 := 0

abbrev VM := Machine Query Query.Reply VMState VMException

/-- The code as it is run, and what was found in it. -/
structure Code where
  m_code : Bytes
  m_jumpDests : List ℕ := []
  m_pool : List U256 := []

def int63max : ℕ := 0x7FFFFFFFFFFFFFFF

def toInt63 (v : ℕ) : VM U64 :=
  if int63max < v then throw .outOfGas else pure (BitVec.ofNat 64 v)

def memNeed (offset size : U256) : VM U64 :=
  toInt63 (if size = 0 then 0 else offset.toNat + size.toNat)

/-! ### The stack -/

/-- A place of the stack. -/
def InStack (p : ℤ) : Prop := 0 ≤ p ∧ p < stackLimit

instance (p : ℤ) : Decidable (InStack p) := inferInstanceAs (Decidable (_ ∧ _))

def throwBadStack (spp : ℤ) (removed : ℕ) : VM Unit :=
  if stackLimit - spp < removed then throw .stackUnderflow else throw .outOfStack

def adjustStack (removed added : ℕ) : VM Unit := do
  modify fun m => {m with m_SP := m.m_SPP, m_SPP := m.m_SPP + removed}
  let m ← get
  if (stackLimit : ℤ) < m.m_SPP then throwBadStack m.m_SPP removed
  modify fun m => {m with m_SPP := m.m_SPP - added}
  let m ← get
  if m.m_SPP < 0 then throwBadStack m.m_SPP removed

/-- `m_SP[i]`. -/
def sp (i : ℕ) : VM U256 := do
  let m ← get
  if InStack (m.m_SP + i) then pure (m.m_stack (m.m_SP + i)) else throw .fault

/-- `m_SP[i] = v`. -/
def setSP (i : ℕ) (v : U256) : VM Unit := do
  let m ← get
  if InStack (m.m_SP + i) then
    modify fun m => {m with m_stack := Function.update m.m_stack (m.m_SP + i) v}
  else throw .fault

/-- `m_SPP[0] = v`. -/
def setSPP (v : U256) : VM Unit := do
  let m ← get
  if InStack m.m_SPP then
    modify fun m => {m with m_stack := Function.update m.m_stack m.m_SPP v}
  else throw .fault

/-! ### Metering -/

section Metering
variable (schedule : EVMSchedule)

def gasForMem (size : ℕ) : VM U64 :=
  let s := size / 32
  toInt63 (schedule.memoryGas * s + s * s / schedule.quadCoeffDiv)

def updateIOGas : VM Unit := do
  let m ← get
  if m.m_io_gas < m.m_runGas then throw .outOfGas
  modify fun m => {m with m_io_gas := m.m_io_gas - m.m_runGas}

def updateGas : VM Unit := do
  let m ← get
  if m.m_mem.length < m.m_newMemSize.toNat then
    let grown ← gasForMem schedule m.m_newMemSize.toNat
    let held ← gasForMem schedule m.m_mem.length
    let more ← toInt63 (grown - held).toNat
    modify fun m => {m with m_runGas := m.m_runGas + more}
  modify fun m => {m with
    m_runGas := m.m_runGas + BitVec.ofNat 64 schedule.copyGas * ((m.m_copyMemSize + 31) / 32)}
  let m ← get
  if m.m_io_gas < m.m_runGas then throw .outOfGas

def updateMem (newMem : U64) : VM Unit := do
  modify fun m => {m with m_newMemSize := (newMem + 31) / 32 * 32}
  updateGas schedule
  modify fun m => {m with
    m_mem := m.m_mem ++ List.replicate (m.m_newMemSize.toNat - m.m_mem.length) 0}

def setRunGas (gas : ℕ) : VM Unit := do
  let gas ← toInt63 gas
  modify fun m => {m with m_runGas := gas}

def addRunGas (gas : ℕ) : VM Unit := do
  let gas ← toInt63 gas
  modify fun m => {m with m_runGas := m.m_runGas + gas}

def setCopyMemSize (size : U256) : VM Unit := do
  let size ← toInt63 size.toNat
  modify fun m => {m with m_copyMemSize := size}

def fetchInstruction (code : Code) : VM Unit := do
  let m ← get
  match code.m_code[m.m_PC]? with
  | none => throw .fault
  | some b =>
    modify fun m => {m with m_OP := Instruction.ofByte b}
    let metric := instructionInfo (Instruction.ofByte b)
    adjustStack metric.args metric.ret
    setRunGas (schedule.tierStepGas metric.gasPriceTier)
    modify fun m => {m with
      m_newMemSize := BitVec.ofNat 64 m.m_mem.length
      m_copyMemSize := 0}

end Metering

/-! ### Memory -/

/-- The bytes of memory in a range; an empty range is not looked at. -/
def readMem (offset size : ℕ) : VM Bytes := do
  let m ← get
  if size = 0 then pure []
  else if offset + size ≤ m.m_mem.length then pure ((m.m_mem.drop offset).take size)
  else throw .fault

/-- Bytes in place of those that are there. -/
def overwrite (mem : Bytes) (offset : ℕ) (data : Bytes) : Bytes :=
  mem.take offset ++ data ++ mem.drop (offset + data.length)

def writeMem (offset : ℕ) (data : Bytes) : VM Unit := do
  let m ← get
  if data = [] then pure ()
  else if offset + data.length ≤ m.m_mem.length then
    modify fun m => {m with m_mem := overwrite m.m_mem offset data}
  else throw .fault

/-- `copyDataToMemory`, with the operands at `m_SP + i`. -/
def copyDataToMemory (data : Buffer) (i : ℕ) : VM Unit := do
  let offset := (← sp i).toNat % 2 ^ 64
  let bigIndex := (← sp (i + 1)).toNat
  let index := bigIndex % 2 ^ 64
  let size := (← sp (i + 2)).toNat % 2 ^ 64
  let sizeToBeCopied :=
    if data.bytes.length < bigIndex + size then
      if data.bytes.length < bigIndex then 0 else data.bytes.length - index
    else size
  writeMem offset ((data.bytes.drop index).take sizeToBeCopied)
  writeMem (offset + sizeToBeCopied) (List.replicate (size - sizeToBeCopied) 0)

/-! ### Ends of cases -/

/-- Whether the interpreter goes on with the next instruction. -/
inductive Flow where
  | running
  | stopped
deriving DecidableEq

/-- `NEXT`. -/
def next : VM Flow := do
  modify fun m => {m with m_PC := m.m_PC + 1}
  return .running

/-- `CONTINUE`, from the given place. -/
def continueAt (pc : ℕ) : VM Flow := do
  modify fun m => {m with m_PC := pc}
  return .running

/-- `m_bounce = 0`. -/
def stop : VM Flow := return .stopped

def verifyJumpDest (code : Code) (dest : U256) : Option ℕ :=
  if dest.toNat ≤ int63max ∧ dest.toNat ∈ code.m_jumpDests then some dest.toNat else none

end Aleth.Evm
