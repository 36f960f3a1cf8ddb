import Aleth.Evm.LegacyVM

/-! What an instruction costs and does, in unbounded numbers.

A price is a natural number here, and a range of memory is given by numbers that
do not wrap; the operands are what the stack holds, the answers what the world
says. What the interpreter makes of its machine words is compared with this in
`Steps`. -/
namespace Aleth.Evm
open Devcore

/-- `m_SP[i]`, where it is in the stack. -/
def VMState.operand (m : VMState) (i : ℕ) : U256 := m.m_stack (m.m_SP + i)

/-! ### Memory and its price -/

/-- A size in whole words. -/
def roundUp (n : ℕ) : ℕ := (n + 31) / 32 * 32

/-- How many words a size takes. -/
def words (n : ℕ) : ℕ := (n + 31) / 32

/-- Where a range of memory ends; an empty one needs no memory. -/
def rangeEnd (offset size : U256) : ℕ := if size = 0 then 0 else offset.toNat + size.toNat

/-- The memory with room for so many bytes. -/
def grown (mem : Bytes) (need : ℕ) : Bytes :=
  mem ++ List.replicate (roundUp need - mem.length) 0

theorem length_grown (mem : Bytes) (need : ℕ) :
    (grown mem need).length = max mem.length (roundUp need) := by
  rw [grown, List.length_append, List.length_replicate]
  omega

theorem le_roundUp (n : ℕ) : n ≤ roundUp n := by
  unfold roundUp
  omega

theorem le_length_grown (mem : Bytes) (need : ℕ) : need ≤ (grown mem need).length := by
  rw [length_grown]
  exact (le_roundUp need).trans (le_max_right ..)

@[simp] theorem grown_zero (mem : Bytes) : grown mem 0 = mem := by
  simp [grown, roundUp]

section Costs
variable (schedule : EVMSchedule)

/-- What holding so much memory costs. -/
def memCost (size : ℕ) : ℕ :=
  schedule.memoryGas * (size / 32) + size / 32 * (size / 32) / schedule.quadCoeffDiv

theorem memCost_mono {a b : ℕ} (h : a ≤ b) : memCost schedule a ≤ memCost schedule b := by
  have hwords : a / 32 ≤ b / 32 := Nat.div_le_div_right h
  exact Nat.add_le_add (Nat.mul_le_mul_left _ hwords)
    (Nat.div_le_div_right (Nat.mul_le_mul hwords hwords))

/-- What growing the memory costs. -/
def expansion (held need : ℕ) : ℕ :=
  memCost schedule (max held (roundUp need)) - memCost schedule held

@[simp] theorem expansion_zero (held : ℕ) : expansion schedule held 0 = 0 := by
  simp [expansion, roundUp]

theorem expansion_add (held need : ℕ) : expansion schedule held need + memCost schedule held =
    memCost schedule (max held (roundUp need)) :=
  Nat.sub_add_cancel (memCost_mono schedule (le_max_left ..))

end Costs

namespace Instruction

/-- How much memory the instruction needs. -/
def need (m : VMState) : Instruction → ℕ
  | .mload | .mstore => (m.operand 0).toNat + 32
  | .mstore8 => (m.operand 0).toNat + 1
  | .sha3 | .return_ | .revert | .log _ => rangeEnd (m.operand 0) (m.operand 1)
  | .calldatacopy | .codecopy | .returndatacopy => rangeEnd (m.operand 0) (m.operand 2)
  | .extcodecopy => rangeEnd (m.operand 1) (m.operand 3)
  | .create | .create2 => rangeEnd (m.operand 1) (m.operand 2)
  | .call | .callcode =>
    max (rangeEnd (m.operand 3) (m.operand 4)) (rangeEnd (m.operand 5) (m.operand 6))
  | .delegatecall | .staticcall =>
    max (rangeEnd (m.operand 2) (m.operand 3)) (rangeEnd (m.operand 4) (m.operand 5))
  | _ => 0

/-- The value that a call sends along. -/
def value (m : VMState) : Instruction → U256
  | .call | .callcode => m.operand 2
  | _ => 0

/-! ### Prices -/

section Prices
variable (schedule : EVMSchedule) (ext : ExtVM) (answer : (q : Query) → q.Reply) (m : VMState)

/-- The price of writing to storage. -/
def storePrice (current new original : U256) : ℕ :=
  if schedule.eip1283Mode then
    if current ≠ new ∧ original = current then
      if original = 0 then schedule.sstoreSetGas else schedule.sstoreResetGas
    else schedule.sstoreUnchangedGas
  else if current = 0 ∧ new ≠ 0 then schedule.sstoreSetGas
  else schedule.sstoreResetGas

/-- The price of a new account for the recipient of a call. -/
def newAccountPrice (op : Instruction) : ℕ :=
  if op = .call ∧ answer (.exists (asAddress (m.operand 1))) = false ∧
      (0 < value m op ∨ schedule.zeroValueTransferChargesNewAccountGas) then
    schedule.callNewAccountGas
  else 0

/-- The price of the instruction, apart from the memory it needs and the gas it sends along. -/
def price : Instruction → ℕ
  | .exp => schedule.expGas + schedule.expByteGas * byteCount (m.operand 1)
  | .sha3 => schedule.sha3Gas + words (m.operand 1).toNat * schedule.sha3WordGas
  | .log n =>
    schedule.logGas + schedule.logTopicGas * n + schedule.logDataGas * (m.operand 1).toNat
  | .balance => schedule.balanceGas
  | .extcodesize => schedule.extcodesizeGas
  | .extcodehash => schedule.extcodehashGas
  | .blockhash => schedule.blockhashGas
  | .sload => schedule.sloadGas
  | .sstore =>
    storePrice schedule (answer (.store (m.operand 0))) (m.operand 1)
      (answer (.originalStorageValue (m.operand 0)))
  | .calldatacopy | .codecopy | .returndatacopy =>
    schedule.tierStepGas .veryLow + schedule.copyGas * words (m.operand 2).toNat
  | .extcodecopy => schedule.extcodecopyGas + schedule.copyGas * words (m.operand 3).toNat
  | .jumpdest => 1
  | .suicide =>
    schedule.suicideGas +
      if (0 < answer (.balance ext.myAddress) ∨ schedule.zeroValueTransferChargesNewAccountGas) ∧
          schedule.suicideChargesNewAccountGas ∧
          answer (.exists (asAddress (m.operand 0))) = false then
        schedule.callNewAccountGas
      else 0
  | .create => schedule.createGas
  | .create2 => schedule.createGas + words (m.operand 2).toNat * schedule.sha3WordGas
  | op =>
    if op = .call ∨ op = .callcode ∨ op = .delegatecall ∨ op = .staticcall then
      schedule.callGas + newAccountPrice schedule answer m op +
        if 0 < value m op then schedule.callValueTransferGas else 0
    else schedule.tierStepGas (instructionInfo op).gasPriceTier

/-- What is charged before anything is sent along. -/
def cost (op : Instruction) : ℕ :=
  price schedule ext answer m op + expansion schedule m.m_mem.length (need m op)

/-- The gas that is left when this has been charged. -/
def left (op : Instruction) : ℕ := m.m_io_gas.toNat - cost schedule ext answer m op

/-- The part of it that may be sent along. -/
def allowed (op : Instruction) : ℕ :=
  left schedule ext answer m op - left schedule ext answer m op / 64

/-- The value, and the depth, admit the creation or the call. -/
def Admitted (value : U256) : Prop :=
  value ≤ answer (.balance ext.myAddress) ∧ ext.depth < 1024

/-- The gas a creation is sent. -/
def createGas (op : Instruction) : ℕ :=
  if schedule.staticCallDepthLimit then left schedule ext answer m op
  else allowed schedule ext answer m op

/-- The gas a call is sent, without the stipend. -/
def callGas (op : Instruction) : ℕ :=
  if schedule.staticCallDepthLimit then (m.operand 0).toNat
  else min (m.operand 0).toNat (allowed schedule ext answer m op)

/-- The stipend of a call that sends value. -/
def stipend (op : Instruction) : ℕ := if 0 < value m op then schedule.callStipend else 0

/-- What the instruction sends along and what comes back of it. -/
def Sends (op : Instruction) (sent returned : ℕ) : Prop :=
  if op = .create ∨ op = .create2 then
    Admitted ext answer (m.operand 0) ∧ sent = createGas schedule ext answer m op ∧
        (∃ gas code salt, gas.toNat = sent ∧
          returned = (answer (.create (m.operand 0) gas code op salt)).gas.toNat) ∨
      ¬Admitted ext answer (m.operand 0) ∧ sent = 0 ∧ returned = 0
  else if op = .call ∨ op = .callcode ∨ op = .delegatecall ∨ op = .staticcall then
    sent = callGas schedule ext answer m op ∧
      (Admitted ext answer (value m op) ∧
          (∃ params, params.gas.toNat = sent + stipend schedule m op ∧
            returned = (answer (.call params)).gas.toNat) ∨
        ¬Admitted ext answer (value m op) ∧ returned = sent + stipend schedule m op)
  else sent = 0 ∧ returned = 0

end Prices

/-! ### Effects -/

/-- The bytes of the data from an index on, with zeros after its end. -/
def padded (data : Bytes) (index size : ℕ) : Bytes :=
  (List.range size).map fun j => data.getD (index + j) 0

section Effects
variable (ext : ExtVM) (answer : (q : Query) → q.Reply) (code : Code) (m : VMState)

/-- The instruction writes the data to memory. -/
def Writes (offset : ℕ) (data : Bytes) : Instruction → Prop
  | .mstore => offset = toUnsigned (m.operand 0) ∧ data = toBigEndian 32 (m.operand 1).toNat
  | .mstore8 =>
    offset = toUnsigned (m.operand 0) ∧ data = [UInt8.ofNat ((m.operand 1).toNat % 256)]
  | .calldatacopy => offset = (m.operand 0).toNat ∧
      data = padded ext.data.bytes (m.operand 1).toNat (m.operand 2).toNat
  | .codecopy => offset = (m.operand 0).toNat ∧
      data = padded ext.code.bytes (m.operand 1).toNat (m.operand 2).toNat
  | .returndatacopy => offset = (m.operand 0).toNat ∧
      data = padded m.m_returnData.bytes (m.operand 1).toNat (m.operand 2).toNat
  | .extcodecopy => offset = (m.operand 1).toNat ∧
      data = padded (answer (.codeAt (asAddress (m.operand 0)))).bytes (m.operand 2).toNat
        (m.operand 3).toNat
  | .call | .callcode => offset = (m.operand 5).toNat ∧ data.length ≤ (m.operand 6).toNat
  | .delegatecall | .staticcall =>
    offset = (m.operand 4).toNat ∧ data.length ≤ (m.operand 5).toNat
  | _ => data = []

/-- The word that the instruction leaves, where it comes from memory or code; `mem` is the memory
when it has grown. -/
def Leaves [Sha3] (mem : Bytes) (v : U256) : Instruction → Prop
  | .mload => v = toWord ((mem.drop (toUnsigned (m.operand 0))).take 32)
  | .sha3 =>
    v = toWord (Devcore.sha3 ((mem.drop (m.operand 0).toNat).take (m.operand 1).toNat)).bytes
  | .push n => v = pushed ((code.m_code.drop (m.m_PC + 1)).take n)
  | .pushc => code.m_pool[(code.m_code.getD (m.m_PC + 1) 0).toNat * 256 +
      (code.m_code.getD (m.m_PC + 2) 0).toNat]? = some v
  | _ => True

/-- The place that the instruction goes on from. -/
def Goes (pc : ℕ) : Instruction → Prop
  | .push n => pc = m.m_PC + 1 + n
  | .pushc => pc = m.m_PC + 3 + (code.m_code.getD (m.m_PC + 3) 0).toNat
  | .jump => verifyJumpDest code (m.operand 0) = some pc
  | .jumpi =>
    if m.operand 1 ≠ 0 then verifyJumpDest code (m.operand 0) = some pc else pc = m.m_PC + 1
  | .jumpc => pc = toUint64 (m.operand 0)
  | .jumpci => if m.operand 1 ≠ 0 then pc = toUint64 (m.operand 0) else pc = m.m_PC + 1
  | _ => pc = m.m_PC + 1

/-- What the instruction reads of the code is there. -/
def Readable : Instruction → Prop
  | .push n => m.m_PC + 1 + n ≤ code.m_code.length
  | .pushc => m.m_PC + 4 ≤ code.m_code.length ∧
    (code.m_code.getD (m.m_PC + 1) 0).toNat * 256 + (code.m_code.getD (m.m_PC + 2) 0).toNat <
      code.m_pool.length
  | _ => True

end Effects
end Instruction
end Aleth.Evm
