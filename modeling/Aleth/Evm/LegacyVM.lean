import Aleth.Evm.Machine

/-! The cases of the interpreter (`LegacyVM.cpp`, `LegacyVMCalls.cpp`).

Subroutines and vectors (EIP 615 and 616) are not compiled in, so that their
instructions are bad ones; `evmOptimize` is whether the optimizations of
`LegacyVMOpt.cpp` are. Instructions that only compute a word are in a table
(`computed`), as are those that ask for one (`asked`). What only tracing looks at
is left out, and the decrements of `m_SP`, which the next instruction sets
anew. -/
namespace Aleth.Evm
open Devcore Machine

/-- `asAddress`: the low 160 bits. -/
def asAddress (x : U256) : Address := x.setWidth 160

def fromAddress (a : Address) : U256 := a.setWidth 256

/-! ### Instructions that compute a word -/

/-- `m_SPP[0] = v`, for a value read off the machine. -/
def nullary (f : VMState → U256) : VM U256 := do
  let m ← get
  return f m

def unary (f : U256 → U256) : VM U256 := return f (← sp 0)

def binary (f : U256 → U256 → U256) : VM U256 := return f (← sp 0) (← sp 1)

def ternary (f : U256 → U256 → U256 → U256) : VM U256 := return f (← sp 0) (← sp 1) (← sp 2)

/-- The 32 bytes from an index on, with zeros after the end of the data. -/
def calldataload (data : Bytes) (i : U256) : U256 :=
  if i.toNat + 31 < data.length then
    BitVec.ofNat 256 (fromBigEndian ((data.drop i.toNat).take 32))
  else if data.length ≤ i.toNat then 0
  else BitVec.ofNat 256 (fromBigEndian ((List.range 32).map fun j => data.getD (i.toNat + j) 0))

section Cases
variable (evmOptimize : Bool) (schedule : EVMSchedule) (ext : ExtVM) (code : Code)

/-- The instructions whose case charges, computes a word and goes on: the guard they begin with,
and the word. -/
def computed : Instruction → Option (Bool × VM U256)
  | .add => some (true, binary (· + ·))
  | .mul => some (true, binary (· * ·))
  | .sub => some (true, binary (· - ·))
  | .div => some (true, binary div)
  | .sdiv => some (true, binary sdiv)
  | .mod => some (true, binary mod)
  | .smod => some (true, binary smod)
  | .not => some (true, unary (~~~·))
  | .lt => some (true, binary fun a b => ofBool (a < b))
  | .gt => some (true, binary fun a b => ofBool (b < a))
  | .slt => some (true, binary fun a b => ofBool (a.slt b))
  | .sgt => some (true, binary fun a b => ofBool (b.slt a))
  | .eq => some (true, binary fun a b => ofBool (a = b))
  | .iszero => some (true, unary fun a => ofBool (a = 0))
  | .and => some (true, binary (· &&& ·))
  | .or => some (true, binary (· ||| ·))
  | .xor => some (true, binary (· ^^^ ·))
  | .byte => some (true, binary byteOf)
  | .shl => some (schedule.haveBitwiseShifting, binary shl)
  | .shr => some (schedule.haveBitwiseShifting, binary shr)
  | .sar => some (schedule.haveBitwiseShifting, binary sar)
  | .addmod => some (true, ternary addmod)
  | .mulmod => some (true, ternary mulmod)
  | .signextend => some (true, binary signextend)
  | .address => some (true, nullary fun _ => fromAddress ext.myAddress)
  | .origin => some (true, nullary fun _ => fromAddress ext.origin)
  | .caller => some (true, nullary fun _ => fromAddress ext.caller)
  | .callvalue => some (true, nullary fun _ => ext.value)
  | .calldataload => some (true, unary (calldataload ext.data.bytes))
  | .calldatasize => some (true, nullary fun _ => BitVec.ofNat 256 ext.data.bytes.length)
  | .returndatasize =>
    some (schedule.haveReturnData, nullary fun m => BitVec.ofNat 256 m.m_returnData.bytes.length)
  | .codesize => some (true, nullary fun _ => BitVec.ofNat 256 ext.code.bytes.length)
  | .gasprice => some (true, nullary fun _ => ext.gasPrice)
  | .coinbase => some (true, nullary fun _ => fromAddress ext.envInfo.author)
  | .timestamp => some (true, nullary fun _ => BitVec.ofNat 256 ext.envInfo.timestamp)
  | .number => some (true, nullary fun _ => BitVec.ofNat 256 ext.envInfo.number)
  | .difficulty => some (true, nullary fun _ => ext.envInfo.difficulty)
  | .gaslimit => some (true, nullary fun _ => ext.envInfo.gasLimit)
  | .pc => some (true, nullary fun m => BitVec.ofNat 256 m.m_PC)
  | .msize => some (true, nullary fun m => BitVec.ofNat 256 m.m_mem.length)
  | .gas => some (true, nullary fun m => m.m_io_gas.setWidth 256)
  | .dup n => some (true, sp (n - 1))
  | _ => none

def require (guard : Bool) : VM Unit := if guard then pure () else throw .badInstruction

/-- What writes to the world is refused in a static call. -/
def refuse (c : Bool) : VM Unit := if c then throw .disallowedStateChange else pure ()

def caseComputed (guard : Bool) (word : VM U256) : VM Flow := do
  require guard
  updateIOGas
  setSPP (← word)
  next

/-! ### Instructions that ask for a word -/

/-- What an instruction asks with its operand: the guard it begins with, its price, the question
and how the answer is a word. -/
structure Asked where
  guard : Bool := true
  price : ℕ
  query : U256 → Query
  word : (a : U256) → (query a).Reply → U256

def asked : Instruction → Option Asked
  | .balance => some
    {price := schedule.balanceGas, query := fun a => .balance (asAddress a), word := fun _ r => r}
  | .extcodesize => some
    {price := schedule.extcodesizeGas, query := fun a => .codeSizeAt (asAddress a)
     word := fun _ r => BitVec.ofNat 256 r}
  | .extcodehash => some
    {guard := schedule.haveExtcodehash, price := schedule.extcodehashGas
     query := fun a => .codeHashAt (asAddress a)
     word := fun _ r => BitVec.ofNat 256 (fromBigEndian r.bytes)}
  | .blockhash => some
    {price := schedule.blockhashGas, query := .blockHash
     word := fun _ r => BitVec.ofNat 256 (fromBigEndian r.bytes)}
  | .sload => some {price := schedule.sloadGas, query := .store, word := fun _ r => r}
  | _ => none

def caseAsked (a : Asked) : VM Flow := do
  require a.guard
  setRunGas a.price
  updateIOGas
  let i ← sp 0
  let r ← ask (a.query i)
  setSPP (a.word i r)
  next

/-! ### Memory -/

def toWord (b : Bytes) : U256 := BitVec.ofNat 256 (fromBigEndian b)

/-- `(unsigned)x`. -/
def toUnsigned (x : U256) : ℕ := x.toNat % 2 ^ 32

/-- `(uint64_t)x`. -/
def toUint64 (x : U256) : ℕ := x.toNat % 2 ^ 64

def caseMload : VM Flow := do
  let need ← toInt63 (← sp 0).toNat
  updateMem schedule (need + 32)
  updateIOGas
  setSPP (toWord (← readMem (toUnsigned (← sp 0)) 32))
  next

def caseMstore : VM Flow := do
  let need ← toInt63 (← sp 0).toNat
  updateMem schedule (need + 32)
  updateIOGas
  writeMem (toUnsigned (← sp 0)) (toBigEndian 32 (← sp 1).toNat)
  next

def caseMstore8 : VM Flow := do
  let need ← toInt63 (← sp 0).toNat
  updateMem schedule (need + 1)
  updateIOGas
  writeMem (toUnsigned (← sp 0)) [UInt8.ofNat ((← sp 1).toNat % 256)]
  next

def caseSha3 [Sha3] : VM Flow := do
  setRunGas (schedule.sha3Gas + ((← sp 1).toNat + 31) / 32 * schedule.sha3WordGas)
  updateMem schedule (← memNeed (← sp 0) (← sp 1))
  updateIOGas
  setSPP (toWord (sha3 (← readMem (toUint64 (← sp 0)) (toUint64 (← sp 1)))).bytes)
  next

def logGasMem (n : ℕ) : VM Unit := do
  setRunGas ((schedule.logGas + schedule.logTopicGas * n) % 2 ^ 32 +
    schedule.logDataGas * (← sp 1).toNat)
  updateMem schedule (← memNeed (← sp 0) (← sp 1))

/-- `m_SP[i]` and the operands that follow it. -/
def operandsFrom (i : ℕ) : ℕ → VM (List U256)
  | 0 => return []
  | n + 1 => return (← sp i) :: (← operandsFrom (i + 1) n)

def caseLog (n : ℕ) : VM Flow := do
  refuse ext.staticCall
  logGasMem schedule n
  updateIOGas
  let topics ← operandsFrom 2 n
  ask (Query.log (topics.map fun t => H256.alignRight (toBigEndian 32 t.toNat))
    (← readMem (toUint64 (← sp 0)) (toUint64 (← sp 1))))
  next

/-- The cases of `CALLDATACOPY` and `CODECOPY`. -/
def caseCopy (data : Buffer) : VM Flow := do
  setCopyMemSize (← sp 2)
  updateMem schedule (← memNeed (← sp 0) (← sp 2))
  updateIOGas
  copyDataToMemory data 0
  next

def caseReturndatacopy : VM Flow := do
  require schedule.haveReturnData
  let endOfAccess := (← sp 1).toNat + (← sp 2).toNat
  let m ← get
  if m.m_returnData.bytes.length < endOfAccess then throw .bufferOverrun
  caseCopy schedule m.m_returnData

def caseExtcodecopy : VM Flow := do
  setRunGas schedule.extcodecopyGas
  setCopyMemSize (← sp 3)
  updateMem schedule (← memNeed (← sp 1) (← sp 3))
  updateIOGas
  let code ← ask (.codeAt (asAddress (← sp 0)))
  copyDataToMemory code 1
  next

/-- The range of memory that `RETURN` and `REVERT` give back. -/
def output : VM Bytes := do
  setCopyMemSize 0
  updateMem schedule (← memNeed (← sp 0) (← sp 1))
  updateIOGas
  readMem (toUint64 (← sp 0)) (toUint64 (← sp 1))

def caseReturn : VM Flow := do
  let output ← output schedule
  modify fun m => {m with m_output := output}
  stop

def caseRevert : VM Flow := do
  require schedule.haveRevert
  let output ← output schedule
  throw (.revertInstruction output)

/-! ### Control -/

/-- The number that the bytes of a push stand for, as its loop puts it together. -/
def pushed (bytes : Bytes) : U256 :=
  bytes.foldl (fun v b => v <<< 8 ||| BitVec.ofNat 256 b.toNat) 0

/-- Bytes of the code. -/
def codeBytes (pc n : ℕ) : VM Bytes :=
  if pc + n ≤ code.m_code.length then pure ((code.m_code.drop pc).take n) else throw .fault

def casePush (n : ℕ) : VM Flow := do
  updateIOGas
  let m ← get
  setSPP (pushed (← codeBytes code (m.m_PC + 1) n))
  continueAt (m.m_PC + 1 + n)

def casePushc : VM Flow := do
  require evmOptimize
  updateIOGas
  let m ← get
  match ← codeBytes code (m.m_PC + 1) 3 with
  | [high, low, rest] =>
    match code.m_pool[high.toNat * 256 + low.toNat]? with
    | some v =>
      setSPP v
      continueAt (m.m_PC + 3 + rest.toNat)
    | none => throw .fault
  | _ => throw .fault

def jumpTo (dest : U256) : VM Flow :=
  match verifyJumpDest code dest with
  | some pc => continueAt pc
  | none => throw .badJumpDestination

def caseJump : VM Flow := do
  updateIOGas
  jumpTo code (← sp 0)

def caseJumpi : VM Flow := do
  updateIOGas
  if (← sp 1) ≠ 0 then jumpTo code (← sp 0) else next

def caseJumpc : VM Flow := do
  require evmOptimize
  updateIOGas
  continueAt (toUint64 (← sp 0))

def caseJumpci : VM Flow := do
  require evmOptimize
  updateIOGas
  if (← sp 1) ≠ 0 then continueAt (toUint64 (← sp 0)) else next

def caseSwap (n : ℕ) : VM Flow := do
  updateIOGas
  let first ← sp 0
  let second ← sp n
  setSP 0 second
  setSP n first
  next

/-! ### Storage and the account -/

/-- `m_ext->sub.refunds += amount`. -/
def refund (amount : ℤ) : VM Unit := ask (Query.refund amount)

def updateSSGasPreEIP1283 (currentValue newValue : U256) : VM Unit := do
  if currentValue = 0 ∧ newValue ≠ 0 then setRunGas schedule.sstoreSetGas
  else if currentValue ≠ 0 ∧ newValue = 0 then
    setRunGas schedule.sstoreResetGas
    refund schedule.sstoreRefundGas
  else setRunGas schedule.sstoreResetGas

/-- The refunds for a value that has been changed before; the counter can go negative. -/
def refundChanged (originalValue currentValue newValue : U256) : VM Unit := do
  if originalValue ≠ 0 then
    if currentValue = 0 then refund (-schedule.sstoreRefundGas)
    if newValue = 0 then refund schedule.sstoreRefundGas
  if originalValue = newValue then
    if originalValue = 0 then
      refund (schedule.sstoreRefundGas + schedule.sstoreRefundNonzeroGas)
    else refund schedule.sstoreRefundNonzeroGas

def updateSSGasEIP1283 (key currentValue newValue : U256) : VM Unit := do
  if currentValue = newValue then
    modify fun m => {m with m_runGas := BitVec.ofNat 64 schedule.sstoreUnchangedGas}
  else
    let originalValue ← ask (.originalStorageValue key)
    if originalValue = currentValue then
      if originalValue = 0 then
        modify fun m => {m with m_runGas := BitVec.ofNat 64 schedule.sstoreSetGas}
      else
        modify fun m => {m with m_runGas := BitVec.ofNat 64 schedule.sstoreResetGas}
        if newValue = 0 then refund schedule.sstoreRefundGas
    else
      modify fun m => {m with m_runGas := BitVec.ofNat 64 schedule.sstoreUnchangedGas}
      refundChanged schedule originalValue currentValue newValue

def updateSSGas : VM Unit := do
  let currentValue ← ask (.store (← sp 0))
  let newValue ← sp 1
  if schedule.eip1283Mode then updateSSGasEIP1283 schedule (← sp 0) currentValue newValue
  else updateSSGasPreEIP1283 schedule currentValue newValue

def caseSstore : VM Flow := do
  refuse ext.staticCall
  updateSSGas schedule
  updateIOGas
  ask (Query.setStore (← sp 0) (← sp 1))
  next

/-- The charge of `SUICIDE` for a recipient that does not exist. -/
def updateSuicideGas (dest : Address) : VM Unit := do
  let balance ← ask (.balance ext.myAddress)
  if 0 < balance ∨ schedule.zeroValueTransferChargesNewAccountGas then
    if schedule.suicideChargesNewAccountGas then
      if !(← ask (.exists dest)) then
        modify fun m => {m with
          m_runGas := m.m_runGas + BitVec.ofNat 64 schedule.callNewAccountGas}

def caseSuicide : VM Flow := do
  refuse ext.staticCall
  setRunGas schedule.suicideGas
  let dest := asAddress (← sp 0)
  updateSuicideGas schedule ext dest
  updateIOGas
  ask (Query.suicide dest)
  stop

/-! ### Creations and calls -/

/-- The salt of `CREATE2`, whose code is hashed for a charge. -/
def createSalt (op : Instruction) (initSize : U256) : VM U256 :=
  if op = .create2 then do
    let salt ← sp 3
    addRunGas ((initSize.toNat + 31) / 32 * schedule.sha3WordGas)
    return salt
  else return 0

/-- The creation, with the gas that is left for it. -/
def create (op : Instruction) (endowment initOff initSize salt : U256) : VM Flow := do
  modify fun m => {m with m_returnData := .empty}
  if endowment ≤ (← ask (.balance ext.myAddress)) ∧ ext.depth < 1024 then
    let m ← get
    let io_gas : U256 := m.m_io_gas.setWidth 256
    let createGas := if schedule.staticCallDepthLimit then io_gas else io_gas - io_gas / 64
    let initCode ← readMem (toUint64 initOff) (toUint64 initSize)
    let result : CreateResult ← ask (Query.create endowment createGas initCode op salt)
    setSPP (fromAddress result.address)
    modify fun m => {m with
      m_returnData := result.output
      m_io_gas := (io_gas - (createGas - result.gas)).setWidth 64}
    next
  else
    setSPP 0
    next

/-- `CREATE` and `CREATE2`, after the checks of their own. -/
def caseCreate (op : Instruction) : VM Flow := do
  setRunGas schedule.createGas
  let endowment ← sp 0
  let initOff ← sp 1
  let initSize ← sp 2
  let salt ← createSalt schedule op initSize
  updateMem schedule (← memNeed initOff initSize)
  updateIOGas
  create schedule ext op endowment initOff initSize salt

/-- The charges of `caseCallSetup` for a new account and for a transfer. -/
def updateCallGas (op : Instruction) (value : U256) : VM Unit := do
  if op = .call then
    if !(← ask (.exists (asAddress (← sp 1)))) then
      if 0 < value ∨ schedule.zeroValueTransferChargesNewAccountGas then
        addRunGas schedule.callNewAccountGas
  if 0 < value then addRunGas schedule.callValueTransferGas

def haveValueArg (op : Instruction) : Bool := op = .call ∨ op = .callcode

def sizesOffset (op : Instruction) : ℕ := if haveValueArg op then 3 else 2

/-- The memory for the input and the output, and the charge for it. -/
def updateCallMem (op : Instruction) : VM Unit := do
  let inputMemNeed ← memNeed (← sp (sizesOffset op)) (← sp (sizesOffset op + 1))
  let outputMemNeed ← memNeed (← sp (sizesOffset op + 2)) (← sp (sizesOffset op + 3))
  updateMem schedule (max inputMemNeed outputMemNeed)
  updateIOGas

/-- The gas for the call, of which at most all but one 64th is given, and the charge for it. -/
def callGas : VM U256 := do
  let m ← get
  let requested ← sp 0
  let maxAllowedCallGas : U256 := (m.m_io_gas - m.m_io_gas / 64).setWidth 256
  let gas := if schedule.staticCallDepthLimit then requested else min requested maxAllowedCallGas
  setRunGas gas.toNat
  updateIOGas
  return gas

/-- The parameters of the call, if it is to be made. -/
def callParameters (op : Instruction) (value gas : U256) : VM (Option CallParameters) := do
  let destinationAddr := asAddress (← sp 1)
  if value ≤ (← ask (.balance ext.myAddress)) ∧ ext.depth < 1024 then
    let data ← readMem (toUint64 (← sp (sizesOffset op))) (toUint64 (← sp (sizesOffset op + 1)))
    return some
      {staticCall := op = .staticcall ∨ ext.staticCall
       codeAddress := destinationAddr
       gas
       valueTransfer := value
       apparentValue := if op = .delegatecall then ext.value else value
       senderAddress := if op = .delegatecall then ext.caller else ext.myAddress
       receiveAddress :=
        if op = .call ∨ op = .staticcall then destinationAddr else ext.myAddress
       data}
  else return none

/-- `caseCallSetup`: the gas of the call, and its parameters if it is to be made. -/
def caseCallSetup (op : Instruction) : VM (U256 × Option CallParameters) := do
  setRunGas schedule.callGas
  let value ← if haveValueArg op then sp 2 else pure 0
  updateCallGas schedule op value
  updateCallMem schedule op
  let callGas ← callGas schedule
  let gas := if 0 < value then callGas + BitVec.ofNat 256 schedule.callStipend else callGas
  return (gas, ← callParameters ext op value gas)

/-- What is done with the result of the call, or without one. -/
def finishCall (op : Instruction) (gas : U256) : Option CallParameters → VM Flow
  | some params => do
    let result : CallResult ← ask (Query.call params)
    let outSize := toUint64 (← sp (sizesOffset op + 3))
    writeMem (toUint64 (← sp (sizesOffset op + 2))) (result.output.bytes.take outSize)
    modify fun m => {m with m_returnData := result.output}
    setSPP (if result.status = .success then 1 else 0)
    modify fun m => {m with m_io_gas := m.m_io_gas + result.gas.setWidth 64}
    next
  | none => do
    setSPP 0
    modify fun m => {m with m_io_gas := m.m_io_gas + gas.setWidth 64}
    next

/-- `CALL`, `CALLCODE`, `DELEGATECALL` and `STATICCALL`, after the checks of their own. -/
def caseCall (op : Instruction) : VM Flow := do
  modify fun m => {m with m_returnData := .empty}
  let (gas, params) ← caseCallSetup schedule ext op
  finishCall op gas params

/-! ### The switch -/

/-- The cases that are in neither table. -/
def special [Sha3] : Instruction → VM Flow
  | .create2 => do
    require schedule.haveCreate2
    refuse ext.staticCall
    caseCreate schedule ext .create2
  | .create => do
    refuse ext.staticCall
    caseCreate schedule ext .create
  | .delegatecall => do
    require schedule.haveDelegateCall
    caseCall schedule ext .delegatecall
  | .staticcall => do
    require schedule.haveStaticCall
    caseCall schedule ext .staticcall
  | .call => do
    refuse (ext.staticCall && (← sp 2) ≠ 0)
    caseCall schedule ext .call
  | .callcode => caseCall schedule ext .callcode
  | .return_ => caseReturn schedule
  | .revert => caseRevert schedule
  | .suicide => caseSuicide schedule ext
  | .stop => do
    updateIOGas
    stop
  | .mload => caseMload schedule
  | .mstore => caseMstore schedule
  | .mstore8 => caseMstore8 schedule
  | .sha3 => caseSha3 schedule
  | .log n => caseLog schedule ext n
  | .exp => do
    setRunGas ((schedule.expGas + schedule.expByteGas * byteCount (← sp 1)) % 2 ^ 32)
    caseComputed true (binary exp256)
  | .calldatacopy => caseCopy schedule ext.data
  | .returndatacopy => caseReturndatacopy schedule
  | .codecopy => caseCopy schedule ext.code
  | .extcodecopy => caseExtcodecopy schedule
  | .pop => do
    updateIOGas
    next
  | .push n => casePush code n
  | .pushc => casePushc evmOptimize code
  | .jump => caseJump code
  | .jumpi => caseJumpi code
  | .jumpc => caseJumpc evmOptimize
  | .jumpci => caseJumpci evmOptimize
  | .swap n => caseSwap n
  | .sstore => caseSstore schedule ext
  | .jumpdest => do
    modify fun m => {m with m_runGas := 1}
    updateIOGas
    next
  | _ => throw .badInstruction

def interpretCase [Sha3] (op : Instruction) : VM Flow :=
  match computed schedule ext op with
  | some (guard, word) => caseComputed guard word
  | none =>
    match asked schedule op with
    | some a => caseAsked a
    | none => special evmOptimize schedule ext code op

/-- One turn of `interpretCases`. -/
def interpret [Sha3] : VM Flow := do
  fetchInstruction schedule code
  let m ← get
  interpretCase evmOptimize schedule ext code m.m_OP

end Cases
end Aleth.Evm
