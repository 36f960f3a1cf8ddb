import Aleth.Ethereum.GasEstimate
import Aleth.Ethereum.StateRollback
import Aleth.Evm.Control
import Aleth.Evm.Questions

/-! Message calls, creations and transactions (`Executive.cpp`, `ExtVM.cpp`).

An executive sets up a call or a creation on the state, runs the interpreter, and
rolls the state back to its savepoint when that throws. What the interpreter asks is
answered by `ExtVM` from the same state; for a call or a creation it starts an
executive one level deeper. `Nested` is what an `ExtVM` knows of the levels below
it, and `nested n` is there for `n` levels. The precompiled contracts are a
parameter, as is everything else of the chain that is looked at. An exception of the
state that reaches `go` ends the program (`exit(1)`); here it is an error. -/
namespace Aleth.Ethereum
open Devcore Throwing Evm

/-- What is looked at of `SealEngineFace` and its parameters. -/
structure SealEngineFace where
  evmSchedule : EVMSchedule
  isPrecompiled : Address → Bool
  costOfPrecompiled : Address → Bytes → ℕ
  executePrecompiled : Address → Bytes → Bool × Bytes
  homesteadForkBlock : ℕ
  EIP158ForkBlock : ℕ
  experimentalForkBlock : ℕ

/-- The chain, as it is at the number of the block, and the block. -/
structure Env where
  m_sealEngine : SealEngineFace
  m_envInfo : EnvInfo

/-- What is looked at of a `Transaction`: the sender is the one that the signature gives, if it
gives one. -/
structure SignedTransaction where
  sender : Option Address
  nonce : U256
  value : U256
  gasPrice : U256
  gas : U256
  isCreation : Bool
  receiveAddress : Address
  data : Bytes
  hasZeroSignature : Bool
  isReplayProtected : Bool
  /-- `checkLowS` throws nothing. -/
  isLowS : Bool

inductive ExecutionError where
  | rejected (e : TransactionException)
  /-- An exception that the interpreter does not expect. -/
  | unexpected (e : StateError)
  /-- An access of the interpreter that has no meaning. -/
  | fault
  | assertion
  /-- Block hashes are asked of a contract after the fork. -/
  | blockhashContract
  /-- There are no more turns or levels. -/
  | unfinished
deriving DecidableEq

structure Executive where
  m_depth : ℕ := 0
  m_t : Option SignedTransaction := none
  m_baseGasRequired : ℕ := 0
  m_gasCost : U256 := 0
  m_gas : U256 := 0
  m_output : Buffer := .empty
  m_ext : Option ExtVM := none
  /-- `m_ext->sub`. -/
  m_sub : SubState := {}
  m_excepted : TransactionException := .None
  m_isCreation : Bool := false
  m_newAddress : Address := 0
  m_savepoint : ℕ := 0
  m_logs : List Evm.LogEntry := []

/-- A vector is as long as a `size_t` can count. -/
def toBuffer (b : Bytes) : Buffer where
  bytes := b.take (2 ^ 64 - 1)
  size_lt := (List.length_take_le ..).trans_lt (by decide)

def toTransactionException : VMException → TransactionException
  | .badInstruction => .BadInstruction
  | .badJumpDestination => .BadJumpDestination
  | .outOfGas => .OutOfGas
  | .outOfStack => .OutOfStack
  | .stackUnderflow => .StackUnderflow
  | _ => .Unknown

def transactionExceptionToEvmcStatusCode : TransactionException → StatusCode
  | .None => .success
  | .RevertInstruction => .revert
  | .OutOfGas => .outOfGas
  | .BadInstruction => .undefinedInstruction
  | .OutOfStack => .stackOverflow
  | .StackUnderflow => .stackUnderflow
  | .BadJumpDestination => .badJumpDestination
  | _ => .failure

variable [Sha3]

abbrev Execution := Throwing State ExecutionError

/-- What an `ExtVM` works on: the state, and its own `sub`. -/
abbrev Framed := Throwing (State × SubState) ExecutionError

/-- A method of the state. -/
def onState {α : Type} (x : StateM α) : Execution α := mapError .unexpected x

/-- A computation on the state, in a frame. -/
def inFrame {α : Type} (x : Execution α) : Framed α := fun f =>
  let (r, s) := x.run f.1
  (r, (s, f.2))

namespace Executive
variable (env : Env)

/-- Senders that stand for nobody do not count their transactions after the fork. -/
def countsNonce (sender : Address) : Bool :=
  sender ≠ MaxAddress ∨ env.m_envInfo.number < env.m_sealEngine.experimentalForkBlock

def revert (e : Executive) : Execution Executive := do
  modify (State.rollback e.m_savepoint)
  return {e with m_sub := .clear, m_newAddress := 0}

/-- `m_savepoint = m_s.savepoint()`. -/
def saved (e : Executive) : Execution Executive := do
  let s ← get
  return {e with m_savepoint := s.savepoint}

/-! ### Calls -/

/-- The branch of a precompiled contract: whether all is done, before ether is transferred. -/
def callPrecompiled (e : Executive) (p : CallParameters) : Execution (Bool × Executive) := do
  let g := env.m_sealEngine.costOfPrecompiled p.codeAddress p.data
  if p.gas.toNat < g then
    if env.m_sealEngine.EIP158ForkBlock ≤ env.m_envInfo.number then
      onState (State.addBalance p.codeAddress 0)
    return (true, {e with m_excepted := .OutOfGasBase})
  else
    let (success, output) := env.m_sealEngine.executePrecompiled p.codeAddress p.data
    let e := {e with m_gas := BitVec.ofNat 256 (p.gas.toNat - g), m_output := toBuffer output}
    if success then return (false, e)
    else return (true, {e with m_gas := 0, m_excepted := .OutOfGas})

/-- The branch of an account: it is run where it has code. -/
def callAccount (e : Executive) (p : CallParameters) (gasPrice : U256) (origin : Address) :
    Execution (Bool × Executive) := do
  let e := {e with m_gas := p.gas}
  if ← onState (State.addressHasCode p.codeAddress) then
    let c ← onState (State.code p.codeAddress)
    let _codeHash ← onState (State.codeHash p.codeAddress)
    let ext : ExtVM :=
      {envInfo := env.m_envInfo
       myAddress := p.receiveAddress
       caller := p.senderAddress
       origin
       value := p.apparentValue
       gasPrice
       data := toBuffer p.data
       code := toBuffer c
       depth := e.m_depth
       isCreate := false
       staticCall := p.staticCall}
    return (false, {e with m_ext := some ext, m_sub := {}})
  else return (false, e)

/-- `call`: whether all is done. -/
def call (e : Executive) (p : CallParameters) (gasPrice : U256) (origin : Address) :
    Execution (Bool × Executive) := do
  if e.m_t.isSome ∧ countsNonce env p.senderAddress then
    onState (State.incNonce p.senderAddress)
  let e ← saved e
  let (done, e) ←
    if env.m_sealEngine.isPrecompiled p.codeAddress then callPrecompiled env e p
    else callAccount env e p gasPrice origin
  if done then return (true, e)
  else
    onState (State.transferBalance p.senderAddress p.receiveAddress p.valueTransfer)
    return (e.m_ext.isNone, e)

/-! ### Creations -/

/-- Whether there is an account at the address that is not to be created anew. -/
def addressTaken (a : Address) : StateM Bool := do
  if ← State.addressHasCode a then return true
  else return 0 < (← State.getNonce a)

/-- The new account, before its code is run. -/
def setUp (sender newAddress : Address) (endowment : U256) : StateM Unit := do
  State.transferBalance sender newAddress endowment
  let newNonce ← State.requireAccountStartNonce
  State.setNonce newAddress
    (if env.m_sealEngine.EIP158ForkBlock ≤ env.m_envInfo.number then newNonce + 1 else newNonce)
  State.clearStorage newAddress

def executeCreate (e : Executive) (sender : Address) (endowment gasPrice gas : U256)
    (init : Bytes) (origin : Address) : Execution (Bool × Executive) := do
  if countsNonce env sender then onState (State.incNonce sender)
  let e ← saved e
  let e := {e with m_isCreation := true, m_gas := gas}
  if ← onState (addressTaken e.m_newAddress) then
    let e ← revert {e with m_gas := 0, m_excepted := .AddressAlreadyUsed}
    return (true, {e with m_ext := none})
  else
    onState (setUp env sender e.m_newAddress endowment)
    if init = [] then return (true, e)
    else
      let ext : ExtVM :=
        {envInfo := env.m_envInfo
         myAddress := e.m_newAddress
         caller := sender
         origin
         value := endowment
         gasPrice
         data := .empty
         code := toBuffer init
         depth := e.m_depth
         isCreate := true
         staticCall := false}
      return (false, {e with m_ext := some ext, m_sub := {}})

/-- `right160`. -/
def right160 (h : H256) : Address := BitVec.ofNat 160 (fromBigEndian h.bytes)

def createOpcode (e : Executive) (sender : Address) (endowment gasPrice gas : U256)
    (init : Bytes) (origin : Address) : Execution (Bool × Executive) := do
  let nonce ← onState (State.getNonce sender)
  let list := RLP.list [.data (toBigEndian 20 sender.toNat), .data (toCompactBigEndian nonce.toNat)]
  executeCreate env {e with m_newAddress := right160 (sha3 list.encode)} sender endowment gasPrice
    gas init origin

def create2Opcode (e : Executive) (sender : Address) (endowment gasPrice gas : U256)
    (init : Bytes) (origin : Address) (salt : U256) : Execution (Bool × Executive) :=
  let preimage := [0xff] ++ toBigEndian 20 sender.toNat ++ toBigEndian 32 salt.toNat ++
    (sha3 init).bytes
  executeCreate env {e with m_newAddress := right160 (sha3 preimage)} sender endowment gasPrice gas
    init origin

end Executive

/-! ### The world as the interpreter sees it -/

/-- What an `ExtVM` knows of the levels below it. -/
structure Nested where
  call : ExtVM → CallParameters → Framed CallResult
  create : ExtVM → (endowment gas : U256) → Bytes → Instruction → U256 → Framed CreateResult

section ExtVM
variable (env : Env) (below : Nested)

namespace ExtVM

def exists_ (a : Address) : Execution Bool :=
  if env.m_sealEngine.evmSchedule.emptinessIsNonexistence then
    onState (State.accountNonemptyAndExisting a)
  else onState (State.addressInUse a)

def codeHashAt (a : Address) : Execution H256 := do
  if ← exists_ env a then onState (State.codeHash a) else return H256.zero

/-- `suicide`, without the note in `sub`. -/
def suicide (myAddress a : Address) : StateM Unit := do
  let held ← State.balance myAddress
  State.addBalance a held
  State.setBalance myAddress 0

def blockHash (number : U256) : Execution H256 :=
  let currentNumber := BitVec.ofNat 256 env.m_envInfo.number
  if currentNumber ≤ number ∨ number < max 256 currentNumber - 256 then return H256.zero
  else if env.m_envInfo.number < env.m_sealEngine.experimentalForkBlock + 256 then
    match env.m_envInfo.precedingHashes[(currentNumber - 1 - number).toNat]? with
    | some h => return h
    | none => throw .assertion
  else throw .blockhashContract

/-- The answers. -/
def answer (ext : ExtVM) : (q : Query) → Framed q.Reply
  | .store n => inFrame (onState (State.storage ext.myAddress n))
  | .setStore n v => inFrame (onState (State.setStorage ext.myAddress n v))
  | .originalStorageValue key => inFrame (onState (State.originalStorageValue ext.myAddress key))
  | .balance a => inFrame (onState (State.balance a))
  | .codeAt a => inFrame do return toBuffer (← onState (State.code a))
  | .codeSizeAt a => inFrame do return (← onState (State.code a)).length
  | .codeHashAt a => inFrame (codeHashAt env a)
  | .exists a => inFrame (exists_ env a)
  | .suicide a => do
    inFrame (onState (suicide ext.myAddress a))
    modify fun f => (f.1, {f.2 with suicides := insert ext.myAddress f.2.suicides})
  | .create endowment gas code op salt => below.create ext endowment gas code op salt
  | .call params => below.call ext params
  | .log topics data =>
    modify fun f => (f.1, {f.2 with logs := f.2.logs ++ [⟨ext.myAddress, topics, data⟩]})
  | .blockHash number => inFrame (blockHash env number)
  | .refund amount => modify fun f => (f.1, {f.2 with refunds := f.2.refunds + amount})

/-- So many turns of the interpreter, on the code as it is prepared. -/
def turns (ext : ExtVM) (code : Code) : ℕ → VMState → Framed (Except VMException Flow × VMState)
  | 0, _ => throw .unfinished
  | n + 1, m => do
    let (r, m) ← (interpret false env.m_sealEngine.evmSchedule ext code m).handle
      (answer env below ext)
    if r = .ok .running then turns ext code n m else return (r, m)

/-- `LegacyVM::exec`. A turn that goes on takes gas, so that there are turns enough. -/
def exec (ext : ExtVM) (io_gas : U256) : Framed (Except VMException Flow × VMState) :=
  turns env below ext (optimize false ext.code.bytes) ((io_gas.setWidth 64).toNat + 1)
    {m_io_gas := io_gas.setWidth 64}

end ExtVM

namespace Executive

/-- The code of a created account is paid for and set. -/
def deposit (e : Executive) (ext : ExtVM) (out : Bytes) : Execution (Option Executive) := do
  let schedule := env.m_sealEngine.evmSchedule
  if schedule.maxCodeSize < out.length then return none
  else if out.length * schedule.createDataGas ≤ e.m_gas.toNat then
    onState (State.setCode ext.myAddress out)
    return some {e with m_gas := e.m_gas - BitVec.ofNat 256 (out.length * schedule.createDataGas)}
  else if schedule.exceptionalFailedCodeDeposit then return none
  else
    onState (State.setCode ext.myAddress [])
    return some e

/-- The handler of an exception of the interpreter. -/
def fail (e : Executive) (x : VMException) : Execution Executive :=
  revert {e with m_gas := 0, m_excepted := toTransactionException x}

/-- What is done when the interpreter comes back. -/
def finish (e : Executive) (ext : ExtVM) (m : VMState) :
    Except VMException Flow → Execution Executive
  | .ok _ =>
    if e.m_isCreation then do
      match ← deposit env e ext m.m_output with
      | some e => return e
      | none => fail e .outOfGas
    else return {e with m_output := toBuffer m.m_output}
  | .error (.revertInstruction output) => do
    let e ← revert e
    return {e with m_output := toBuffer output, m_excepted := .RevertInstruction}
  | .error .fault => throw .fault
  | .error x => fail e x

def go (e : Executive) : Execution Executive :=
  match e.m_ext with
  | none => return e
  | some ext => fun s =>
    match (ExtVM.exec env below ext e.m_gas).run (s, e.m_sub) with
    | (.ok (r, m), (s, sub)) =>
      (finish env {e with m_gas := m.m_io_gas.setWidth 256, m_sub := sub} ext m r).run s
    | (.error x, (s, _)) => (.error x, s)

/-- `go` where something is left to be done, with what it adds to the frame above. -/
def went (done : Bool) (e : Executive) : Framed Executive :=
  if done then return e
  else do
    let e ← inFrame (go env below e)
    modify fun f => (f.1, f.2.add e.m_sub)
    return e

end Executive

namespace ExtVM

/-- `call`, one level deeper. -/
def call (ext : ExtVM) (p : CallParameters) : Framed CallResult := do
  let (done, e) ← inFrame (Executive.call env {m_depth := ext.depth + 1} p ext.gasPrice ext.origin)
  let e ← Executive.went env below done e
  return ⟨transactionExceptionToEvmcStatusCode e.m_excepted, e.m_output, e.m_gas⟩

/-- `create`, one level deeper. -/
def create (ext : ExtVM) (endowment io_gas : U256) (code : Bytes) (op : Instruction)
    (salt : U256) : Framed CreateResult := do
  let e : Executive := {m_depth := ext.depth + 1}
  let (done, e) ← inFrame <|
    if op = .create then
      Executive.createOpcode env e ext.myAddress endowment ext.gasPrice io_gas code ext.origin
    else if op = .create2 then
      Executive.create2Opcode env e ext.myAddress endowment ext.gasPrice io_gas code ext.origin salt
    else throw .assertion
  let e ← Executive.went env below done e
  return ⟨transactionExceptionToEvmcStatusCode e.m_excepted, e.m_output, e.m_newAddress, e.m_gas⟩

end ExtVM

/-- So many levels. -/
def nested : ℕ → Nested
  | 0 => ⟨fun _ _ => throw .unfinished, fun _ _ _ _ _ _ => throw .unfinished⟩
  | n + 1 => ⟨ExtVM.call env (nested n), ExtVM.create env (nested n)⟩

/-- The limit of the depth. -/
def depthLimit : ℕ := 1024

/-! ### Transactions -/

namespace SealEngineFace
variable (sealEngine : SealEngineFace)

def baseGasRequired (t : SignedTransaction) : ℕ :=
  (t.data.map fun i => if i ≠ 0 then sealEngine.evmSchedule.txDataNonZeroGas
    else sealEngine.evmSchedule.txDataZeroGas).foldl (· + ·)
      (if t.isCreation then sealEngine.evmSchedule.txCreateGas else sealEngine.evmSchedule.txGas)

/-- `verifyTransaction`, with all requirements. -/
def verifyTransaction (t : SignedTransaction) (envInfo : EnvInfo) :
    Except TransactionException Unit :=
  if envInfo.number < sealEngine.EIP158ForkBlock ∧ t.isReplayProtected then
    .error .InvalidSignature
  else if envInfo.number < sealEngine.experimentalForkBlock ∧ t.hasZeroSignature then
    .error .InvalidSignature
  else if sealEngine.experimentalForkBlock ≤ envInfo.number ∧ t.hasZeroSignature ∧
      (t.value ≠ 0 ∨ t.gasPrice ≠ 0 ∨ t.nonce ≠ 0) then
    .error .InvalidZeroSignatureFormat
  else if sealEngine.homesteadForkBlock ≤ envInfo.number ∧ !t.isLowS then .error .InvalidSignature
  else if t.gas.toNat < sealEngine.baseGasRequired t then .error .OutOfGasIntrinsic
  else if envInfo.gasLimit.toNat < envInfo.gasUsed.toNat + t.gas.toNat then
    .error .BlockGasLimitReached
  else .ok ()

end SealEngineFace

namespace Executive

/-- `sender()`. -/
def senderOf (t : SignedTransaction) : Execution Address :=
  if t.hasZeroSignature then return MaxAddress
  else match t.sender with
    | some a => return a
    | none => throw (.rejected .InvalidSignature)

def initialise (e : Executive) (t : SignedTransaction) : Execution Executive := do
  let e := {e with
    m_t := some t
    m_baseGasRequired := env.m_sealEngine.baseGasRequired t}
  lift ((env.m_sealEngine.verifyTransaction t env.m_envInfo).mapError .rejected)
  if t.hasZeroSignature then return e
  else
    let sender ← senderOf t
    let nonceReq ← onState (State.getNonce sender)
    if t.nonce ≠ nonceReq then throw (.rejected .InvalidNonce)
    else
      let totalCost := t.value.toNat + t.gas.toNat * t.gasPrice.toNat
      let held ← onState (State.balance sender)
      if held.toNat < totalCost then throw (.rejected .NotEnoughCash)
      else return {e with m_gasCost := BitVec.ofNat 256 (t.gas.toNat * t.gasPrice.toNat)}

def execute (e : Executive) (t : SignedTransaction) : Execution (Bool × Executive) := do
  let sender ← senderOf t
  onState (State.subBalance sender e.m_gasCost)
  let gas := t.gas - BitVec.ofNat 256 e.m_baseGasRequired
  if t.isCreation then createOpcode env e sender t.value t.gasPrice gas t.data sender
  else
    let p : CallParameters :=
      {senderAddress := sender
       codeAddress := t.receiveAddress
       receiveAddress := t.receiveAddress
       valueTransfer := t.value
       apparentValue := t.value
       gas
       data := t.data}
    call env e p t.gasPrice sender

/-- `static_cast<int64_t>`. -/
def toInt64 (x : U256) : ℤ := (x.setWidth 64).toInt

/-- The refunds, half of the gas that was used at most. -/
def refunded (e : Executive) (t : SignedTransaction) : Execution Executive :=
  match e.m_ext with
  | none => return e
  | some _ =>
    let sub := {e.m_sub with
      refunds := e.m_sub.refunds +
        env.m_sealEngine.evmSchedule.suicideRefundGas * e.m_sub.suicides.card}
    if sub.refunds < 0 then throw .assertion
    else
      let maxRefund := (toInt64 t.gas - toInt64 e.m_gas).tdiv 2
      return {e with m_sub := sub, m_gas := e.m_gas + BitVec.ofInt 256 (min maxRefund sub.refunds)}

/-- `kill`, one after another. -/
def killAll : List Address → StateM Unit
  | [] => return ()
  | a :: l => do
    State.kill a
    killAll l

def finalize (e : Executive) (t : SignedTransaction) : Execution (Bool × Executive) := do
  let e ← refunded env e t
  let sender ← senderOf t
  onState (State.addBalance sender (e.m_gas * t.gasPrice))
  onState (State.addBalance env.m_envInfo.author ((t.gas - e.m_gas) * t.gasPrice))
  if e.m_ext.isSome then
    onState (killAll (e.m_sub.suicides.sort (· ≤ ·)))
    return (e.m_excepted = .None, {e with m_logs := e.m_sub.logs})
  else return (e.m_excepted = .None, e)

/-- `initialize`, `execute`, `go` and `finalize`, in this order. -/
def transact (t : SignedTransaction) : Execution (Bool × Executive) := do
  let e ← initialise env {} t
  let (done, e) ← execute env e t
  let e ← if done then pure e else go env (nested env depthLimit) e
  finalize env e t

end Executive

/-- `State::executeTransaction`: what a transaction that throws has done is undone. -/
def executeTransaction (t : SignedTransaction) : Execution (Bool × Executive) := fun s =>
  match (Executive.transact env t).run s with
  | (.ok r, s') => (.ok r, s')
  | (.error x, s') => (.error x, s'.rollback s.savepoint)

end ExtVM
end Aleth.Ethereum
