import Aleth.Evm.Instruction
import Aleth.Devcore.Sha3
import Aleth.Structure.Asking

/-! What a virtual machine sees of the world (`ExtVMFace.h`, `VMFace.h`).

`ExtVM` holds what is fixed for a frame; the virtual methods of `ExtVMFace` are
the questions a machine may ask (`Query`), and their results the answers. -/
namespace Aleth.Evm
open Devcore

/-- A vector of bytes: its size is a `size_t`. -/
structure Buffer where
  bytes : Bytes
  size_lt : bytes.length < 2 ^ 64

def Buffer.empty : Buffer := ⟨[], by decide⟩

/-- The exceptions of `VMFace.h`. -/
inductive VMException where
  /-- None of them: an access that has no meaning. -/
  | fault
  | badInstruction
  | badJumpDestination
  | outOfGas
  | outOfStack
  | stackUnderflow
  | disallowedStateChange
  | bufferOverrun
  | revertInstruction (output : Bytes)
deriving DecidableEq

structure LogEntry where
  address : Address
  topics : List H256
  data : Bytes
deriving DecidableEq

/-- `SubState`. The refund counter is an `int64_t`; it may be negative. -/
structure SubState where
  suicides : Finset Address := ∅
  logs : List LogEntry := []
  refunds : ℤ := 0

namespace SubState

/-- `operator+=`. -/
def add (s t : SubState) : SubState where
  suicides := s.suicides ∪ t.suicides
  logs := s.logs ++ t.logs
  refunds := s.refunds + t.refunds

def clear : SubState := {}

end SubState

structure CallParameters where
  senderAddress : Address
  codeAddress : Address
  receiveAddress : Address
  valueTransfer : U256
  apparentValue : U256
  gas : U256
  data : Bytes
  staticCall : Bool := false

/-- The status codes that `transactionExceptionToEvmcStatusCode` gives. -/
inductive StatusCode where
  | success
  | revert
  | outOfGas
  | undefinedInstruction
  | stackOverflow
  | stackUnderflow
  | badJumpDestination
  | failure
deriving DecidableEq

/-- `CallResult`, with the gas that is left in the parameters. -/
structure CallResult where
  status : StatusCode
  output : Buffer
  gas : U256

/-- `CreateResult`, with the gas that is left in `io_gas`. -/
structure CreateResult where
  status : StatusCode
  output : Buffer
  address : Address
  gas : U256

/-- What is read of `EnvInfo`; number and timestamp are not negative. -/
structure EnvInfo where
  number : ℕ
  author : Address
  timestamp : ℕ
  difficulty : U256
  gasLimit : U256
  gasUsed : U256
  /-- `header().parentHash()` and what precedes it, newest first. -/
  precedingHashes : List H256

/-- The data of `ExtVMFace`. -/
structure ExtVM where
  envInfo : EnvInfo
  myAddress : Address
  caller : Address
  origin : Address
  value : U256
  gasPrice : U256
  data : Buffer
  code : Buffer
  depth : ℕ
  isCreate : Bool
  staticCall : Bool

/-- The virtual methods of `ExtVMFace`, and the updates of its refund counter. -/
inductive Query where
  | store (n : U256)
  | setStore (n v : U256)
  | originalStorageValue (key : U256)
  | balance (a : Address)
  | codeAt (a : Address)
  | codeSizeAt (a : Address)
  | codeHashAt (a : Address)
  | exists (a : Address)
  | suicide (a : Address)
  | create (endowment io_gas : U256) (code : Bytes) (op : Instruction) (salt : U256)
  | call (params : CallParameters)
  | log (topics : List H256) (data : Bytes)
  | blockHash (number : U256)
  /-- `sub.refunds += amount`. -/
  | refund (amount : ℤ)

abbrev Query.Reply : Query → Type
  | .store _ => U256
  | .setStore _ _ => Unit
  | .originalStorageValue _ => U256
  | .balance _ => U256
  | .codeAt _ => Buffer
  | .codeSizeAt _ => ℕ
  | .codeHashAt _ => H256
  | .exists _ => Bool
  | .suicide _ => Unit
  | .create _ _ _ _ _ => CreateResult
  | .call _ => CallResult
  | .log _ _ => Unit
  | .blockHash _ => H256
  | .refund _ => Unit

end Aleth.Evm
