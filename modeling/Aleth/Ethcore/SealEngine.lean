import Aleth.Ethcore.BlockHeader

/-! What a header derives from its parent (`SealEngine.cpp`).

The gas limit and the difficulty of a new block are computed from its parent, and
verification checks them against bounds and against the same computation. The
difficulty is an unbounded integer, except that before the Homestead fork it is
put together from words first; the block number of the ice age is a word of 32
bits. -/
namespace Aleth.Ethcore
open Devcore

structure ChainOperationParams where
  maximumExtraDataSize : U256
  minGasLimit : U256
  maxGasLimit : U256
  gasLimitBoundDivisor : U256
  homesteadForkBlock : U256
  byzantiumForkBlock : U256
  constantinopleForkBlock : U256
  daoHardforkBlock : U256
  minimumDifficulty : U256
  difficultyBoundDivisor : U256
  durationLimit : U256

inductive Strictness where
  | checkEverything
  | quickNonce
  | ignoreSeal
  | checkNothingNew
deriving DecidableEq

inductive SealException where
  | genesisBlockCannotBeCalculated
  | divisionByZero
  | rlp (e : RLPException)
  | invalidNumber
  | tooMuchGasUsed (required got : ℕ)
  | invalidParentHash
  | invalidTimestamp
  | invalidDifficulty (required got : ℕ)
  | invalidGasLimit (required got : ℕ)
  | invalidGasLimitOfParent (min got max : ℤ)
  | extraDataTooBig (required got : ℕ) (extraData : Bytes)
  | extraDataIncorrect (comment : String)
deriving DecidableEq

/-- A signed number where a `u256` is wanted. -/
def wide (i : I64) : U256 := i.signExtend 256

/-- Division of words throws where boost does. -/
def divide (a b : U256) : Except SealException U256 :=
  if b = 0 then .error .divisionByZero else .ok (a / b)

section
variable [Sha3]

/-- `sha3(rlpList())`. -/
def EmptyListSHA3 : H256 := sha3 [0xc0]

namespace BlockHeader

/-- `operator bool`. -/
def isHeader (h : BlockHeader) : Bool := 0 ≤ h.m_timestamp.toInt

def hasUncles (h : BlockHeader) : Bool := h.m_sha3Uncles ≠ EmptyListSHA3

def populateFromParent (h parent : BlockHeader) : BlockHeader :=
  {h with
    m_stateRoot := parent.m_stateRoot
    m_number := parent.m_number + 1
    m_parentHash := parent.m_hash
    m_gasLimit := parent.m_gasLimit
    m_difficulty := parent.m_difficulty
    m_gasUsed := 0}

def setDifficulty (h : BlockHeader) (v : U256) : BlockHeader := {h with m_difficulty := v}.noteDirty

def setGasLimit (h : BlockHeader) (v : U256) : BlockHeader := {h with m_gasLimit := v}.noteDirty

/-- `verify` without the bytes of the block. -/
def verify (s : Strictness) (h parent : BlockHeader) : Except SealException Unit := do
  if 2 ^ 32 - 1 < h.m_number.toInt then throw .invalidNumber
  if s ≠ .checkNothingNew ∧ h.m_gasLimit < h.m_gasUsed then
    throw (.tooMuchGasUsed h.m_gasLimit.toNat h.m_gasUsed.toNat)
  if parent.isHeader then
    if h.m_parentHash ≠ H256.zero then
      let (parentHash, _) ← (parent.hash .withSeal).mapError .rlp
      if parentHash ≠ h.m_parentHash then throw .invalidParentHash
    if h.m_timestamp.toInt ≤ parent.m_timestamp.toInt then throw .invalidTimestamp
    if h.m_number ≠ parent.m_number + 1 then throw .invalidNumber

end BlockHeader

/-- The check of the difficulty against the least one. -/
def checkMinimumDifficulty (p : ChainOperationParams) (h : BlockHeader) :
    Except SealException Unit :=
  if h.m_difficulty < p.minimumDifficulty then
    .error (.invalidDifficulty p.minimumDifficulty.toNat h.m_difficulty.toNat)
  else .ok ()

/-- The checks of the gas limit against the bounds of the chain. -/
def checkGasLimit (p : ChainOperationParams) (h : BlockHeader) : Except SealException Unit :=
  if h.m_gasLimit < p.minGasLimit then
    .error (.invalidGasLimit p.minGasLimit.toNat h.m_gasLimit.toNat)
  else if p.maxGasLimit < h.m_gasLimit then
    .error (.invalidGasLimit p.maxGasLimit.toNat h.m_gasLimit.toNat)
  else .ok ()

/-- The check of the gas limit against that of the parent. -/
def checkGasLimitOfParent (p : ChainOperationParams) (h parent : BlockHeader) :
    Except SealException Unit := do
  let step ← divide parent.m_gasLimit p.gasLimitBoundDivisor
  if h.m_gasLimit < p.minGasLimit ∨ p.maxGasLimit < h.m_gasLimit ∨
      h.m_gasLimit ≤ parent.m_gasLimit - step ∨ parent.m_gasLimit + step ≤ h.m_gasLimit then
    throw (.invalidGasLimitOfParent (parent.m_gasLimit.toNat - step.toNat) h.m_gasLimit.toNat
      (parent.m_gasLimit.toNat + step.toNat))

/-- "dao-hard-fork". -/
def daoExtraData : Bytes :=
  [0x64, 0x61, 0x6f, 0x2d, 0x68, 0x61, 0x72, 0x64, 0x2d, 0x66, 0x6f, 0x72, 0x6b]

/-- The checks of the extra data. -/
def checkExtraData (p : ChainOperationParams) (h : BlockHeader) : Except SealException Unit :=
  if h.m_number ≠ 0 ∧ p.maximumExtraDataSize.toNat < h.m_extraData.length then
    .error (.extraDataTooBig p.maximumExtraDataSize.toNat h.m_extraData.length h.m_extraData)
  else if p.daoHardforkBlock ≠ 0 ∧ p.daoHardforkBlock ≤ p.daoHardforkBlock + 9 ∧
      p.daoHardforkBlock ≤ wide h.m_number ∧ wide h.m_number ≤ p.daoHardforkBlock + 9 ∧
      h.m_extraData ≠ daoExtraData then
    .error (.extraDataIncorrect "Received block from the wrong fork (invalid extradata).")
  else .ok ()

/-- `SealEngineFace::verify` without the bytes of the block. -/
def SealEngineFace.verify (p : ChainOperationParams) (s : Strictness) (h parent : BlockHeader) :
    Except SealException Unit := do
  h.verify s parent
  if s ≠ .checkNothingNew then
    checkMinimumDifficulty p h
    checkGasLimit p h
    checkExtraData p h
  if parent.isHeader then checkGasLimitOfParent p h parent

/-! ### The difficulty -/

def c_expDiffPeriod : ℕ := 100000

/-- The Frontier adjustment: words. -/
def frontierTarget (p : ChainOperationParams) (h parent : BlockHeader) :
    Except SealException ℤ := do
  let step ← divide parent.m_difficulty p.difficultyBoundDivisor
  let target := if wide parent.m_timestamp + p.durationLimit ≤ wide h.m_timestamp then
    parent.m_difficulty - step else parent.m_difficulty + step
  return target.toNat

/-- The adjustment from Homestead on: unbounded integers, with division towards zero. -/
def homesteadTarget (p : ChainOperationParams) (h parent : BlockHeader) : ℤ :=
  let timestampDiff := h.m_timestamp.toInt - parent.m_timestamp.toInt
  let adjFactor := if wide h.m_number < p.byzantiumForkBlock then
      max (1 - timestampDiff.tdiv 10) (-99)
    else max ((if parent.hasUncles then 2 else 1) - timestampDiff.tdiv 9) (-99)
  parent.m_difficulty.toNat + (parent.m_difficulty / 2048).toNat * adjFactor

/-- The block number that the ice age goes by. -/
def exponentialIceAgeBlockNumber (p : ChainOperationParams) (h parent : BlockHeader) : ℕ :=
  let number := (parent.m_number + 1).toNat % 2 ^ 32
  if p.constantinopleForkBlock ≤ wide h.m_number then
    if 5000000 ≤ number then number - 5000000 else 0
  else if p.byzantiumForkBlock ≤ wide h.m_number then
    if 3000000 ≤ number then number - 3000000 else 0
  else number

def calculateEthashDifficulty (p : ChainOperationParams) (h parent : BlockHeader) :
    Except SealException U256 := do
  if h.m_number = 0 then throw .genesisBlockCannotBeCalculated
  let target ← if wide h.m_number < p.homesteadForkBlock then frontierTarget p h parent
    else .ok (homesteadTarget p h parent)
  let periodCount := exponentialIceAgeBlockNumber p h parent / c_expDiffPeriod
  let o := if 1 < periodCount then target + 2 ^ (periodCount - 2) else target
  let o := max (p.minimumDifficulty.toNat : ℤ) o
  return BitVec.ofInt 256 (min o (2 ^ 256 - 1))

/-! ### The gas limit -/

def Invalid256 : U256 := BitVec.allOnes 256

def calculateGasLimit (p : ChainOperationParams) (h : BlockHeader) (gasFloorTarget : U256) :
    Except SealException U256 := do
  let gasFloorTarget := if gasFloorTarget = Invalid256 then 3141562 else gasFloorTarget
  let step ← divide h.m_gasLimit p.gasLimitBoundDivisor
  if h.m_gasLimit < gasFloorTarget then
    return min gasFloorTarget (h.m_gasLimit + step - 1)
  else
    let used ← divide (h.m_gasUsed * 6 / 5) p.gasLimitBoundDivisor
    return max gasFloorTarget (h.m_gasLimit - step + 1 + used)

/-! ### The engines -/

/-- `SealEngineFace::populateFromParent`, with the difficulty and the gas limit. -/
def populateFromParent (p : ChainOperationParams) (h parent : BlockHeader) :
    Except SealException BlockHeader := do
  let h := h.populateFromParent parent
  let h := h.setDifficulty (← calculateEthashDifficulty p h parent)
  return h.setGasLimit (← calculateGasLimit p h Invalid256)

/-- The check of `verify` of `Ethash` and of `NoProof`: the difficulty against the computed one. -/
def checkDifficulty (p : ChainOperationParams) (h parent : BlockHeader) :
    Except SealException Unit := do
  let expected ← calculateEthashDifficulty p h parent
  if h.m_difficulty ≠ expected then
    throw (.invalidDifficulty expected.toNat h.m_difficulty.toNat)

/-- What `verify` checks beside the seal. -/
def verify (p : ChainOperationParams) (s : Strictness) (h parent : BlockHeader) :
    Except SealException Unit := do
  SealEngineFace.verify p s h parent
  if parent.isHeader then checkDifficulty p h parent

def Ethash.populateFromParent := @Ethcore.populateFromParent

def NoProof.populateFromParent := @Ethcore.populateFromParent

end
end Aleth.Ethcore
