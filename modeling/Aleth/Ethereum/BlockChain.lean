import Aleth.Devcore.Bytes
import Aleth.Structure.Throwing
import Aleth.Structure.ReadThrough

/-! The block chain database (`BlockChain.cpp`).

Blocks are stored by hash, and a second database holds what is derived from
them: the details that make the blocks a tree, the canonical block of each
number, and the block of each canonical transaction. Every table has a cache in
front of it. Importing a block may move the head to another branch, and then
rewrites the canonical part along the route between the branches.

A header carries its own hash. Block execution is outside: an import is told
what the checks on timestamp, seal and state came to. Log blooms and receipts
are stored and cached the same way but not looked at here. -/
namespace Aleth.Ethereum
open Devcore ReadThrough

def c_invalidNumber : ℕ := 2 ^ 32 - 1

def Invalid256 : ℕ := 2 ^ 256 - 1

structure BlockHeader where
  hash : H256
  parentHash : H256
  number : ℕ
  difficulty : ℕ
  gasUsed : ℕ
deriving DecidableEq

/-- A block that passed the checks it can be given on its own, with the hashes of its
transactions. -/
structure VerifiedBlock where
  info : BlockHeader
  transactions : List H256
deriving DecidableEq

structure BlockDetails where
  number : ℕ
  totalDifficulty : ℕ
  parent : H256
  children : List H256
deriving DecidableEq

def NullBlockDetails : BlockDetails where
  number := c_invalidNumber
  totalDifficulty := Invalid256
  parent := H256.zero
  children := []

def BlockDetails.isNull (d : BlockDetails) : Bool := d.number = c_invalidNumber

structure TransactionAddress where
  blockHash : H256
  index : ℕ
deriving DecidableEq

structure ImportRoute where
  deadBlocks : List H256
  liveBlocks : List H256
  goodTransactions : List H256
deriving DecidableEq

inductive ImportException where
  | alreadyHaveBlock
  | unknownParent
  | invalidParentHash
  | invalidNumber
  /-- A check on the block's own contents failed: timestamp, seal, transactions, state. -/
  | rejected
  /-- A block that should be in the database is not. -/
  | invalidBlock
  /-- The process gives up, `exit(-1)`. -/
  | exit
  | nontermination
deriving DecidableEq

/-! ### The databases -/

/-- The parts of `m_extrasDB`, each under keys of its own. -/
structure Extras where
  details : H256 → Option BlockDetails
  blockHash : ℕ → Option H256
  transactionAddress : H256 → Option TransactionAddress

inductive ExtrasWrite where
  | details (h : H256) (d : BlockDetails)
  | blockHash (n : ℕ) (h : H256)
  | transactionAddress (t : H256) (a : TransactionAddress)

def Extras.insert (e : Extras) : ExtrasWrite → Extras
  | .details h d => {e with details := Function.update e.details h (some d)}
  | .blockHash n h => {e with blockHash := Function.update e.blockHash n (some h)}
  | .transactionAddress t a =>
    {e with transactionAddress := Function.update e.transactionAddress t (some a)}

/-- A batch of writes takes effect in the order it was collected. -/
def Extras.commit (e : Extras) (batch : List ExtrasWrite) : Extras := batch.foldl Extras.insert e

structure BlockChain where
  m_genesis : VerifiedBlock
  tieBreakingGas : Bool
  m_blocksDB : H256 → Option VerifiedBlock
  m_extrasDB : Extras
  m_blocks : H256 → Option VerifiedBlock
  m_details : H256 → Option BlockDetails
  m_blockHashes : ℕ → Option H256
  m_transactionAddresses : H256 → Option TransactionAddress
  m_lastBlockHash : H256
  m_lastBlockNumber : ℕ

abbrev Chain := Throwing BlockChain ImportException

namespace BlockChain

def genesisHash (bc : BlockChain) : H256 := bc.m_genesis.info.hash

/-- `open` on an empty database. -/
def fresh (genesis : VerifiedBlock) (tieBreakingGas : Bool) : BlockChain where
  m_genesis := genesis
  tieBreakingGas := tieBreakingGas
  m_blocksDB := fun _ => none
  m_extrasDB :=
    { details := Function.update (fun _ => none) genesis.info.hash
        (some ⟨0, genesis.info.difficulty, H256.zero, []⟩)
      blockHash := fun _ => none
      transactionAddress := fun _ => none }
  m_blocks := fun _ => none
  m_details := Function.update (fun _ => none) genesis.info.hash
    (some ⟨0, genesis.info.difficulty, H256.zero, []⟩)
  m_blockHashes := fun _ => none
  m_transactionAddresses := fun _ => none
  m_lastBlockHash := genesis.info.hash
  m_lastBlockNumber := 0

/-! ### Queries -/

/-- `details(h)`: `queryExtras` on the table of details. -/
def details (h : H256) : Chain BlockDetails := fun bc =>
  let q := query bc.m_details bc.m_extrasDB.details h
  (.ok (q.1.getD NullBlockDetails), {bc with m_details := q.2})

def number (h : H256) : Chain ℕ := do return (← details h).number

/-- `numberHash(i)`: `queryExtras` on the table of canonical blocks. -/
def numberHash (i : ℕ) : Chain H256 := fun bc =>
  if i = 0 then (.ok bc.genesisHash, bc)
  else
    let q := query bc.m_blockHashes bc.m_extrasDB.blockHash i
    (.ok (q.1.getD H256.zero), {bc with m_blockHashes := q.2})

/-- `block(h)`; `none` is the empty string. -/
def block (h : H256) : Chain (Option VerifiedBlock) := fun bc =>
  if h = bc.genesisHash then (.ok (some bc.m_genesis), bc)
  else
    let q := query bc.m_blocks bc.m_blocksDB h
    (.ok q.1, {bc with m_blocks := q.2})

/-- `headerData(h)`, decoded. -/
def headerData (h : H256) : Chain (Option BlockHeader) := do
  return (← block h).map VerifiedBlock.info

def isKnown (h : H256) (isCurrent : Bool) : Chain Bool := do
  let bc ← Throwing.get
  if h = bc.genesisHash then return true
  else if (bc.m_blocks h).isNone && (bc.m_blocksDB h).isNone then return false
  else if (bc.m_details h).isNone && (bc.m_extrasDB.details h).isNone then return false
  else if !isCurrent then return true
  else return (← number h) ≤ bc.m_lastBlockNumber

/-! ### The route between two blocks -/

/-- `n` steps from a block towards the genesis block, noting the blocks left. -/
def climb (visit : Bool) : (n : ℕ) → (h : H256) → (ret : List H256) → Chain (List H256 × H256)
  | 0, h, ret => return (ret, h)
  | n + 1, h, ret => do
    let ret := if visit then ret ++ [h] else ret
    let d ← details h
    climb visit n d.parent ret

/-- Both blocks move to their parents until they meet. -/
def meet (common pre post : Bool) : (fuel : ℕ) → (h to_ : H256) → (ret back : List H256) →
    Chain (List H256 × List H256 × H256)
  | 0, _, _, _, _ => Throwing.throw .nontermination
  | fuel + 1, h, to_, ret, back => do
    let ret := if pre && (h ≠ to_ || common) then ret ++ [h] else ret
    let back := if post && (h ≠ to_ || (!pre && common)) then back ++ [to_] else back
    if h = to_ then return (ret, back, h)
    else
      let d ← details h
      let e ← details to_
      meet common pre post fuel d.parent e.parent ret back

def treeRoute (h to_ : H256) (common pre post : Bool) : Chain (List H256 × H256 × ℕ) := do
  if h = H256.zero || to_ = H256.zero then return ([], H256.zero, 0)
  else
    let fromDetails ← details h
    let toDetails ← details to_
    if fromDetails.isNull || toDetails.isNull then return ([], H256.zero, 0)
    else
      let fn := fromDetails.number
      let tn := toDetails.number
      let (ret, h) ← climb pre (fn - tn) h []
      let (back, to_) ← climb post (tn - fn) to_ []
      let (ret, back, h) ← meet common pre post (min fn tn + 1) h to_ ret back
      let i := ret.length - if common && !ret.isEmpty && !back.isEmpty then 1 else 0
      return (ret ++ back.reverse, h, i)

/-! ### Importing -/

/-- Caches are cleared from `firstInvalid` up to the present head. -/
def clearCachesDuringChainReversion (firstInvalid : ℕ) (bc : BlockChain) : BlockChain :=
  {bc with
    m_blockHashes := fun i =>
      if firstInvalid ≤ i ∧ i < bc.m_lastBlockNumber + 1 then none else bc.m_blockHashes i
    m_transactionAddresses := fun _ => none}

/-- `m_details[parent].children.push_back(h)`. -/
def addChild (parent h : H256) (bc : BlockChain) : BlockChain :=
  let d := (bc.m_details parent).getD NullBlockDetails
  {bc with
    m_details := Function.update bc.m_details parent
      (some {d with children := d.children ++ [h]})}

/-- The canonical entries of one block. -/
def canonicalWrites (b : VerifiedBlock) : List ExtrasWrite :=
  (b.transactions.zipIdx.map fun e => .transactionAddress e.1 ⟨b.info.hash, e.2⟩) ++
    [.blockHash b.info.number b.info.hash]

/-- A block of a route; the one being imported is not in the database yet. -/
def routeBlock (b : VerifiedBlock) (i : H256) : Chain (Option VerifiedBlock) :=
  if i = b.info.hash then return some b else block i

/-- The canonical entries of the blocks of a route, from the new head back to `common`. -/
def routeWrites (b : VerifiedBlock) (common : H256) : List H256 → Chain (List ExtrasWrite)
  | [] => return []
  | i :: route =>
    if i = common then return []
    else do
      match ← routeBlock b i with
      | none => Throwing.throw .invalidBlock
      | some t => do
        let rest ← routeWrites b common route
        return canonicalWrites t ++ rest

/-- The block would be a better head than the present one. -/
def isBetter (b : VerifiedBlock) (totalDifficulty : ℕ) : Chain Bool := do
  let bc ← Throwing.get
  let last ← details bc.m_lastBlockHash
  if last.totalDifficulty < totalDifficulty then return true
  else if bc.tieBreakingGas && totalDifficulty = last.totalDifficulty then
    match ← headerData bc.m_lastBlockHash with
    | none => Throwing.throw .invalidBlock
    | some info => return info.gasUsed < b.info.gasUsed
  else return false

def commit (b : VerifiedBlock) (extrasWriteBatch : List ExtrasWrite) (bc : BlockChain) :
    BlockChain :=
  {bc with
    m_blocksDB := Function.update bc.m_blocksDB b.info.hash (some b)
    m_extrasDB := bc.m_extrasDB.commit extrasWriteBatch}

def setHead (b : VerifiedBlock) (bc : BlockChain) : BlockChain :=
  {bc with m_lastBlockHash := b.info.hash, m_lastBlockNumber := b.info.number}

/-- What the route tells about the blocks that left and entered the canonical chain. -/
def importRoute (route : List H256) (common : H256) (b : VerifiedBlock) : ImportRoute where
  deadBlocks := route.takeWhile (· ≠ common)
  liveBlocks := (route.dropWhile (· ≠ common)).filter (· ≠ common)
  goodTransactions := b.transactions

/-- Where the route leaves the chain of the old head, what is known above is forgotten. -/
def revert (common last : H256) : Chain Unit :=
  if common = last then return ()
  else do
    let n ← number common
    Throwing.modify (clearCachesDuringChainReversion (n + 1))

/-- The block becomes the head: the route to it is canonical from now on. -/
def makeHead (b : VerifiedBlock) (extrasWriteBatch : List ExtrasWrite) : Chain ImportRoute := do
  let bc ← Throwing.get
  let last := bc.m_lastBlockHash
  let (route, common, _) ← treeRoute last b.info.parentHash true true true
  let route := route ++ [b.info.hash]
  revert common last
  let writes ← routeWrites b common route.reverse
  Throwing.modify (commit b (extrasWriteBatch ++ writes))
  Throwing.modify (setHead b)
  return importRoute route common b

def insertBlockAndExtras (b : VerifiedBlock) (totalDifficulty : ℕ) : Chain ImportRoute := do
  let _ ← details b.info.parentHash
  Throwing.modify (addChild b.info.parentHash b.info.hash)
  let bc ← Throwing.get
  let extrasWriteBatch : List ExtrasWrite :=
    [.details b.info.parentHash ((bc.m_details b.info.parentHash).getD NullBlockDetails),
      .details b.info.hash ⟨b.info.number, totalDifficulty, b.info.parentHash, []⟩]
  if ← isBetter b totalDifficulty then makeHead b extrasWriteBatch
  else do
    Throwing.modify (commit b extrasWriteBatch)
    return importRoute [] H256.zero b

def checkBlockIsNew (b : VerifiedBlock) : Chain Unit := do
  if ← isKnown b.info.hash true then Throwing.throw .alreadyHaveBlock else return ()

/-- The checks of `verifyBlock` that connect a header to its parent. -/
def verifyBlock (h : BlockHeader) : Chain Unit := do
  match ← headerData h.parentHash with
  | none => Throwing.throw .invalidParentHash
  | some parent =>
    if 2 ^ 32 - 1 < h.number then Throwing.throw .invalidNumber
    else if h.number ≠ parent.number + 1 then Throwing.throw .invalidNumber
    else return ()

/-- `import`. `verdict` is what the other checks and the enactment of the block come to. -/
def importBlock (b : VerifiedBlock) (mustBeNew verdict : Bool) : Chain ImportRoute := do
  (if mustBeNew then checkBlockIsNew b else return ())
  if !(← isKnown b.info.parentHash false) then Throwing.throw .unknownParent
  else
    let pd ← details b.info.parentHash
    if pd.isNull then Throwing.throw .exit
    else
      verifyBlock b.info
      if !verdict then Throwing.throw .rejected
      else insertBlockAndExtras b ((pd.totalDifficulty + b.info.difficulty) % 2 ^ 256)

/-- `garbageCollect`, for whatever it finds unused. Canonical hashes are never among it. -/
def garbageCollect (blocks details transactions : List H256) (bc : BlockChain) : BlockChain :=
  {bc with
    m_blocks := fun h => if h ∈ blocks then none else bc.m_blocks h
    m_details := fun h => if h ∈ details then none else bc.m_details h
    m_transactionAddresses := fun h =>
      if h ∈ transactions then none else bc.m_transactionAddresses h}

end BlockChain
end Aleth.Ethereum
