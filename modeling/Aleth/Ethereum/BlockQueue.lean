import Aleth.Ethcore.BlockHeader

/-! The block queue (`BlockQueue.cpp`, `BlockQueue.h`).

A block that is imported waits in `m_unknown` for its parent, in `m_future` for
its time, or goes through `m_unverified`, `m_verifying` and `m_verified`. The
entry of a block that a verifier has taken keeps its place in `m_verifying`: a
header that is otherwise empty, with the hash in the field of the uncles.

`removeIf` removes the right blocks and returns the wrong ones: the last of the
queue, as `std::remove_if` leaves them behind. -/
namespace Aleth.Ethereum
open Devcore Ethcore

/-- `SizedBlockMap`: key, hash and block data, by key and then by age. -/
abbrev SizedBlockMap (K : Type) := List (K × H256 × Bytes)

namespace SizedBlockMap
variable {K : Type}

/-- `insert`: behind the equal keys. -/
def insert [LT K] [DecidableLT K] (key : K) (hash : H256) (blockData : Bytes)
    (m : SizedBlockMap K) : SizedBlockMap K :=
  m.takeWhile (fun e => ¬key < e.1) ++ (key, hash, blockData) :: m.dropWhile (fun e => ¬key < e.1)

/-- `removeByKeyEqual`: what is removed, and what is left. -/
def removeByKeyEqual [DecidableEq K] (key : K) (m : SizedBlockMap K) :
    List (H256 × Bytes) × SizedBlockMap K :=
  ((m.filter fun e => e.1 = key).map Prod.snd, m.filter fun e => e.1 ≠ key)

def removeByKeyNotGreater [LT K] [DecidableLT K] (key : K) (m : SizedBlockMap K) :
    List (H256 × Bytes) × SizedBlockMap K :=
  ((m.filter fun e => ¬key < e.1).map Prod.snd, m.filter fun e => key < e.1)

/-- The hashes of the blocks. -/
def hashes (m : SizedBlockMap K) : List H256 := m.map fun e => e.2.1

end SizedBlockMap

/-! ### Queues of blocks -/

namespace SizedBlockQueue

/-- What `std::remove_if` leaves in the places behind the elements it keeps: what was there
before, or what is left of it when it was moved to the front. -/
def remains {α : Type} (moved : α → α) (pred : α → Bool) (queue : List α) : List α :=
  (queue.drop (queue.filter (!pred ·)).length).map fun x => if pred x then x else moved x

/-- `removeIf`: what it returns, and the queue. -/
def removeIf {α : Type} (moved : α → α) (pred : α → Bool) (queue : List α) : List α × List α :=
  (remains moved pred queue, queue.filter (!pred ·))

end SizedBlockQueue

namespace BlockQueue

structure UnverifiedBlock where
  hash : H256
  parentHash : H256
  blockData : Bytes
deriving DecidableEq

/-- `VerifiedBlock`: the header that was verified, and the block. -/
structure VerifiedBlock where
  info : BlockHeader
  blockData : Bytes
deriving DecidableEq

/-- Hashes are copied and bytes are moved. -/
def UnverifiedBlock.moved (b : UnverifiedBlock) : UnverifiedBlock := {b with blockData := []}

def VerifiedBlock.moved (b : VerifiedBlock) : VerifiedBlock := {b with blockData := []}

/-- `info.hash()`: the memo, which is set when a header is read. -/
def VerifiedBlock.infoHash (b : VerifiedBlock) : H256 := b.info.m_hash

/-- The entry of a block that is being verified. -/
def placeholder (work : UnverifiedBlock) : VerifiedBlock where
  info := {BlockHeader.empty with m_sha3Uncles := work.hash, m_parentHash := work.parentHash}
  blockData := []

/-- The block of an entry of `m_verifying`. -/
def VerifiedBlock.entryHash (b : VerifiedBlock) : H256 :=
  if b.blockData.length ≠ 0 then b.infoHash else b.info.m_sha3Uncles

inductive ImportRequirements where
  | postGenesis
  | outOfOrderChecks
deriving DecidableEq

inductive ImportResult where
  | success
  | unknownParent
  | futureTimeKnown
  | futureTimeUnknown
  | alreadyInChain
  | alreadyKnown
  | malformed
  | badChain
deriving DecidableEq

end BlockQueue

open BlockQueue in
structure BlockQueue where
  m_drainingSet : Finset H256 := ∅
  m_readySet : Finset H256 := ∅
  m_unknownSet : Finset H256 := ∅
  m_unknown : SizedBlockMap H256 := []
  m_knownBad : Finset H256 := ∅
  m_future : SizedBlockMap ℤ := []
  m_futureSet : Finset H256 := ∅
  m_verified : List VerifiedBlock := []
  m_verifying : List VerifiedBlock := []
  m_unverified : List UnverifiedBlock := []
  m_difficulty : U256 := 0
  m_drainingDifficulty : U256 := 0
deriving DecidableEq

namespace BlockQueue

/-! ### Bad blocks -/

/-- One block of `m_unknown` found bad. -/
def noteUnknownBad (q : BlockQueue) (newBad : H256 × Bytes) : BlockQueue :=
  {q with
    m_unknownSet := q.m_unknownSet.erase newBad.1
    m_knownBad := insert newBad.1 q.m_knownBad}

/-- The loop of `collectUnknownBad_WITH_BOTH_LOCKS`; a block is put into the queue once at most. -/
def collectLoop : ℕ → List H256 → BlockQueue → BlockQueue
  | 0, _, q => q
  | _, [], q => q
  | fuel + 1, bad :: badQueue, q =>
    let (removed, m_unknown) := q.m_unknown.removeByKeyEqual bad
    collectLoop fuel (badQueue ++ removed.map Prod.fst)
      (removed.foldl noteUnknownBad {q with m_unknown})

def collectUnknownBad (bad : H256) (q : BlockQueue) : BlockQueue :=
  collectLoop (q.m_unknown.length + 1) [bad] q

/-- The body of the loops over what `removeIf` returns. -/
def noteBad (q : BlockQueue) (h : H256) : BlockQueue :=
  collectUnknownBad h {q with
    m_knownBad := insert h q.m_knownBad
    m_readySet := q.m_readySet.erase h}

/-- The queue that a pass of the loop of `updateBad_WITH_LOCK` goes through next. -/
inductive Pass where
  | verified
  | unverified
  | verifying
deriving DecidableEq

def badVerified (m_knownBad : Finset H256) (b : VerifiedBlock) : Bool :=
  b.info.m_parentHash ∈ m_knownBad || b.infoHash ∈ m_knownBad

def badUnverified (m_knownBad : Finset H256) (b : UnverifiedBlock) : Bool :=
  b.parentHash ∈ m_knownBad || b.hash ∈ m_knownBad

def badVerifying (m_knownBad : Finset H256) (b : VerifiedBlock) : Bool :=
  b.info.m_parentHash ∈ m_knownBad || b.info.m_sha3Uncles ∈ m_knownBad

/-- The blocks that a pass takes for bad, by their hashes, and the queue without the bad ones. -/
def sweep (q : BlockQueue) : Pass → List H256 × BlockQueue
  | .verified =>
    let (removed, m_verified) :=
      SizedBlockQueue.removeIf VerifiedBlock.moved (badVerified q.m_knownBad) q.m_verified
    (removed.map VerifiedBlock.infoHash, {q with m_verified})
  | .unverified =>
    let (removed, m_unverified) :=
      SizedBlockQueue.removeIf UnverifiedBlock.moved (badUnverified q.m_knownBad) q.m_unverified
    (removed.map UnverifiedBlock.hash, {q with m_unverified})
  | .verifying =>
    let (removed, m_verifying) :=
      SizedBlockQueue.removeIf VerifiedBlock.moved (badVerifying q.m_knownBad) q.m_verifying
    (removed.map VerifiedBlock.entryHash, {q with m_verifying})

/-- One pass, and whether it found a bad block. -/
def pass (p : Pass) (q : BlockQueue) : Bool × BlockQueue :=
  let (bad, q) := q.sweep p
  (bad ≠ [], bad.foldl noteBad q)

/-- The loop of `updateBad_WITH_LOCK`. -/
def updateLoop : ℕ → BlockQueue → BlockQueue
  | 0, q => q
  | fuel + 1, q =>
    let (more₁, q) := q.pass .verified
    let (more₂, q) := q.pass .unverified
    let (more₃, q) := q.pass .verifying
    if more₁ || more₂ || more₃ then updateLoop fuel q else q

def count (q : BlockQueue) : ℕ :=
  q.m_verified.length + q.m_verifying.length + q.m_unverified.length

/-- `updateBad_WITH_LOCK`: each turn of the loop but the last removes a block. -/
def updateBad (q : BlockQueue) (bad : H256) : BlockQueue :=
  updateLoop (q.count + 1) (q.collectUnknownBad bad)

/-! ### Blocks that became ready -/

/-- One block of `m_unknown` whose parent is there. -/
def noteNewReady (parent : H256) (q : BlockQueue) (newReady : H256 × Bytes) : BlockQueue :=
  {q with
    m_unverified := q.m_unverified ++ [⟨newReady.1, parent, newReady.2⟩]
    m_unknownSet := q.m_unknownSet.erase newReady.1
    m_readySet := insert newReady.1 q.m_readySet}

def readyLoop : ℕ → List H256 → BlockQueue → BlockQueue
  | 0, _, q => q
  | _, [], q => q
  | fuel + 1, parent :: goodQueue, q =>
    let (removed, m_unknown) := q.m_unknown.removeByKeyEqual parent
    readyLoop fuel (goodQueue ++ removed.map Prod.fst)
      (removed.foldl (noteNewReady parent) {q with m_unknown})

/-- `noteReady_WITH_LOCK`. -/
def noteReady (q : BlockQueue) (good : H256) : BlockQueue :=
  readyLoop (q.m_unknown.length + 1) [good] q

def retryLoop : ℕ → BlockQueue → BlockQueue
  | 0, q => q
  | fuel + 1, q =>
    (q.m_unknown.head?.map Prod.fst).elim q fun parent =>
      let (removed, m_unknown) := q.m_unknown.removeByKeyEqual parent
      retryLoop fuel (removed.foldl (noteNewReady parent) {q with m_unknown})

def retryAllUnknown (q : BlockQueue) : BlockQueue := retryLoop q.m_unknown.length q

/-! ### Verifying -/

/-- What becomes of a verified block at the front of `m_verifying`. -/
def release (block : VerifiedBlock) (q : BlockQueue) : BlockQueue :=
  if block.info.m_parentHash ∈ q.m_knownBad then
    {q with
      m_readySet := q.m_readySet.erase block.infoHash
      m_knownBad := insert block.infoHash q.m_knownBad}
  else {q with m_verified := q.m_verified ++ [block]}

/-- The loop of `drainVerified_WITH_BOTH_LOCKS`, with `entries` for `m_verifying`. -/
def drainLoop : List VerifiedBlock → BlockQueue → BlockQueue
  | [], q => {q with m_verifying := []}
  | block :: entries, q =>
    if block.blockData ≠ [] then drainLoop entries (release block q)
    else {q with m_verifying := block :: entries}

def drainVerified (q : BlockQueue) : BlockQueue := drainLoop q.m_verifying q

/-- The part of `verifierBody` that takes a block. -/
def take (q : BlockQueue) : Option (UnverifiedBlock × BlockQueue) :=
  q.m_unverified.head?.map fun work =>
    (work, {q with
      m_unverified := q.m_unverified.tail
      m_verifying := q.m_verifying ++ [placeholder work]})

/-- The handler of an exception of the verification. -/
def reportBad (work : UnverifiedBlock) (q : BlockQueue) : BlockQueue :=
  drainVerified {q with
    m_readySet := q.m_readySet.erase work.hash
    m_knownBad := insert work.hash q.m_knownBad
    m_verifying := (SizedBlockQueue.removeIf VerifiedBlock.moved
      (fun b => b.info.m_sha3Uncles = work.hash) q.m_verifying).2}

/-- `replace`: the first entry with the hash. -/
def replace (hash : H256) (t : VerifiedBlock) : List VerifiedBlock → List VerifiedBlock
  | [] => []
  | b :: queue => if b.info.m_sha3Uncles = hash then t :: queue else b :: replace hash t queue

theorem mem_of_replace {hash : H256} {res b : VerifiedBlock} {l : List VerifiedBlock}
    (hb : b ∈ replace hash res l) : b = res ∨ b ∈ l := by
  induction l with
  | nil => cases hb
  | cons c l ih =>
    unfold replace at hb
    split at hb
    · exact (List.mem_cons.mp hb).imp_right (List.mem_cons_of_mem c)
    · cases List.mem_cons.mp hb with
      | inl e => exact .inr (e ▸ List.mem_cons_self)
      | inr hb => exact (ih hb).imp_right (List.mem_cons_of_mem c)

/-- What a verifier does with a block that it has verified. -/
def reportGood (work : UnverifiedBlock) (res : VerifiedBlock) (q : BlockQueue) : BlockQueue :=
  if (q.m_verifying.head?.map fun b => b.info.m_sha3Uncles) = some work.hash then
    drainVerified (release res {q with m_verifying := q.m_verifying.tail})
  else {q with m_verifying := replace work.hash res q.m_verifying}

section Verifying
variable [Sha3] (passes : ImportRequirements → Bytes → Bool)

/-- `BlockChain::verifyBlock`: the header, if it can be read and passes the checks. -/
def verifyBlock (ir : ImportRequirements) (block : Bytes) : Option BlockHeader :=
  if passes ir block then (BlockHeader.construct block .blockData H256.zero).toOption else none

/-- The second part of `verifierBody`. -/
def report (work : UnverifiedBlock) (q : BlockQueue) : BlockQueue :=
  (verifyBlock passes .outOfOrderChecks work.blockData).elim (q.reportBad work) fun info =>
    q.reportGood work ⟨info, work.blockData⟩

/-! ### Calls -/

/-- `contains` of each of the sets. -/
def known (q : BlockQueue) (h : H256) : Bool :=
  h ∈ q.m_readySet || h ∈ q.m_drainingSet || h ∈ q.m_unknownSet || h ∈ q.m_knownBad ||
    h ∈ q.m_futureSet

/-- A block whose time has not come. -/
def queueFuture (isKnown : H256 → Bool) (h : H256) (bi : BlockHeader) (block : Bytes)
    (q : BlockQueue) : ImportResult × BlockQueue :=
  let q := {q with
    m_future := q.m_future.insert bi.m_timestamp.toInt h block
    m_futureSet := insert h q.m_futureSet
    m_difficulty := q.m_difficulty + bi.m_difficulty}
  let unknown := bi.m_parentHash ∉ q.m_readySet && bi.m_parentHash ∉ q.m_drainingSet &&
    bi.m_parentHash ∉ q.m_futureSet && !isKnown bi.m_parentHash
  (if unknown then .futureTimeUnknown else .futureTimeKnown, q)

def queueUnknown (h : H256) (bi : BlockHeader) (block : Bytes) (q : BlockQueue) : BlockQueue :=
  {q with
    m_unknown := q.m_unknown.insert bi.m_parentHash h block
    m_unknownSet := insert h q.m_unknownSet
    m_difficulty := q.m_difficulty + bi.m_difficulty}

def queueReady (h : H256) (bi : BlockHeader) (block : Bytes) (q : BlockQueue) : BlockQueue :=
  noteReady {q with
    m_unverified := q.m_unverified ++ [⟨h, bi.m_parentHash, block⟩]
    m_readySet := insert h q.m_readySet
    m_difficulty := q.m_difficulty + bi.m_difficulty} h

/-- `import` of a block that can be read: its result, the queue, and the blocks for which
`updateBad_WITH_LOCK` is called before the lock is released. -/
def importHeader (isKnown : H256 → Bool) (utcTime : ℤ) (isOurs : Bool) (h : H256) (bi : BlockHeader)
    (block : Bytes) (q : BlockQueue) : ImportResult × BlockQueue × List H256 :=
  if isKnown h then (.alreadyInChain, q, [])
  else if utcTime < bi.m_timestamp.toInt ∧ isOurs = false then
    let (result, q) := q.queueFuture isKnown h bi block
    (result, q, [])
  else if bi.m_parentHash ∈ q.m_knownBad then
    (.badChain, {q with m_knownBad := insert bi.m_hash q.m_knownBad}, [bi.m_hash])
  else if bi.m_parentHash ∉ q.m_readySet ∧ bi.m_parentHash ∉ q.m_drainingSet ∧
      isKnown bi.m_parentHash = false then
    (.unknownParent, q.queueUnknown h bi block, [])
  else (.success, q.queueReady h bi block, [])

/-- `import`. -/
def importBlock (isKnown : H256 → Bool) (utcTime : ℤ) (isOurs : Bool) (block : Bytes)
    (q : BlockQueue) : Except HeaderException (ImportResult × BlockQueue × List H256) := do
  let h ← BlockHeader.headerHashFromBlock block
  if q.known h then return (.alreadyKnown, q, [])
  else
    return (verifyBlock passes .postGenesis block).elim (.malformed, q, []) fun bi =>
      q.importHeader isKnown utcTime isOurs h bi block

end Verifying

/-- `drain`: what it gives out, and the queue. -/
def drain (max : ℕ) (q : BlockQueue) : List VerifiedBlock × BlockQueue :=
  if q.m_drainingSet = ∅ then
    let out := q.m_verified.take max
    (out, out.foldl (fun q bs => {q with
        m_drainingSet := insert bs.infoHash q.m_drainingSet
        m_drainingDifficulty := q.m_drainingDifficulty + bs.info.m_difficulty
        m_readySet := q.m_readySet.erase bs.infoHash})
      {q with m_verified := q.m_verified.drop max, m_drainingDifficulty := 0})
  else ([], q)

/-- `doneDrain`: the queue, and the blocks for which `updateBad_WITH_LOCK` is called. -/
def doneDrain (bad : List H256) (q : BlockQueue) : BlockQueue × List H256 :=
  ({q with
    m_drainingSet := ∅
    m_difficulty := q.m_difficulty - q.m_drainingDifficulty
    m_drainingDifficulty := 0
    m_knownBad := q.m_knownBad ∪ bad.toFinset}, bad)

/-- The part of `tick` that has the lock: the blocks to import, and the queue. -/
def tick (utcTime : ℤ) (q : BlockQueue) : List Bytes × BlockQueue :=
  let (todo, m_future) := q.m_future.removeByKeyNotGreater utcTime
  (todo.map Prod.snd, {q with
    m_future
    m_futureSet := todo.foldl (fun s e => s.erase e.1) q.m_futureSet})

end BlockQueue
end Aleth.Ethereum
