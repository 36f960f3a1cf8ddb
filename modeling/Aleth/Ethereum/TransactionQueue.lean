import Aleth.Devcore.Bytes
import Aleth.Devcore.Words
import Aleth.Structure.SortedMap
import Aleth.Structure.Throwing
import Mathlib

/-! The transaction queue (`TransactionQueue.cpp`).

Transactions that can go into a block are in `m_current`, ordered by
`PriorityCompare`; two tables lead to them, by hash and by sender and nonce.
Transactions whose turn has not come wait in `m_future`. A table of tables, by
sender and then by nonce, is one table under pairs in lexicographic order.

What the containers' own orders decide is not fixed here but asked of an
`Order`: where the comparator, which changes with the queue, puts a new
transaction, and at which sender the iteration over `m_future` starts. The
sender of a transaction is recovered from its signature, and that may fail. -/
namespace Aleth.Ethereum
open Devcore

structure Transaction where
  /-- `sha3(WithSignature)`. -/
  sha3 : H256
  nonce : U256
  gasPrice : U256
  hasZeroSignature : Bool
  /-- The address of the public key that the signature gives, if it gives one. -/
  recovered : Option Address
deriving DecidableEq

namespace Transaction

/-- `sender()`; `none` is the exception. -/
def sender (t : Transaction) : Option Address :=
  if t.hasZeroSignature then some MaxAddress else t.recovered

/-- `from()`, which is `safeSender()`. -/
def from_ (t : Transaction) : Address := t.sender.getD ZeroAddress

/-- Where the tables by sender and nonce keep the transaction. -/
def slot (t : Transaction) : Address ×ₗ U256 := toLex (t.from_, t.nonce)

end Transaction

inductive IfDropped where
  | ignore
  | retry
deriving DecidableEq

/-- `ImportResult`, as far as the queue gives it. -/
inductive ImportResult where
  | success
  | alreadyInChain
  | alreadyKnown
  | malformed
  | overbidGasPrice
  | zeroSignature
deriving DecidableEq

inductive QueueException where
  /-- `sender()` throws inside the comparator of `m_current`. -/
  | invalidSignature
  /-- A singular iterator is followed, or an empty table asked for its first entry. -/
  | undefined
  | nontermination
deriving DecidableEq

/-- `PriorityQueue::iterator`; `none` is the singular one that a new entry starts with. -/
abbrev Handle := Option Transaction

structure TransactionQueue where
  m_known : Finset H256
  m_dropped : Finset H256
  m_current : List Transaction
  m_currentByHash : H256 → Option Transaction
  m_currentByAddressAndNonce : SortedMap (Address ×ₗ U256) Handle
  m_future : SortedMap (Address ×ₗ U256) Transaction
  m_limit : UInt32
  m_futureLimit : UInt32
  m_futureSize : UInt32

/-- What the orders of the containers decide during one call. -/
structure Order where
  /-- The position that the search by `PriorityCompare` ends at. -/
  place : List Transaction → Transaction → ℕ
  /-- The transactions that the search compares the new one with. -/
  search : List Transaction → Transaction → Transaction → Bool
  /-- An entry of the sender that `m_future.begin()` is at. -/
  begin : List ((Address ×ₗ U256) × Transaction) → ℕ

/-- A search in a queue that is not empty makes comparisons, and each asks for both senders. -/
def Order.throws (o : Order) (l : List Transaction) (t : Transaction) : Bool :=
  !l.isEmpty && (t.sender.isNone || l.any fun u => o.search l t u && u.sender.isNone)

abbrev Queue := Throwing TransactionQueue QueueException

namespace TransactionQueue

/-- `TransactionQueue(limit, futureLimit)`. -/
def fresh (limit futureLimit : UInt32) : TransactionQueue where
  m_known := ∅
  m_dropped := ∅
  m_current := []
  m_currentByHash := fun _ => none
  m_currentByAddressAndNonce := SortedMap.empty
  m_future := SortedMap.empty
  m_limit := limit
  m_futureLimit := futureLimit
  m_futureSize := 0

/-! ### Moving transactions -/

/-- `m_current.emplace(t)`. -/
def emplace (o : Order) (t : Transaction) : Queue Unit := do
  let q ← Throwing.get
  if o.throws q.m_current t then Throwing.throw .invalidSignature
  else
    Throwing.modify fun q =>
      {q with m_current := q.m_current.insertIdx (min (o.place q.m_current t) q.m_current.length) t}

/-- A transaction enters `m_current`: first its entry by nonce, without a handle yet. -/
def enter (o : Order) (t : Transaction) : Queue Unit := do
  Throwing.modify fun q =>
    if (q.m_currentByAddressAndNonce.find t.slot).isNone then
      {q with m_currentByAddressAndNonce := q.m_currentByAddressAndNonce.insert t.slot none}
    else q
  emplace o t
  Throwing.modify fun q =>
    {q with
      m_currentByAddressAndNonce := q.m_currentByAddressAndNonce.insert t.slot (some t)
      m_currentByHash := Function.update q.m_currentByHash t.sha3 (some t)}

/-- `remove_WITH_LOCK`. -/
def removeWithLock (h : H256) : Queue Bool := do
  let q ← Throwing.get
  match q.m_currentByHash h with
  | none => return false
  | some t =>
    Throwing.modify fun q =>
      {q with
        m_currentByAddressAndNonce := q.m_currentByAddressAndNonce.erase t.slot
        m_current := q.m_current.erase t
        m_currentByHash := Function.update q.m_currentByHash h none
        m_known := q.m_known.erase h}
    return true

/-- The part of a run of entries whose nonces count up from the given one. -/
def consecutive (nonce : U256) :
    List ((Address ×ₗ U256) × Transaction) → List ((Address ×ₗ U256) × Transaction)
  | [] => []
  | e :: l => if e.2.nonce = nonce then e :: consecutive (nonce + 1) l else []

/-- The future transactions that follow `t` without a gap, from `find(nonce + 1)` on. -/
def following (q : TransactionQueue) (t : Transaction) : List ((Address ×ₗ U256) × Transaction) :=
  consecutive (t.nonce + 1)
    ((q.m_future.entries.filter fun e => (ofLex e.1).1 = t.from_).dropWhile
      fun e => (ofLex e.1).2 ≠ t.nonce + 1)

/-- One turn of the loop that moves future transactions to `m_current`. -/
def promote (o : Order) (t : Transaction) : Queue Unit := do
  enter o t
  Throwing.modify fun q => {q with m_futureSize := q.m_futureSize - 1}

def eraseFuture (q : TransactionQueue) (l : List (Address ×ₗ U256)) : TransactionQueue :=
  {q with m_future := l.foldl SortedMap.erase q.m_future}

/-- `m_future.begin()->second.rbegin()`. -/
def lastOfFirst (o : Order) (q : TransactionQueue) : Option ((Address ×ₗ U256) × Transaction) := do
  let e ← q.m_future.entries[o.begin q.m_future.entries % q.m_future.entries.length]?
  (q.m_future.entries.filter fun e' => (ofLex e'.1).1 = (ofLex e.1).1).getLast?

/-- The loop that drops future transactions above the limit. -/
def evict (o : Order) : (fuel : ℕ) → Queue Unit
  | 0 => Throwing.throw .nontermination
  | fuel + 1 => do
    let q ← Throwing.get
    if q.m_futureSize ≤ q.m_futureLimit then return ()
    else
      match q.lastOfFirst o with
      | none => Throwing.throw .undefined
      | some e => do
        Throwing.modify fun q =>
          {q with m_futureSize := q.m_futureSize - 1, m_future := q.m_future.erase e.1}
        evict o fuel

/-- `makeCurrent_WITH_LOCK`. -/
def makeCurrentWithLock (o : Order) (t : Transaction) : Queue Unit := do
  let q ← Throwing.get
  (q.following t).forM fun e => promote o e.2
  Throwing.modify fun q' => q'.eraseFuture ((q.following t).map Prod.fst)
  let q ← Throwing.get
  evict o (q.m_futureSize.toNat + 1)

/-- `insertCurrent_WITH_LOCK`. -/
def insertCurrentWithLock (o : Order) (t : Transaction) : Queue Unit := do
  let q ← Throwing.get
  if (q.m_currentByHash t.sha3).isSome then return ()
  else
    enter o t
    makeCurrentWithLock o t
    Throwing.modify fun q => {q with m_known := insert t.sha3 q.m_known}

/-! ### Importing -/

/-- `check_WITH_LOCK`. -/
def checkWithLock (q : TransactionQueue) (h : H256) (ik : IfDropped) : ImportResult :=
  if h ∈ q.m_known then .alreadyKnown
  else if h ∈ q.m_dropped ∧ ik = .ignore then .alreadyInChain
  else .success

/-- A current transaction in the same slot is removed, or has the higher gas price. -/
def replaceCurrent (t : Transaction) : Queue Bool := do
  let q ← Throwing.get
  match q.m_currentByAddressAndNonce.find t.slot with
  | none => return false
  | some none => Throwing.throw .undefined
  | some (some u) =>
    if t.gasPrice < u.gasPrice then return true
    else
      let _ ← removeWithLock u.sha3
      return false

/-- A future transaction in the same slot is erased, or has the higher gas price. -/
def replaceFuture (t : Transaction) : Queue Bool := do
  let q ← Throwing.get
  match q.m_future.find t.slot with
  | none => return false
  | some u =>
    if t.gasPrice < u.gasPrice then return true
    else
      Throwing.modify fun q =>
        {q with m_future := q.m_future.erase t.slot, m_futureSize := q.m_futureSize - 1}
      return false

/-- The loop that removes the last of `m_current` while there are too many. -/
def trim : (fuel : ℕ) → Queue Unit
  | 0 => Throwing.throw .nontermination
  | fuel + 1 => do
    let q ← Throwing.get
    match q.m_current.getLast? with
    | none => return ()
    | some u =>
      if q.m_current.length ≤ q.m_limit.toNat then return ()
      else
        let _ ← removeWithLock u.sha3
        trim fuel

/-- `catch (Exception const&)`: what the comparator throws makes the transaction malformed. -/
def catchException (x : Queue ImportResult) : Queue ImportResult := fun q =>
  match x.run q with
  | (.error .invalidSignature, q') => (.ok .malformed, q')
  | r => r

/-- `manageImport_WITH_LOCK`. -/
def manageImportWithLock (o : Order) (t : Transaction) : Queue ImportResult :=
  catchException do
    if ← replaceCurrent t then return .overbidGasPrice
    else if ← replaceFuture t then return .overbidGasPrice
    else
      insertCurrentWithLock o t
      let q ← Throwing.get
      trim (q.m_current.length + 1)
      return .success

/-- `import(Transaction const&)`. -/
def importTransaction (o : Order) (t : Transaction) (ik : IfDropped) : Queue ImportResult :=
  if t.hasZeroSignature then return .zeroSignature
  else do
    let q ← Throwing.get
    if q.checkWithLock t.sha3 ik ≠ .success then return q.checkWithLock t.sha3 ik
    else manageImportWithLock o t

/-! ### The other calls -/

/-- A transaction and those of its sender with higher nonces, by `lower_bound`. -/
def cutoff (q : TransactionQueue) (t : Transaction) : List ((Address ×ₗ U256) × Handle) :=
  q.m_currentByAddressAndNonce.entries.filter fun e =>
    (ofLex e.1).1 = t.from_ ∧ t.nonce ≤ (ofLex e.1).2

/-- One turn of the loop of `setFuture`. `emplace` leaves an entry that is there. -/
def demote (from_ : Address) (m : Handle) : Queue Unit :=
  match m with
  | none => Throwing.throw .undefined
  | some t =>
    Throwing.modify fun q =>
      {q with
        m_currentByHash := Function.update q.m_currentByHash t.sha3 none
        m_future :=
          if (q.m_future.find (toLex (from_, t.nonce))).isNone then
            q.m_future.insert (toLex (from_, t.nonce)) t
          else q.m_future
        m_current := q.m_current.erase t
        m_futureSize := q.m_futureSize + 1}

def eraseByNonce (q : TransactionQueue) (l : List (Address ×ₗ U256)) : TransactionQueue :=
  {q with m_currentByAddressAndNonce := l.foldl SortedMap.erase q.m_currentByAddressAndNonce}

def setFuture (h : H256) : Queue Unit := do
  let q ← Throwing.get
  match q.m_currentByHash h with
  | none => return ()
  | some st =>
    (q.cutoff st).forM fun e => demote st.from_ e.2
    Throwing.modify fun q' => q'.eraseByNonce ((q.cutoff st).map Prod.fst)

def drop (h : H256) : Queue Unit := do
  let q ← Throwing.get
  if h ∉ q.m_known then return ()
  else
    Throwing.modify fun q => {q with m_dropped := insert h q.m_dropped}
    let _ ← removeWithLock h
    return ()

def dropGood (o : Order) (t : Transaction) : Queue Unit := do
  makeCurrentWithLock o t
  let q ← Throwing.get
  if t.sha3 ∉ q.m_known then return ()
  else
    let _ ← removeWithLock t.sha3
    return ()

def clear (q : TransactionQueue) : TransactionQueue :=
  {q with
    m_known := ∅
    m_current := []
    m_dropped := ∅
    m_currentByAddressAndNonce := SortedMap.empty
    m_currentByHash := fun _ => none
    m_future := SortedMap.empty
    m_futureSize := 0}

/-! ### Runs -/

inductive Call where
  | importTransaction (t : Transaction) (ik : IfDropped)
  | setFuture (h : H256)
  | drop (h : H256)
  | dropGood (t : Transaction)
  | clear

structure Request where
  call : Call
  order : Order

/-- What a call leaves of the queue, also when it throws. -/
def step (q : TransactionQueue) (r : Request) : TransactionQueue :=
  match r.call with
  | .importTransaction t ik => ((importTransaction r.order t ik).run q).2
  | .setFuture h => ((setFuture h).run q).2
  | .drop h => ((drop h).run q).2
  | .dropGood t => ((dropGood r.order t).run q).2
  | .clear => q.clear

end TransactionQueue
end Aleth.Ethereum
