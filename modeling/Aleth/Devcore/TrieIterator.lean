import Aleth.Devcore.TrieDB

/-! The iterator of a trie (`TrieDB.h`, `GenericTrieDB::iterator`).

An iterator is its trail: the nodes from the root down to the current entry, each
with the key up to it and the child that the walk has reached in it. The back of
the trail is the head of the list. `m_that` is left out: it leads to the database,
and two iterators are compared by their trails. `fuel` bounds the turns of the
loops. -/
namespace Aleth.Devcore

/-- `isEarlierThan`: whether the key is strictly prior to the prefix. -/
def isEarlierThan : (k p : List Nibble) → Bool
  | _, [] => false
  | [], _ :: _ => true
  | a :: k, b :: p => if a < b then true else if b < a then false else isEarlierThan k p

namespace GenericTrieDB
open Throwing RLP

/-- `iterator::Node`. -/
structure TrailNode where
  rlp : Bytes
  /-- as hexPrefixEncoding -/
  key : Bytes
  /-- 255: entering, 16: actually at the node, 17: exiting, 0-15: actual children -/
  child : ℕ
deriving DecidableEq

def TrailNode.setChild (b : TrailNode) (i : ℕ) : TrailNode := {b with child := i}

def TrailNode.setFirstChild (b : TrailNode) : TrailNode := {b with child := 16}

def TrailNode.incrementChild (b : TrailNode) : TrailNode :=
  {b with child := if b.child = 16 then 0 else if b.child = 15 then 17 else (b.child + 1) % 256}

/-- How a turn of the loop ends: `continue`, with what is left of the key, or `return`. -/
inductive Turn where
  | again (k : List Nibble) (trail : List TrailNode)
  | done (trail : List TrailNode)

section Model
variable {σ : Type} [NodeDB σ]

/-- `deref`. -/
def deref (n : RLP) : TrieM σ Bytes :=
  if n.isList then return n.encode
  else do
    let h ← lift n.toHash
    node h

/-- The `for` at the end of the loop, from the child of `back` on. Eighteen children are all. -/
def forChild (rlp : RLP) : (fuel : ℕ) → (k : List Nibble) → (back : TrailNode) →
    List TrailNode → TrieM σ Turn
  | 0, _, _, _ => throw .stackOverflow
  | fuel + 1, k, back, trail =>
    -- finished here
    if back.child = 17 then return .again [] trail
    else if !(rlp.item back.child).isEmpty then
      -- have a value at this node
      if back.child = 16 then return .done (back :: trail)
      else do
        -- lead-on to another node
        let s ← deref (rlp.item back.child)
        let key := hexPrefixEncode (keyOf back.key ++ [Fin.ofNat 16 back.child]) false
        return .again k (⟨s, key, 255⟩ :: back :: trail)
    else forChild rlp fuel [] back.incrementChild trail

/-- A turn of `next(NibbleSlice)`. -/
def turnFrom (k : List Nibble) : List TrailNode → TrieM σ Turn
  | [] => return .done []
  | b :: trail => do
    match ← lift (ofString b.rlp) with
    | none => return if b.child = 255 then .done (b :: trail) else .again [] trail
    | some rlp =>
      if b.child = 255 then
        -- entering: an empty node ends the search
        if rlp.isEmpty then return .again [] trail
        else if !rlp.isList || (rlp.itemCount ≠ 2 && rlp.itemCount ≠ 17) then
          return .done (b :: trail)
        else if rlp.itemCount = 2 then
          let keyOfRLP := keyOfNode rlp
          if !(keyOfRLP <+: k) && !isEarlierThan k keyOfRLP then return .again [] trail
          else do
            let k := if keyOfRLP <+: k then k else []
            let k := k.drop (min k.length keyOfRLP.length)
            let key := hexPrefixEncode (keyOf b.key ++ keyOfRLP) false
            if isLeaf rlp then
              if k = [] then return .done ({b with key := key, child := 0} :: trail)
              else return .again [] trail
            else do
              -- the node becomes its child
              let s ← deref (rlp.item 1)
              return .again k ({b with key := key, rlp := s} :: trail)
        else
          match k with
          | a :: k => forChild rlp 18 k (b.setChild a) trail
          | [] => forChild rlp 18 [] (b.setChild 16) trail
      else if !(rlp.isList && rlp.itemCount = 17) then return .again [] trail
      else forChild rlp 18 k b.incrementChild trail

/-- A turn of `next()`. -/
def turn : List TrailNode → TrieM σ Turn
  | [] => return .done []
  | b :: trail => do
    match ← lift (ofString b.rlp) with
    | none => return if b.child = 255 then .done (b :: trail) else .again [] trail
    | some rlp =>
      if b.child = 255 then
        if rlp.isEmpty then return .again [] trail
        else if !(rlp.isList && (rlp.itemCount = 2 || rlp.itemCount = 17)) then
          return .done (b :: trail)
        else if rlp.itemCount = 2 then do
          let key := hexPrefixEncode (keyOf b.key ++ keyOfNode rlp) false
          if isLeaf rlp then return .done ({b with key := key, child := 0} :: trail)
          else do
            let s ← deref (rlp.item 1)
            return .again [] ({b with key := key, rlp := s} :: trail)
        else forChild rlp 18 [] b.setFirstChild trail
      else if !(rlp.isList && rlp.itemCount = 17) then return .again [] trail
      else forChild rlp 18 [] b.incrementChild trail

/-- `next(NibbleSlice)`. -/
def nextFrom : (fuel : ℕ) → List Nibble → List TrailNode → TrieM σ (List TrailNode)
  | 0, _, _ => throw .stackOverflow
  | fuel + 1, k, trail => do
    match ← turnFrom k trail with
    | .again k trail => nextFrom fuel k trail
    | .done trail => return trail

/-- `next()`. -/
def next : (fuel : ℕ) → List TrailNode → TrieM σ (List TrailNode)
  | 0, _ => throw .stackOverflow
  | fuel + 1, trail => do
    match ← turn trail with
    | .again _ trail => next fuel trail
    | .done trail => return trail

/-- The root, being entered; one null byte is the hex prefix of the empty key. -/
def entered (root : H256) : TrieM σ (List TrailNode) := do
  let s ← node root
  return [⟨s, [0], 255⟩]

def begin (fuel : ℕ) (root : H256) : TrieM σ (List TrailNode) := do
  next fuel (← entered root)

def lowerBound (fuel : ℕ) (root : H256) (key : Bytes) : TrieM σ (List TrailNode) := do
  nextFrom fuel (asNibbles key) (← entered root)

def end_ : List TrailNode := []

/-- `at`. -/
def entryAt : List TrailNode → TrieM σ (Bytes × Bytes)
  | [] => throw .assertion
  | b :: _ => do
    match b.key with
    | [] => throw .assertion
    | flags :: key =>
      -- should be an integer number of bytes
      if flags &&& 0x10 != 0 then throw .assertion
      else match ← lift (ofString b.rlp) with
        | none => return (key, [])
        | some rlp => return (key, (rlp.item (if rlp.itemCount = 2 then 1 else 16)).payload)

/-- What a loop from `it` to `end()` sees. -/
def visited : (fuel : ℕ) → List TrailNode → TrieM σ (List (Bytes × Bytes))
  | 0, _ => throw .stackOverflow
  | fuel + 1, it =>
    if it = end_ then return []
    else do
      let e ← entryAt it
      let it ← next fuel it
      let es ← visited fuel it
      return e :: es

/-- The entries that iteration yields. -/
def iterated (fuel : ℕ) (root : H256) : TrieM σ (List (Bytes × Bytes)) := do
  visited fuel (← begin fuel root)

/-- The entries that iteration from `lower_bound` yields. -/
def iteratedFrom (fuel : ℕ) (root : H256) (key : Bytes) : TrieM σ (List (Bytes × Bytes)) := do
  visited fuel (← lowerBound fuel root key)

end Model
end GenericTrieDB
end Aleth.Devcore
