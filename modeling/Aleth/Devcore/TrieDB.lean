import Aleth.Devcore.TrieCommon
import Aleth.Devcore.StateCacheDB
import Aleth.Structure.Patricia
import Aleth.Structure.Throwing

/-! The Merkle Patricia trie over a node store (`TrieDB.h`, `GenericTrieDB`).

A node is an `RLP`: a pair (hex-prefix key, value or child) or a list of sixteen
children and a value. A child is the node itself when its encoding is shorter
than 32 bytes, and the hash of the encoding otherwise. The functions return the
node that takes the place of the one they were given; the caller stores it.

The recursion of the code goes as deep as the stored nodes lead it. `fuel` is
that depth, and running out of it is `stackOverflow`. Assertions are enabled in
the default build (`RelWithDebInfo`) and throw here. -/
namespace Aleth.Devcore
open Patricia.Tree (shared)

inductive TrieError where
  | badCast
  | badRLP
  | assertion
  | invalidTrie
  /-- `_k[0]` of an empty slice: `nibble` reads past the key. -/
  | readPastKey
  | stackOverflow
  | rootNotFound
deriving DecidableEq

namespace RLP

/-- An empty string or an empty list. -/
def isEmpty : RLP → Bool
  | data [] => true
  | list [] => true
  | _ => false

def isList : RLP → Bool
  | list _ => true
  | _ => false

def itemCount : RLP → Nat
  | list l => l.length
  | _ => 0

def payload : RLP → Bytes
  | data b => b
  | list l => encodeItems l

/-- `_orig[_i]` of a list. -/
def item : RLP → Nat → RLP
  | list l, i => l.getD i (data [])
  | _, _ => data []

/-- `toString`, which does not throw on a list. -/
def toString : RLP → Bytes
  | data b => b
  | list _ => []

/-- `toHash<h256>()`, strict: a longer string does not cast, a shorter one is padded. -/
def toHash : RLP → Except TrieError H256
  | data b => if 32 < b.length then .error .badCast else .ok (H256.alignRight b)
  | list _ => .error .badCast

/-- `RLP(std::string)`; `none` is the null item that an empty string gives. -/
def ofString (s : Bytes) : Except TrieError (Option RLP) :=
  match s with
  | [] => .ok none
  | _ => match decode s with
    | some r => .ok (some r)
    | none => .error .badRLP

end RLP

/-- `RLPNull`. -/
def RLPNull : RLP := .data []

/-- `keyOf(RLP)` and `isLeaf` of a two-item node. -/
def keyOfNode (twoItem : RLP) : List Nibble := keyOf (twoItem.item 0).payload
def isLeaf (twoItem : RLP) : Bool := isLeafKey (twoItem.item 0).payload

/-- The only slot in use, `except` not counted; the code's 255 is `none`. -/
def uniqueInUse (orig : RLP) (except : Option Nat) : Option Nat :=
  match (List.range 17).filter fun i => some i != except && !(orig.item i).isEmpty with
  | [i] => some i
  | _ => none

namespace GenericTrieDB
open Throwing RLP

abbrev TrieM (σ : Type) := Throwing σ TrieError

section Model
variable {σ : Type} [NodeDB σ] (sha3 : Bytes → H256)

def node (h : H256) : TrieM σ Bytes := do
  let db ← get
  return NodeDB.lookup db h

def forceInsertNode (v : Bytes) : TrieM σ H256 := do
  modify fun db => NodeDB.insert db (sha3 v) v
  return sha3 v

def forceKillNode (h : H256) : TrieM σ Unit := modify fun db => NodeDB.kill db h

/-- `killNode(_d, _h)`: nodes shorter than 32 bytes are not in the store. -/
def killNodeAt (d : RLP) (h : H256) : TrieM σ Unit :=
  if 32 ≤ d.encode.length then forceKillNode h else pure ()

def killNode (d : RLP) : TrieM σ Unit := killNodeAt d (sha3 d.encode)

def streamNode (b : RLP) : TrieM σ RLP :=
  if b.encode.length < 32 then pure b
  else do
    let h ← forceInsertNode sha3 b.encode
    return data h.bytes

/-- `RLP(node(_h))` of a node that has to be there. -/
def nodeAt (h : H256) : TrieM σ RLP := do
  let s ← node h
  match ← lift (ofString s) with
  | some r => return r
  | none => throw .assertion

/-! ### Lookup -/

def atAux : (fuel : Nat) → Option RLP → List Nibble → TrieM σ Bytes
  | 0, _, _ => throw .stackOverflow
  | fuel + 1, here, key =>
    match here with
    | none => return []
    | some here =>
      if here.isEmpty then return []
      else if here.itemCount = 2 then
        let k := keyOfNode here
        if key = k ∧ isLeaf here then return (here.item 1).toString
        else if k <+: key ∧ !isLeaf here then child fuel (here.item 1) (key.drop k.length)
        else return []
      else if here.itemCount = 17 then
        match key with
        | [] => return (here.item 16).toString
        | n :: rest =>
          if (here.item n.val).isEmpty then return [] else child fuel (here.item n.val) rest
      else throw .assertion
where
  /-- Into a child: the item itself if it is a list, else the node it is the hash of. -/
  child (fuel : Nat) (n : RLP) (key : List Nibble) : TrieM σ Bytes :=
    if n.isList then atAux fuel (some n) key
    else do
      let h ← lift n.toHash
      let s ← node h
      let r ← lift (ofString s)
      atAux fuel r key

/-- `at`. -/
def lookupKey (fuel : Nat) (root : H256) (key : Bytes) : TrieM σ Bytes := do
  let s ← node root
  let r ← lift (ofString s)
  atAux fuel r (asNibbles key)

/-! ### Insertion -/

def place (orig : RLP) (k : List Nibble) (s : Bytes) : TrieM σ RLP := do
  killNode sha3 orig
  if orig.isEmpty then return list [data (hexPrefixEncode k true), data s]
  else match orig with
    | list [key, _] => return list [key, data s]
    | list l =>
      if l.length = 17 then return list (l.take 16 ++ [data s])
      else throw .assertion
    | data _ => throw .assertion

/-- `[K1 & K2, V]` becomes `[K1, [K2, V]]`, with `s` nibbles in `K1`. -/
def cleve (orig : RLP) (s : Nat) : TrieM σ RLP := do
  killNode sha3 orig
  let k := keyOfNode orig
  let bottom := list [data (hexPrefixEncode (k.drop s) (isLeaf orig)), orig.item 1]
  let c ← streamNode sha3 bottom
  return list [data (hexPrefixEncode (k.take s) false), c]

/-- A two-item node becomes a branch on the first nibble of its key. -/
def branch (orig : RLP) : TrieM σ RLP := do
  killNode sha3 orig
  match keyOfNode orig with
  | [] => return list (List.replicate 16 (data []) ++ [orig.item 1])
  | b :: k =>
    let c ← (
      if isLeaf orig || k ≠ [] then
        streamNode sha3 (list [data (hexPrefixEncode k (isLeaf orig)), orig.item 1])
      else pure (orig.item 1))
    return list ((List.replicate 17 (data [])).set b.val c)

/-- Down into a child, which is part of its parent's RLP or, when it is a hash, a node of its
own that the recursive call has to kill. -/
def mergeAtAux (mergeAt : RLP → H256 → List Nibble → Bytes → Bool → TrieM σ RLP) (orig : RLP)
    (k : List Nibble) (v : Bytes) : TrieM σ RLP :=
  if !orig.isList && !orig.isEmpty then do
    let h ← lift orig.toHash
    let r ← nodeAt h
    let b ← mergeAt r (sha3 r.encode) k v false
    streamNode sha3 b
  else do
    let b ← mergeAt orig (sha3 orig.encode) k v true
    streamNode sha3 b

/-- A node that the caller holds in line is not in the store. -/
def killUnless (inLine : Bool) (d : RLP) (h : H256) : TrieM σ Unit :=
  if inLine then pure () else killNodeAt d h

def mergeAt : (fuel : Nat) → RLP → H256 → List Nibble → Bytes → (inLine : Bool) → TrieM σ RLP
  | 0, _, _, _, _, _ => throw .stackOverflow
  | fuel + 1, orig, origHash, k, v, inLine =>
    if orig.isEmpty then place sha3 orig k v
    else if orig.itemCount = 2 then
      let k' := keyOfNode orig
      -- exactly our node - place value in directly
      if k' = k ∧ isLeaf orig then place sha3 orig k v
      -- partial key is our key - move down
      else if k' <+: k ∧ !isLeaf orig then do
        killUnless inLine orig origHash
        let c ← mergeAtAux sha3 (mergeAt fuel) (orig.item 1) (k.drop k'.length) v
        return list [orig.item 0, c]
      else
        let sh := shared k k'
        if sh ≠ 0 then do
          let cleved ← cleve sha3 orig sh
          mergeAt fuel cleved (sha3 cleved.encode) k v true
        else do
          let branched ← branch sha3 orig
          mergeAt fuel branched (sha3 branched.encode) k v true
    else
      match orig, k with
      | list l, [] => if l.length = 17 then place sha3 orig [] v else throw .assertion
      | list l, n :: rest =>
        if l.length = 17 then do
          killUnless inLine orig origHash
          let c ← mergeAtAux sha3 (mergeAt fuel) (orig.item n.val) rest v
          return list (l.set n.val c)
        else throw .assertion
      | data _, _ => throw .assertion

/-- The new root. The node of the old one is always hashed, so it is killed even when short. -/
def insert (fuel : Nat) (root : H256) (key value : Bytes) : TrieM σ H256 := do
  let rootValue ← node root
  match ← lift (ofString rootValue) with
  | none => throw .assertion
  | some orig => do
    let b ← mergeAt sha3 fuel orig root (asNibbles key) value false
    if rootValue.length < 32 then forceKillNode root
    forceInsertNode sha3 b.encode

/-! ### Removal -/

def isTwoItemNode (n : RLP) : TrieM σ Bool :=
  match n with
  | data _ => do
    let h ← lift n.toHash
    let s ← node h
    match ← lift (ofString s) with
    | some r => return r.itemCount = 2
    | none => return false
  | list l => return l.length = 2

/-- `[K1, H]` and the node `[K2, V]` behind `H` become `[K1 & K2, V]`. -/
def graft (orig : RLP) : TrieM σ RLP := do
  let n ← (
    if (orig.item 1).isList then pure (orig.item 1)
    else do
      let lh ← lift (orig.item 1).toHash
      let n ← nodeAt lh
      forceKillNode lh
      pure n)
  if n.itemCount = 2 then
    return list [data (hexPrefixEncode (keyOfNode orig ++ keyOfNode n) (isLeaf n)), n.item 1]
  else throw .assertion

/-- A branch with one slot in use, as a two-item node. -/
def merge (orig : RLP) (i : Nat) : RLP :=
  if h : i < 16 then list [data (hexPrefixEncode [⟨i, h⟩] false), orig.item i]
  else list [data (hexPrefixEncode [] true), orig.item i]

/-- What is made of a branch when only slot `used` is left. -/
def mergeUsed (orig : RLP) (used : Nat) : TrieM σ RLP := do
  if ← isTwoItemNode (orig.item used) then graft (merge orig used)
  else return merge orig used

def deleteAtAux (deleteAt : RLP → List Nibble → TrieM σ (Option RLP)) (orig : RLP)
    (k : List Nibble) : TrieM σ (Option RLP) := do
  let b ← (
    if orig.isEmpty then pure none
    else if orig.isList then deleteAt orig k
    else do
      let h ← lift orig.toHash
      let r ← nodeAt h
      deleteAt r k)
  match b with
  | none => return none
  | some b => do
    let c ← streamNode sha3 b
    return some c

/-- The node without the key; `none` (the code's empty string) when the key is not there. -/
def deleteAt : (fuel : Nat) → RLP → List Nibble → TrieM σ (Option RLP)
  | 0, _, _ => throw .stackOverflow
  | fuel + 1, orig, k =>
    if orig.isEmpty then return none
    else if orig.itemCount = 2 then
      let k' := keyOfNode orig
      -- exactly our node - return null
      if k' = k ∧ isLeaf orig then do
        killNode sha3 orig
        return some RLPNull
      -- partial key is our key - move down
      else if k' <+: k then do
        match ← deleteAtAux sha3 (deleteAt fuel) (orig.item 1) (k.drop k'.length) with
        | none => return none
        | some c => do
          killNode sha3 orig
          let r := list [orig.item 0, c]
          if ← isTwoItemNode c then
            let g ← graft r
            return some g
          else return some r
      else return none
    else
      match orig with
      | list l =>
        if l.length = 17 then
          -- exactly our node - remove and rejig
          if k = [] ∧ !(orig.item 16).isEmpty then do
            killNode sha3 orig
            match uniqueInUse orig (some 16) with
            | some used => do
              let r ← mergeUsed orig used
              return some r
            | none => return some (list (l.take 16 ++ [data []]))
          else
            match k with
            | [] => throw .readPastKey
            | n :: rest => do
              match ← deleteAtAux sha3 (deleteAt fuel) (orig.item n.val) rest with
              | none => return none
              | some c => do
                let r := list (l.set n.val c)
                killNode sha3 orig
                match uniqueInUse r none with
                | none => return some r
                | some used => do
                  let m ← mergeUsed r used
                  return some m
        else throw .assertion
      | data _ => throw .assertion

/-- The new root, the old one when the key is not there. -/
def remove (fuel : Nat) (root : H256) (key : Bytes) : TrieM σ H256 := do
  let rv ← node root
  match ← lift (ofString rv) with
  | none => throw .assertion
  | some orig => do
    match ← deleteAt sha3 fuel orig (asNibbles key) with
    | none => return root
    | some b => do
      if rv.length < 32 then forceKillNode root
      forceInsertNode sha3 b.encode

/-- `EmptyTrie`. -/
def EmptyTrie : H256 := sha3 RLPNull.encode

/-- `init`: the root of the empty trie, its node stored. -/
def init : TrieM σ H256 := forceInsertNode sha3 RLPNull.encode

/-- `setRoot`: only the empty trie is made where it is missing. -/
def setRoot (root : H256) : TrieM σ H256 := do
  let db ← get
  let m_root ← if root = EmptyTrie sha3 ∧ !NodeDB.contains db root then init sha3 else pure root
  let rv ← node m_root
  if rv = [] then throw .rootNotFound else return m_root

/-! ### The scan of the whole trie -/

section Scan
variable (db : σ) (m_root : H256)

mutual
/-- `_keyMask` without the node and what is below it. -/
def descendKey : (fuel : Nat) → H256 → List H256 → (wasExt : Bool) → Except TrieError (List H256)
  | 0, _, _, _ => .error .stackOverflow
  | fuel + 1, k, keyMask, wasExt =>
    let keyMask := keyMask.filter (· ≠ k)
    if k = m_root ∧ k = EmptyTrie sha3 then .ok keyMask
    else do
      match ← ofString (NodeDB.lookup db k) with
      | some r => descendList fuel r keyMask wasExt
      | none => .error .invalidTrie

def descendEntry : (fuel : Nat) → RLP → List H256 → (wasExt : Bool) →
    Except TrieError (List H256)
  | 0, _, _, _ => .error .stackOverflow
  | fuel + 1, r, keyMask, wasExt =>
    match r with
    | data b =>
      if b.length = 32 then do
        let h ← toHash (data b)
        descendKey fuel h keyMask wasExt
      else .error .invalidTrie
    | list l => descendList fuel (list l) keyMask wasExt

def descendList : (fuel : Nat) → RLP → List H256 → (wasExt : Bool) → Except TrieError (List H256)
  | 0, _, _, _ => .error .stackOverflow
  | fuel + 1, r, keyMask, wasExt =>
    if r.isList ∧ r.itemCount = 2 ∧ !wasExt then
      if isLeaf r then .ok keyMask else descendEntry fuel (r.item 1) keyMask true
    else if r.isList ∧ r.itemCount = 17 then
      (List.range 16).foldlM (fun keyMask i =>
        if (r.item i).isEmpty then .ok keyMask else descendEntry fuel (r.item i) keyMask false)
        keyMask
    else .error .invalidTrie
end

end Scan

end Model

/-- The keys of the store that the trie does not reach. -/
def leftOvers (sha3 : Bytes → H256) (fuel : Nat) (db : StateCacheDB) (m_root : H256) :
    Except TrieError (List H256) :=
  descendKey sha3 db m_root fuel m_root db.keys false

def check (sha3 : Bytes → H256) (fuel : Nat) (db : StateCacheDB) (m_root : H256)
    (requireNoLeftOvers : Bool) : Bool :=
  match leftOvers sha3 fuel db m_root with
  | .ok k => k.isEmpty || !requireNoLeftOvers
  | .error _ => false

end GenericTrieDB
end Aleth.Devcore
