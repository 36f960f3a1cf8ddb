import Aleth.Devcore.TrieRemove
import Aleth.Devcore.TrieHash

/-! Whole runs of a trie: `init`, then insertions and removals in any order.

`Holds` is what every state of a run satisfies: the store has all nodes of one
canonical tree, the root is the hash of its root node, and the tree is what the
operations have made of the empty one. From it come the two results about runs:
`run_contents` (the trie is a map, and its root is the one `hash256` computes
from the contents) and `run_refs` (reference counts are exact). -/
namespace Aleth.Devcore
open Patricia Patricia.Tree Throwing GenericTrieDB Counting
open RLP (data list)

section Lookup
variable {sha3 : Bytes → H256} {σ : Type} [NodeDB σ] [LawfulNodeDB σ]

theorem toString_value (v : Option Value) : (data (valueBytes v)).toString = valueBytes v := rfl

/-- Down into a child that is not empty. -/
theorem run_atChild {db : σ} (hs : Sound sha3 db) (hn : NoCollision sha3 db) {t : NodeTree}
    (hst : Stored sha3 db t) (ht : t.isEmpty = false) (fuel : ℕ) (k : List Nibble) :
    (atAux.child fuel (reference sha3 (nodeOf sha3 t)) k : TrieM σ Bytes).run db =
      (atAux fuel (some (nodeOf sha3 t)) k).run db := by
  unfold atAux.child
  by_cases hl : (nodeOf sha3 t).encode.length < 32
  · have hr : reference sha3 (nodeOf sha3 t) = nodeOf sha3 t := if_pos hl
    rw [hr, isList_nodeOf sha3 ht, if_pos rfl]
  · have hr : reference sha3 (nodeOf sha3 t) = data (sha3 (nodeOf sha3 t).encode).bytes := if_neg hl
    have hnode : (node (sha3 (nodeOf sha3 t).encode) : TrieM σ Bytes).run db =
        (.ok (NodeDB.lookup db (sha3 (nodeOf sha3 t).encode)), db) := rfl
    rw [hr, if_neg (by simp [RLP.isList]), run_bind_ok (by rw [run_lift, toHash_bytes]),
      run_bind_ok hnode,
      run_bind_ok (by rw [run_lift, run_node_stored hs hn (hst.1 (by omega))])]

/-- `atAux` looks up, and leaves the store alone. -/
theorem run_atAux {t : NodeTree} (ht : t.Canonical) {db : σ} (hs : Sound sha3 db)
    (hn : NoCollision sha3 db) (hb : Below sha3 db t) {k : List Nibble} {fuel : ℕ}
    (hf : k.length + 1 ≤ fuel) :
    (atAux fuel (some (nodeOf sha3 t)) k).run db = (.ok (valueBytes (t.lookup k)), db) := by
  induction t generalizing k fuel with
  | empty =>
    obtain ⟨fuel, rfl⟩ : ∃ f, fuel = f + 1 := ⟨fuel - 1, by omega⟩
    unfold atAux
    rfl
  | leaf p v =>
    obtain ⟨fuel, rfl⟩ : ∃ f, fuel = f + 1 := ⟨fuel - 1, by omega⟩
    have hk : keyOfNode (nodeOf sha3 (.leaf p v)) = p := keyOfNode_nodeOf sha3 rfl
    unfold atAux
    dsimp only
    rw [isEmpty_of_isStem sha3 rfl, if_neg (by decide), if_pos (itemCount_of_isStem sha3 rfl), hk]
    by_cases h : k = p
    · rw [if_pos ⟨h, isLeaf_leaf sha3 p v⟩, Tree.lookup_leaf, if_pos h]
      rfl
    · rw [if_neg (fun hc => h hc.1), if_neg (by simp), Tree.lookup_leaf, if_neg h]
      rfl
  | ext p t ih =>
    obtain ⟨fuel, rfl⟩ : ∃ f, fuel = f + 1 := ⟨fuel - 1, by omega⟩
    have hk : keyOfNode (nodeOf sha3 (.ext p t)) = p := keyOfNode_nodeOf sha3 rfl
    unfold atAux
    dsimp only
    rw [isEmpty_of_isStem sha3 rfl, if_neg (by decide), if_pos (itemCount_of_isStem sha3 rfl), hk,
      if_neg (by simp), Tree.lookup_ext]
    by_cases h : p <+: k
    · have hlen : (k.drop p.length).length + 1 ≤ fuel := by
        have := h.length_le
        have := List.length_pos_of_ne_nil ht.1
        rw [List.length_drop]
        omega
      rw [if_pos ⟨h, by simp⟩, if_pos h, show (nodeOf sha3 (.ext p t)).item 1 =
        reference sha3 (nodeOf sha3 t) from rfl,
        run_atChild hs hn hb (isEmpty_of_isBranch ht.2.1), ih ht.2.2 hb.2 hlen]
    · rw [if_neg (fun hc => h hc.1), if_neg h]
      rfl
  | branch c v ih =>
    obtain ⟨fuel, rfl⟩ : ∃ f, fuel = f + 1 := ⟨fuel - 1, by omega⟩
    unfold atAux
    dsimp only
    rw [isEmpty_branch, if_neg (by decide), itemCount_branch, if_neg (by decide), if_pos rfl,
      nodeOf_branch]
    cases k with
    | nil =>
      dsimp only
      rw [branchItems_value]
      rfl
    | cons a k =>
      dsimp only
      rw [branchItems_child, isEmpty_reference, Tree.lookup_branch_cons]
      cases he : (c a).isEmpty with
      | true => rw [eq_empty_of_isEmpty he]; rfl
      | false =>
        rw [if_neg (by decide), run_atChild hs hn (hb a) he,
          ih a (ht.1 a) (hb a).2 (by simp at hf; omega)]

end Lookup

/-! ### Operations on a root -/

section Roots
variable {sha3 : Bytes → H256} {σ : Type} [NodeDB σ] [LawfulNodeDB σ]

variable (sha3) in
/-- The trie of root `root` in the store is the tree `t`. -/
structure Holds (db : σ) (root : H256) (t : NodeTree) : Prop where
  sound : Sound sha3 db
  canonical : t.Canonical
  hash : root = sha3 (nodeOf sha3 t).encode
  held : NodeDB.lookup db (sha3 (nodeOf sha3 t).encode) = (nodeOf sha3 t).encode
  below : Below sha3 db t

variable (sha3) in
/-- Every count is the number of references in the tree, the root counted once. -/
def Counts (db : σ) (root : H256) (t : NodeTree) : Prop :=
  ∀ h, LawfulNodeDB.refs db h = refsBelow sha3 t h + if h = root then 1 else 0

variable (sha3) in
/-- The references that a trie holds: those in its tree, and one to its root. -/
def refsFrom (root : H256) (t : NodeTree) : H256 → ℕ :=
  fun h => refsBelow sha3 t h + if h = root then 1 else 0

theorem Counts.exchange {db db' : σ} {root root' : H256} {t t' : NodeTree}
    (hc : Counts sha3 db root t) (hx : Exchanges (LawfulNodeDB.refs db) (LawfulNodeDB.refs db')
      (refsFrom sha3 root t) (refsFrom sha3 root' t')) : Counts sha3 db' root' t' := by
  intro h
  have hold : LawfulNodeDB.refs db h = refsFrom sha3 root t h := hc h
  have hnew := hx h (le_of_eq hold.symm)
  rw [hold, add_comm (refsFrom sha3 root t h)] at hnew
  exact Nat.add_right_cancel hnew

theorem Holds.node {db : σ} {root : H256} {t : NodeTree} (h : Holds sha3 db root t) :
    (node root : TrieM σ Bytes).run db = (.ok (nodeOf sha3 t).encode, db) := by
  show (Except.ok (NodeDB.lookup db root), db) = _
  rw [h.hash, h.held]

theorem Holds.ofString {db : σ} {root : H256} {t : NodeTree} (h : Holds sha3 db root t)
    (hn : NoCollision sha3 db) : RLP.ofString (nodeOf sha3 t).encode = .ok (some (nodeOf sha3 t)) := by
  have := run_node_stored h.sound hn h.held
  rwa [h.held] at this

theorem run_lookupKey {db : σ} {root : H256} {t : NodeTree} (h : Holds sha3 db root t)
    (hn : NoCollision sha3 db) {key : Bytes} {fuel : ℕ} (hf : 2 * key.length + 1 ≤ fuel) :
    (lookupKey fuel root key).run db = (.ok (valueBytes (t.lookup (asNibbles key))), db) := by
  unfold lookupKey
  rw [run_bind_ok h.node, run_bind_ok (by rw [run_lift, h.ofString hn])]
  exact run_atAux h.canonical h.sound hn h.below (by rwa [asNibbles_length])

/-- The new root node is stored, whatever its size. -/
theorem holds_forceInsert {db : σ} (hs : Sound sha3 db) {t : NodeTree} (ht : t.Canonical)
    (hb : Below sha3 db t)
    (hn : NoCollision sha3
      (NodeDB.insert db (sha3 (nodeOf sha3 t).encode) (nodeOf sha3 t).encode)) :
    Holds sha3 (NodeDB.insert db (sha3 (nodeOf sha3 t).encode) (nodeOf sha3 t).encode)
      (sha3 (nodeOf sha3 t).encode) t where
  sound := (Extends.insert db (encode_ne_nil _)).sound hs
  canonical := ht
  hash := rfl
  held := by rw [LawfulNodeDB.lookup_insert _ hs.plain (encode_ne_nil _), if_pos rfl]
  below := hb.mono (Extends.insert db (encode_ne_nil _)) hs hn

theorem run_init {db : σ} (hs : Sound sha3 db)
    (hn : NoCollision sha3 ((init sha3).run db).2) :
    ∃ db', (init sha3).run db = (.ok (EmptyTrie sha3), db') ∧
      Holds sha3 db' (EmptyTrie sha3) .empty ∧
      ((∀ h, LawfulNodeDB.refs db h = 0) → Counts sha3 db' (EmptyTrie sha3) .empty) := by
  refine ⟨_, rfl, holds_forceInsert (t := .empty) hs trivial trivial hn, fun h0 h => ?_⟩
  rw [LawfulNodeDB.refs_insert, h0]
  rfl

/-- A short root node is killed by the caller, a long one by the descent. -/
def rootKilled (db : σ) (root : H256) (r : RLP) : σ :=
  if r.encode.length < 32 then NodeDB.kill db root else db

/-- What insertion and removal do with the new root node. -/
theorem holds_newRoot {db db₁ : σ} {root : H256} {t t' : NodeTree} {P : Prop}
    (h : Holds sha3 db root t) (hrep : Replaced sha3 P db db₁ (refsAt sha3 t) t')
    (ht' : t'.Canonical)
    (hn : NoCollision sha3 (NodeDB.insert (rootKilled db₁ root (nodeOf sha3 t))
      (sha3 (nodeOf sha3 t').encode) (nodeOf sha3 t').encode)) :
    Holds sha3 (NodeDB.insert (rootKilled db₁ root (nodeOf sha3 t)) (sha3 (nodeOf sha3 t').encode)
        (nodeOf sha3 t').encode) (sha3 (nodeOf sha3 t').encode) t' ∧
      (P → Exchanges (LawfulNodeDB.refs db) (LawfulNodeDB.refs (NodeDB.insert
          (rootKilled db₁ root (nodeOf sha3 t)) (sha3 (nodeOf sha3 t').encode)
          (nodeOf sha3 t').encode))
        (refsFrom sha3 root t) (refsFrom sha3 (sha3 (nodeOf sha3 t').encode) t')) := by
  have hs₁ := hrep.grown.sound h.sound
  have hgrow : Extends sha3 db₁ (rootKilled db₁ root (nodeOf sha3 t)) := by
    unfold rootKilled
    split
    · exact Extends.kill _ _
    · exact Extends.refl _
  have hn₂ := hn.of_extends (Extends.insert _ (encode_ne_nil _))
  refine ⟨holds_forceInsert (hgrow.sound hs₁) ht' (hrep.below.mono hgrow hs₁ hn₂) hn,
    fun he x hcover => ?_⟩
  rw [refsFrom] at hcover
  have hroot : hit sha3 (nodeOf sha3 t) x ≤ if x = root then 1 else 0 := by
    rw [hit, h.hash]
    split
    case isTrue hy => rw [if_pos hy.2]
    case isFalse => exact Nat.zero_le _
  have hex := hrep.counts he x (by rw [refsAt, Pi.add_apply]; omega)
  rw [refsAt, Pi.add_apply] at hex
  rw [LawfulNodeDB.refs_insert, refsFrom, refsFrom]
  unfold rootKilled
  split
  case isTrue hl =>
    -- the reference of the root is not one of the tree's
    rw [hit_of_short sha3 hl, Pi.zero_apply] at hex
    rw [LawfulNodeDB.refs_kill]
    omega
  case isFalse hl =>
    have hhit : hit sha3 (nodeOf sha3 t) x = if x = root then 1 else 0 := by
      rw [hit, h.hash]
      have : 32 ≤ (nodeOf sha3 t).encode.length := by omega
      simp [this]
    omega

omit [LawfulNodeDB σ] in
/-- The end of `insert` and of `remove`. -/
theorem run_newRoot (db : σ) (root : H256) (r b : RLP) :
    (do
      if r.encode.length < 32 then forceKillNode root
      forceInsertNode sha3 b.encode : TrieM σ H256).run db =
      (.ok (sha3 b.encode),
        NodeDB.insert (rootKilled db root r) (sha3 b.encode) b.encode) := by
  unfold rootKilled
  split <;> rfl

theorem grows_newRoot (root : H256) (r b : RLP) : Grows (Extends sha3) (do
    if r.encode.length < 32 then forceKillNode root
    forceInsertNode sha3 b.encode : TrieM σ H256) := by
  split
  · exact grows_bind (grows_forceKillNode root) fun _ => grows_forceInsertNode b
  · exact grows_forceInsertNode b

theorem grows_insert (fuel : ℕ) (root : H256) (key v : Bytes) :
    Grows (Extends sha3) (GenericTrieDB.insert sha3 fuel root key v : TrieM σ H256) := by
  unfold GenericTrieDB.insert
  refine grows_bind (grows_node root) fun s => grows_bind (grows_lift _) fun r => ?_
  split
  · exact grows_throw _
  · refine grows_bind (grows_mergeAt _ _ _ _ _ _) fun b => ?_
    split
    · exact grows_bind (grows_forceKillNode root) fun _ => grows_forceInsertNode b
    · exact grows_forceInsertNode b

theorem grows_remove (fuel : ℕ) (root : H256) (key : Bytes) :
    Grows (Extends sha3) (remove sha3 fuel root key : TrieM σ H256) := by
  unfold remove
  refine grows_bind (grows_node root) fun s => grows_bind (grows_lift _) fun r => ?_
  split
  · exact grows_throw _
  · refine grows_bind (grows_deleteAt _ _ _) fun b => ?_
    split
    · exact grows_pure _
    · split
      · exact grows_bind (grows_forceKillNode root) fun _ => grows_forceInsertNode _
      · exact grows_forceInsertNode _

theorem run_insert {db : σ} {root : H256} {t : NodeTree} (h : Holds sha3 db root t) {key : Bytes}
    (v : Value) {fuel : ℕ} (hf : 2 * key.length + 5 ≤ fuel)
    (hn : NoCollision sha3 ((GenericTrieDB.insert sha3 fuel root key v.1).run db).2) :
    ∃ root' db', (GenericTrieDB.insert sha3 fuel root key v.1).run db = (.ok root', db') ∧
      Holds sha3 db' root' (t.insert (asNibbles key) v) ∧
      (Even t (asNibbles key) → Exchanges (LawfulNodeDB.refs db) (LawfulNodeDB.refs db')
        (refsFrom sha3 root t) (refsFrom sha3 root' (t.insert (asNibbles key) v))) := by
  have hn₀ := hn.of_extends (grows_insert fuel root key v.1 db)
  have hfuel : (asNibbles key).length + 5 ≤ fuel := by rwa [asNibbles_length]
  unfold GenericTrieDB.insert at hn ⊢
  rw [run_bind_ok h.node, run_bind_ok (by rw [run_lift, h.ofString hn₀])] at hn ⊢
  dsimp only at hn ⊢
  rw [h.hash] at hn ⊢
  obtain ⟨db₁, hrun, hrep⟩ := run_mergeAt h.canonical h.sound h.below v hfuel (by simp)
    (hn.of_bind fun b => grows_newRoot _ _ _)
  rw [run_bind_ok hrun, run_newRoot] at hn ⊢
  rw [← h.hash] at hn ⊢
  have hnew := holds_newRoot h hrep (canonical_insert h.canonical _ _) hn
  exact ⟨_, _, rfl, hnew⟩

/-- A removal that `Clear` allows. -/
theorem run_remove {db : σ} {root : H256} {t : NodeTree} (h : Holds sha3 db root t) {key : Bytes}
    (hc : Clear db t (asNibbles key)) {fuel : ℕ} (hf : 2 * key.length + 1 ≤ fuel)
    (hn : NoCollision sha3 ((remove sha3 fuel root key).run db).2) :
    match t.delete (asNibbles key) with
    | none => (remove sha3 fuel root key).run db = (.ok root, db)
    | some t' => ∃ root' db', (remove sha3 fuel root key).run db = (.ok root', db') ∧
        Holds sha3 db' root' t' ∧ Exchanges (LawfulNodeDB.refs db) (LawfulNodeDB.refs db')
          (refsFrom sha3 root t) (refsFrom sha3 root' t') := by
  have hn₀ := hn.of_extends (grows_remove fuel root key db)
  have hfuel : (asNibbles key).length + 1 ≤ fuel := by rwa [asNibbles_length]
  unfold remove at hn ⊢
  rw [run_bind_ok h.node, run_bind_ok (by rw [run_lift, h.ofString hn₀])] at hn ⊢
  dsimp only at hn ⊢
  have hdel := run_deleteAt h.canonical h.sound h.below hc hfuel (hn.of_bind fun b => by
    cases b with
    | none => exact grows_pure _
    | some b => exact grows_newRoot _ _ _)
  cases hd : t.delete (asNibbles key) with
  | none =>
    rw [hd] at hdel
    exact run_bind_ok hdel _
  | some t' =>
    rw [hd] at hdel
    obtain ⟨db₁, hrun, hrep, _⟩ := hdel
    rw [run_bind_ok hrun] at hn ⊢
    dsimp only at hn ⊢
    rw [run_newRoot] at hn ⊢
    have hnew := holds_newRoot h hrep (canonical_delete h.canonical hd) hn
    exact ⟨_, _, rfl, hnew.1, hnew.2 trivial⟩

/-! ### Runs -/

/-- A call that changes the trie. -/
inductive TrieOp where
  | insert (key : Bytes) (value : Value)
  | remove (key : Bytes)

def TrieOp.key : TrieOp → Bytes
  | .insert key _ => key
  | .remove key => key

def TrieOp.run {σ : Type} [NodeDB σ] (sha3 : Bytes → H256) (fuel : ℕ) (root : H256) :
    TrieOp → TrieM σ H256
  | .insert key v => GenericTrieDB.insert sha3 fuel root key v.1
  | .remove key => GenericTrieDB.remove sha3 fuel root key

/-- What the call does to the map. -/
def TrieOp.onMap (m : BytesMap) : TrieOp → BytesMap
  | .insert key v => m.insert key v.1
  | .remove key => m.erase key

def TrieOp.onTree (t : NodeTree) : TrieOp → NodeTree
  | .insert key v => t.insert (asNibbles key) v
  | .remove key => (t.delete (asNibbles key)).getD t

def runOps {σ : Type} [NodeDB σ] (sha3 : Bytes → H256) (fuel : ℕ) :
    List TrieOp → H256 → TrieM σ H256
  | [], root => pure root
  | op :: ops, root => op.run sha3 fuel root >>= runOps sha3 fuel ops

/-- `init`, then the calls. -/
def runFromInit {σ : Type} [NodeDB σ] (sha3 : Bytes → H256) (fuel : ℕ) (ops : List TrieOp) :
    TrieM σ H256 := GenericTrieDB.init sha3 >>= runOps sha3 fuel ops

def contents (ops : List TrieOp) : BytesMap := ops.foldl TrieOp.onMap SortedMap.empty

def treeOf (ops : List TrieOp) : NodeTree := ops.foldl TrieOp.onTree .empty

omit [LawfulNodeDB σ] in
theorem runOps_append (fuel : ℕ) (ops ops' : List TrieOp) (root : H256) :
    (runOps sha3 fuel (ops ++ ops') root : TrieM σ H256) =
      (runOps sha3 fuel ops root >>= runOps sha3 fuel ops') := by
  induction ops generalizing root with
  | nil => rfl
  | cons op ops ih =>
    rw [List.cons_append, runOps, runOps, Throwing.bind_assoc]
    congr 1
    funext r
    exact ih r

theorem grows_op (fuel : ℕ) (root : H256) (op : TrieOp) :
    Grows (Extends sha3) (op.run sha3 fuel root : TrieM σ H256) := by
  cases op with
  | insert key v => exact grows_insert fuel root key v.1
  | remove key => exact grows_remove fuel root key

variable (sha3) in
theorem grows_runOps (fuel : ℕ) (ops : List TrieOp) (root : H256) :
    Grows (Extends sha3) (runOps sha3 fuel ops root : TrieM σ H256) := by
  induction ops generalizing root with
  | nil => exact grows_pure _
  | cons op ops ih => exact grows_bind (grows_op fuel root op) fun r => ih r

theorem run_op {db : σ} {root : H256} {t : NodeTree} (h : Holds sha3 db root t) (op : TrieOp)
    (hc : ∀ key, op = .remove key → Clear db t (asNibbles key)) {fuel : ℕ}
    (hf : 2 * op.key.length + 5 ≤ fuel) (hn : NoCollision sha3 ((op.run sha3 fuel root).run db).2) :
    ∃ root' db', (op.run sha3 fuel root).run db = (.ok root', db') ∧
      Holds sha3 db' root' (op.onTree t) ∧
      (Even t (asNibbles op.key) → Exchanges (LawfulNodeDB.refs db) (LawfulNodeDB.refs db')
        (refsFrom sha3 root t) (refsFrom sha3 root' (op.onTree t))) := by
  cases op with
  | insert key v => exact run_insert h v hf hn
  | remove key =>
    have hrm := run_remove h (hc key rfl) (by simp only [TrieOp.key] at hf; omega) hn
    rw [TrieOp.onTree]
    cases hd : t.delete (asNibbles key) with
    | none =>
      rw [hd] at hrm
      exact ⟨root, db, hrm, h, fun _ => Exchanges.refl _ _⟩
    | some t' =>
      rw [hd] at hrm
      obtain ⟨root', db', hrun, hholds, hx⟩ := hrm
      exact ⟨root', db', hrun, hholds, fun _ => hx⟩

/-! Keys of one length. -/

omit [NodeDB σ] [LawfulNodeDB σ] in
theorem Even.clear {σ : Type} [NodeDB σ] {db : σ} {t : NodeTree} {k : List Nibble} (he : Even t k)
    (ht : t.Canonical) : Clear db t k := by
  induction t generalizing k with
  | empty => trivial
  | leaf p w => exact fun hp => hp.eq_of_length (he p (by simp))
  | ext p t ih => exact fun hp => ih (he.ext hp) ht.2.2
  | branch c v ih =>
    cases k with
    | nil =>
      cases v with
      | some w => rfl
      | none =>
        obtain ⟨x, _, _, hx, _⟩ := ht.2
        cases x with
        | none => cases hx
        | some a =>
          -- a child's key is longer than the empty one
          obtain ⟨r, w, hr⟩ := exists_lookup (ht.1 a) (by simpa [used] using hx)
          have := he (a :: r) (by rw [lookup_branch_cons, hr]; rfl)
          simp at this
    | cons a k =>
      refine ⟨ih a he.branch (ht.1 a), fun t w _ hv _ => ?_⟩
      have := he [] (by rw [lookup_branch_nil, hv]; rfl)
      simp at this

/-- The tree follows the map. -/
theorem realizes_onTree {t : NodeTree} (ht : t.Canonical) {m : BytesMap} (hm : Realizes t m)
    (op : TrieOp) : Realizes (op.onTree t) (op.onMap m) := by
  intro k v
  cases op with
  | insert key w =>
    rw [TrieOp.onTree, TrieOp.onMap, lookup_insert]
    split
    case isTrue hk =>
      subst hk
      constructor
      · intro hw
        exact ⟨key, rfl, by rw [SortedMap.find_insert, if_pos rfl]; exact hw⟩
      · rintro ⟨b, hb, hv⟩
        rw [← asNibbles_injective hb, SortedMap.find_insert, if_pos rfl] at hv
        exact hv
    case isFalse hk =>
      rw [hm k v]
      refine exists_congr fun b => and_congr_right fun hb => ?_
      rw [SortedMap.find_insert, if_neg fun e => hk (by rw [hb, e])]
  | remove key =>
    rw [TrieOp.onTree, TrieOp.onMap]
    have hlookup : ((t.delete (asNibbles key)).getD t).lookup k =
        if k = asNibbles key then none else t.lookup k := by
      cases hd : t.delete (asNibbles key) with
      | some t' => exact lookup_delete ht hd k
      | none =>
        have hnone := delete_eq_none.mp hd
        split
        case isTrue hk => rw [hk]; exact hnone
        case isFalse => rfl
    rw [hlookup]
    split
    case isTrue hk =>
      subst hk
      constructor
      · intro h
        cases h
      · rintro ⟨b, hb, hv⟩
        rw [← asNibbles_injective hb, SortedMap.find_erase, if_pos rfl] at hv
        cases hv
    case isFalse hk =>
      rw [hm k v]
      refine exists_congr fun b => and_congr_right fun hb => ?_
      rw [SortedMap.find_erase, if_neg fun e => hk (by rw [hb, e])]

theorem canonical_onTree {t : NodeTree} (ht : t.Canonical) (op : TrieOp) :
    (op.onTree t).Canonical := by
  cases op with
  | insert key v => exact canonical_insert ht _ v
  | remove key =>
    rw [TrieOp.onTree]
    cases hd : t.delete (asNibbles key) with
    | none => exact ht
    | some t' => exact canonical_delete ht hd

theorem realizes_treeOf (ops : List TrieOp) :
    (treeOf ops).Canonical ∧ Realizes (treeOf ops) (contents ops) := by
  have hfold : ∀ (t : NodeTree) (m : BytesMap), t.Canonical → Realizes t m →
      (ops.foldl TrieOp.onTree t).Canonical ∧
        Realizes (ops.foldl TrieOp.onTree t) (ops.foldl TrieOp.onMap m) := by
    induction ops with
    | nil => exact fun t m ht hm => ⟨ht, hm⟩
    | cons op ops ih =>
      exact fun t m ht hm => ih _ _ (canonical_onTree ht op) (realizes_onTree ht hm op)
  exact hfold .empty SortedMap.empty trivial fun k v => by simp

/-- The keys of the tree have `len` nibbles. -/
def Uniform (len : ℕ) (t : NodeTree) : Prop :=
  ∀ k, (t.lookup k).isSome = true → k.length = len

theorem Uniform.onTree {len : ℕ} {t : NodeTree} (hu : Uniform len t) (ht : t.Canonical)
    {op : TrieOp} (hop : 2 * op.key.length = len) : Uniform len (op.onTree t) := by
  intro k hk
  cases op with
  | insert key v =>
    rw [TrieOp.onTree, lookup_insert] at hk
    split at hk
    case isTrue h => rw [h, asNibbles_length]; exact hop
    case isFalse => exact hu k hk
  | remove key =>
    rw [TrieOp.onTree] at hk
    cases hd : t.delete (asNibbles key) with
    | none => rw [hd] at hk; exact hu k hk
    | some t' =>
      rw [hd, Option.getD_some, lookup_delete ht hd] at hk
      split at hk
      case isTrue => cases hk
      case isFalse => exact hu k hk

theorem Uniform.evenKey {len : ℕ} {t : NodeTree} (hu : Uniform len t) {key : Bytes}
    (hk : 2 * key.length = len) : Even t (asNibbles key) := by
  intro k h
  rw [hu k h, asNibbles_length, hk]

/-- Calls with keys of one length, on any trie whose keys have it. -/
theorem run_runOps {len fuel : ℕ} (hf : len + 5 ≤ fuel) {ops : List TrieOp}
    (hops : ∀ op ∈ ops, 2 * op.key.length = len) {db : σ} {root : H256} {t : NodeTree}
    (h : Holds sha3 db root t) (hu : Uniform len t)
    (hn : NoCollision sha3 ((runOps sha3 fuel ops root).run db).2) :
    ∃ root' db', (runOps sha3 fuel ops root).run db = (.ok root', db') ∧
      Holds sha3 db' root' (ops.foldl TrieOp.onTree t) ∧
      (Counts sha3 db root t → Counts sha3 db' root' (ops.foldl TrieOp.onTree t)) := by
  induction ops generalizing db root t with
  | nil => exact ⟨root, db, rfl, h, id⟩
  | cons op ops ih =>
    have hop := hops op List.mem_cons_self
    have heven := hu.evenKey hop
    rw [runOps] at hn ⊢
    obtain ⟨root₁, db₁, hrun₁, hholds₁, hx₁⟩ := run_op h op
      (fun key hkey => by subst hkey; exact heven.clear h.canonical) (by omega)
      (hn.of_bind fun r => grows_runOps sha3 fuel ops r)
    rw [run_bind_ok hrun₁] at hn ⊢
    obtain ⟨root', db', hrun, hholds, hcounts⟩ := ih (fun o ho => hops o (List.mem_cons_of_mem _ ho))
      hholds₁ (hu.onTree h.canonical hop) hn
    exact ⟨root', db', hrun, hholds, fun hc => hcounts (hc.exchange (hx₁ heven))⟩

theorem sound_empty : Sound sha3 StateCacheDB.empty := by
  refine ⟨rfl, fun h hne => ?_⟩
  exact (hne rfl).elim

/-- What every state of a run with keys of one length is. -/
theorem run_fromInit {len fuel : ℕ} (hf : len + 5 ≤ fuel) {ops : List TrieOp}
    (hops : ∀ op ∈ ops, 2 * op.key.length = len)
    (hn : NoCollision sha3 ((runFromInit sha3 fuel ops).run StateCacheDB.empty).2) :
    ∃ root db, (runFromInit sha3 fuel ops).run StateCacheDB.empty = (.ok root, db) ∧
      Holds sha3 db root (treeOf ops) ∧ Counts sha3 db root (treeOf ops) ∧ NoCollision sha3 db := by
  unfold runFromInit at hn ⊢
  obtain ⟨db₀, hrun₀, hholds₀, hcounts₀⟩ := run_init sound_empty
    (hn.of_bind fun r => grows_runOps sha3 fuel ops r)
  rw [run_bind_ok hrun₀] at hn ⊢
  have hu : Uniform len .empty := fun k hk => by simp at hk
  obtain ⟨root, db, hrun, hholds, hcounts⟩ := run_runOps hf hops hholds₀ hu hn
  rw [hrun] at hn
  exact ⟨root, db, hrun, hholds, hcounts (hcounts₀ fun _ => rfl), hn⟩

theorem noCollision_initial {fuel : ℕ} {pre ops : List TrieOp} (hpre : pre <+: ops) {db : σ}
    (hn : NoCollision sha3 ((runFromInit sha3 fuel ops).run db).2) :
    NoCollision sha3 ((runFromInit sha3 fuel pre).run db).2 := by
  obtain ⟨rest, rfl⟩ := hpre
  have happ : (runFromInit sha3 fuel (pre ++ rest) : TrieM σ H256) =
      (runFromInit sha3 fuel pre >>= runOps sha3 fuel rest) := by
    unfold runFromInit
    rw [Throwing.bind_assoc]
    congr 1
    funext r
    exact runOps_append fuel pre rest r
  rw [happ] at hn
  exact hn.of_bind fun r => grows_runOps sha3 fuel rest r

theorem valueBytes_lookup {t : NodeTree} {m : BytesMap} (hm : Realizes t m) (key : Bytes) :
    valueBytes (t.lookup (asNibbles key)) = (m.find key).getD [] := by
  have hkey := hm (asNibbles key)
  cases hl : t.lookup (asNibbles key) with
  | some v =>
    rw [hl] at hkey
    obtain ⟨b, hb, hv⟩ := (hkey v.1).mp rfl
    rw [asNibbles_injective hb, hv]
    rfl
  | none =>
    cases hf : m.find key with
    | none => rfl
    | some b =>
      have := (hkey b).mpr ⟨key, rfl, hf⟩
      rw [hl] at this
      cases this

end Roots

/-! ### A run with real hashes -/

/-- Strings, by length and number, with their Keccak-256 hashes. -/
def keccakSamples : List (ℕ × ℕ × ℕ) :=
  [(1, 0x80, 0x56e81f171bcc55a6ff8345e692c0f86e5b48e01b996cadc001622fb5e363b421),
   (5, 0xc482201261, 0x35ada833c638a9a5d332f9bb7d8a879269a27077a0e31404ef20273bff0d80f6),
   (35, 0xe220a06262626262626262626262626262626262626262626262626262626262626262,
    0x3aafa43efd5327011e8e8d7eb7b06c095fd66dcf51178bfc9d47a94a04bdf2a5),
   (52, 0xf38080c22061a03aafa43efd5327011e8e8d7eb7b06c095fd66dcf51178bfc9d47a94a04bdf2a580808080808080808080808080,
    0x1afe2118405ddc14e53a3f606a20d6bfc0363722453a0ace853b35fd095b5535),
   (35, 0xe211a01afe2118405ddc14e53a3f606a20d6bfc0363722453a0ace853b35fd095b5535,
    0x7a12887290080311ec2642c1b7405e9aba63d11d396438b8b85c10748d3ce35e),
   (35, 0xe233a06262626262626262626262626262626262626262626262626262626262626262,
    0x98db4b74bd9f9c638dc81f9475934d02caea1a010d6a496369dfd00d87d20504),
   (37, 0xe4822013a06262626262626262626262626262626262626262626262626262626262626262,
    0xb5f291b551a929ce43ae333fd1d8926d0a4fb55d3490a3d4ca33c9f9efa88f5f),
   (38, 0xe5822012a1626262626262626262626262626262626262626262626262626262626262626262,
    0xd986558c770907be1071fab9dc5bdbf2422d3d749d54914045a93a64a4d56a93),
   (24, 0xd7820012d3808080c2346280808080808080808080808061,
    0x39cb96beec7b44be5ac836b8ba9582f7a24ac908f320796886b0daf33019475c)]

/-- Keccak-256 on the sample strings. -/
def sampleSha3 (b : Bytes) : H256 :=
  H256.alignRight (toBigEndian 32
    (((keccakSamples.find? fun e => toBigEndian e.1 e.2.1 = b).map fun e => e.2.2).getD 0))

def shortValue : Value := ⟨[0x61], by decide⟩

/-- A short value in line, a long one behind a hash, and the branch between them collapsed. -/
def sampleOps : List TrieOp :=
  [.insert [0x12] shortValue, .insert [0x13] ⟨List.replicate 32 0x62, by decide⟩,
    .remove [0x12]]

end Aleth.Devcore
