import Aleth.Devcore.TrieInsert

/-! Removal from a stored trie.

`run_deleteAt` is the result: where `Clear` holds, `deleteAt` on the node of a
canonical tree gives the node of the tree without the key, or nothing when the
key is not there. `Clear` rules out the three ways in which `deleteAt` takes a
value for the reference of a node, or looks for a nibble that the key does not
have. Keys of one length are always clear. -/
namespace Aleth.Devcore
open Patricia Patricia.Tree Throwing GenericTrieDB Counting
open RLP (data list)

section Remove
variable {sha3 : Bytes → H256} {σ : Type} [NodeDB σ]

/-! ### Slots of a branch -/

/-- The index of a slot among the items of a branch. -/
def slotIndex : Option Nibble → ℕ
  | some a => a.val
  | none => 16

theorem slotIndex_injective : Function.Injective slotIndex := by
  intro x y h
  cases x with
  | none => cases y with
    | none => rfl
    | some b => have := b.isLt; simp only [slotIndex] at h; omega
  | some a => cases y with
    | none => have := a.isLt; simp only [slotIndex] at h; omega
    | some b => exact congrArg some (Fin.ext h)

theorem range_eq_slots : List.range 17 = (slots 16).map slotIndex := by decide

variable (sha3) in
theorem isEmpty_item (c : Nibble → NodeTree) (v : Option Value) (x : Option Nibble) :
    (!((nodeOf sha3 (.branch c v)).item (slotIndex x)).isEmpty) = used c v x := by
  rw [nodeOf_branch]
  cases x with
  | some a => rw [slotIndex, branchItems_child, isEmpty_reference]; rfl
  | none =>
    rw [slotIndex, branchItems_value]
    cases v with
    | none => rfl
    | some w =>
      cases hw : w.1 with
      | nil => exact (w.2 hw).elim
      | cons x l => simp [valueBytes, hw, RLP.isEmpty, used]

theorem uniqueInUse_eq (orig : RLP) (except : Option ℕ) :
    uniqueInUse orig except = (unique (slots 16)
      (fun x => some (slotIndex x) != except && !(orig.item (slotIndex x)).isEmpty)).map slotIndex := by
  have h := unique_map (slots 16) slotIndex fun i => some i != except && !(orig.item i).isEmpty
  rw [← range_eq_slots] at h
  refine Eq.trans ?_ h
  unfold uniqueInUse unique
  cases List.filter _ (List.range 17) with
  | nil => rfl
  | cons x r => cases r <;> rfl

/-- The slots in use are those of the tree. -/
theorem uniqueInUse_none (c : Nibble → NodeTree) (v : Option Value) :
    uniqueInUse (nodeOf sha3 (.branch c v)) none = (unique (slots 16) (used c v)).map slotIndex := by
  rw [uniqueInUse_eq]
  congr 2
  funext x
  rw [isEmpty_item]
  rfl

/-- The value's own slot not counted, as if there were no value. -/
theorem uniqueInUse_value (c : Nibble → NodeTree) (v : Option Value) :
    uniqueInUse (nodeOf sha3 (.branch c v)) (some 16) =
      (unique (slots 16) (used c none)).map slotIndex := by
  rw [uniqueInUse_eq]
  congr 2
  funext x
  rw [isEmpty_item]
  cases x with
  | none => rfl
  | some a =>
    have : a.val ≠ 16 := by have := a.isLt; omega
    simp [slotIndex, used, this]

/-! ### One step of `deleteAt` -/

theorem deleteAt_leaf (fuel : ℕ) (p : List Nibble) (w : Value) :
    (deleteAt sha3 (fuel + 1) (nodeOf sha3 (.leaf p w)) p : TrieM σ (Option RLP)) = (do
      killNode sha3 (nodeOf sha3 (.leaf p w))
      return some RLPNull) := by
  have hk : keyOfNode (nodeOf sha3 (.leaf p w)) = p := keyOfNode_nodeOf sha3 rfl
  conv_lhs => unfold deleteAt
  rw [isEmpty_of_isStem sha3 rfl, if_neg (by decide), if_pos (itemCount_of_isStem sha3 rfl)]
  simp only [hk, isLeaf_leaf, and_self, if_true]

theorem deleteAt_apart (fuel : ℕ) {t : NodeTree} (ht : t.isStem = true) {k : List Nibble}
    (hp : ¬ t.path <+: k) :
    (deleteAt sha3 (fuel + 1) (nodeOf sha3 t) k : TrieM σ (Option RLP)) = pure none := by
  have hk := keyOfNode_nodeOf sha3 ht
  have hne : t.path ≠ k := fun e => hp (e ▸ List.prefix_rfl)
  conv_lhs => unfold deleteAt
  rw [isEmpty_of_isStem sha3 ht, if_neg (by decide), if_pos (itemCount_of_isStem sha3 ht)]
  simp only [hk, hp, hne, false_and, if_false]

/-- Down, from an extension, and from a leaf whose key goes on as well. -/
theorem deleteAt_down (fuel : ℕ) {t : NodeTree} (ht : t.isStem = true) {k : List Nibble}
    (hp : t.path <+: k) (hl : isLeaf (nodeOf sha3 t) = true → t.path ≠ k) :
    (deleteAt sha3 (fuel + 1) (nodeOf sha3 t) k : TrieM σ (Option RLP)) = (do
      match ← deleteAtAux sha3 (deleteAt sha3 fuel) ((nodeOf sha3 t).item 1)
          (k.drop t.path.length) with
      | none => return none
      | some c => do
        killNode sha3 (nodeOf sha3 t)
        let r := list [(nodeOf sha3 t).item 0, c]
        if ← isTwoItemNode c then
          let g ← graft r
          return some g
        else return some r) := by
  have hk := keyOfNode_nodeOf sha3 ht
  have hno : ¬ (t.path = k ∧ isLeaf (nodeOf sha3 t) = true) := fun h => hl h.2 h.1
  conv_lhs => unfold deleteAt
  rw [isEmpty_of_isStem sha3 ht, if_neg (by decide), if_pos (itemCount_of_isStem sha3 ht)]
  simp only [hk, hp, hno, if_false]
  rfl

variable (sha3) in
theorem isEmpty_value (c : Nibble → NodeTree) (v : Option Value) :
    (!((nodeOf sha3 (.branch c v)).item 16).isEmpty) = v.isSome := by
  have := isEmpty_item sha3 c v none
  rw [slotIndex] at this
  rw [this]
  rfl

theorem deleteAt_branch_value (fuel : ℕ) (c : Nibble → NodeTree) (w : Value) :
    (deleteAt sha3 (fuel + 1) (nodeOf sha3 (.branch c (some w))) [] : TrieM σ (Option RLP)) = (do
      killNode sha3 (nodeOf sha3 (.branch c (some w)))
      match uniqueInUse (nodeOf sha3 (.branch c (some w))) (some 16) with
      | some used => do
        let r ← mergeUsed (nodeOf sha3 (.branch c (some w))) used
        return some r
      | none => return some (nodeOf sha3 (.branch c none))) := by
  conv_lhs => unfold deleteAt
  rw [isEmpty_branch, if_neg (by decide), itemCount_branch, if_neg (by decide)]
  have hv := isEmpty_value sha3 c (some w)
  have hp := branchItems_place sha3 c (some w) none
  rw [nodeOf_branch] at hv ⊢
  rw [nodeOf_branch]
  simp only [branchItems_length, if_true, hv, Option.isSome_some, and_self]
  rw [← hp]
  rfl

theorem deleteAt_branch_nil (fuel : ℕ) (c : Nibble → NodeTree) :
    (deleteAt sha3 (fuel + 1) (nodeOf sha3 (.branch c none)) [] : TrieM σ (Option RLP)) =
      Throwing.throw .readPastKey := by
  conv_lhs => unfold deleteAt
  rw [isEmpty_branch, if_neg (by decide), itemCount_branch, if_neg (by decide)]
  have hv := isEmpty_value sha3 c none
  rw [nodeOf_branch] at hv ⊢
  simp only [branchItems_length, if_true, hv]
  rfl

theorem deleteAt_branch_cons (fuel : ℕ) (c : Nibble → NodeTree) (v : Option Value) (n : Nibble)
    (k : List Nibble) :
    (deleteAt sha3 (fuel + 1) (nodeOf sha3 (.branch c v)) (n :: k) : TrieM σ (Option RLP)) = (do
      match ← deleteAtAux sha3 (deleteAt sha3 fuel) (reference sha3 (nodeOf sha3 (c n))) k with
      | none => return none
      | some c' => do
        let r := list ((branchItems sha3 c v).set n.val c')
        killNode sha3 (nodeOf sha3 (.branch c v))
        match uniqueInUse r none with
        | none => return some r
        | some used => do
          let m ← mergeUsed r used
          return some m) := by
  conv_lhs => unfold deleteAt
  rw [isEmpty_branch, if_neg (by decide), itemCount_branch, if_neg (by decide)]
  rw [nodeOf_branch]
  simp only [branchItems_length, branchItems_child, reduceCtorEq, false_and, if_false]
  rfl

/-! ### Runs -/

variable [LawfulNodeDB σ]

/-- `node` and `RLP` of a stored node. -/
theorem run_node_stored {db : σ} (hs : Sound sha3 db) (hn : NoCollision sha3 db) {r : RLP}
    (hr : NodeDB.lookup db (sha3 r.encode) = r.encode) :
    RLP.ofString (NodeDB.lookup db (sha3 r.encode)) = .ok (some r) := by
  have hin := (hs.held (sha3 r.encode) (by rw [hr]; exact encode_ne_nil r)).1
  rw [hr] at hin ⊢
  exact ofString_encode (hn.fits _ hin)

theorem decide_itemCount {t : NodeTree} (ht : t.isEmpty = false) :
    decide ((nodeOf sha3 t).itemCount = 2) = t.isStem := by
  cases t with
  | empty => cases ht
  | branch c v => rw [itemCount_branch]; rfl
  | _ => rfl

theorem run_isTwoItemNode {db : σ} (hs : Sound sha3 db) (hn : NoCollision sha3 db) {t : NodeTree}
    (hst : Stored sha3 db t) (ht : t.isEmpty = false) :
    (isTwoItemNode (reference sha3 (nodeOf sha3 t))).run db = (.ok t.isStem, db) := by
  by_cases hl : (nodeOf sha3 t).encode.length < 32
  · have hr : reference sha3 (nodeOf sha3 t) = nodeOf sha3 t := if_pos hl
    have hlist : ∀ r : RLP, r.isList = true →
        (isTwoItemNode r : TrieM σ Bool) = pure (decide (r.itemCount = 2)) := by
      intro r h
      cases r with
      | data b => cases h
      | list l => rfl
    rw [hr, hlist _ (isList_nodeOf sha3 ht), decide_itemCount ht]
    rfl
  · have hr : reference sha3 (nodeOf sha3 t) = data (sha3 (nodeOf sha3 t).encode).bytes := if_neg hl
    have hnode : (node (sha3 (nodeOf sha3 t).encode) : TrieM σ Bytes).run db =
        (.ok (NodeDB.lookup db (sha3 (nodeOf sha3 t).encode)), db) := rfl
    rw [hr, isTwoItemNode, run_bind_ok (by rw [run_lift, toHash_bytes]), run_bind_ok hnode,
      run_bind_ok (by rw [run_lift, run_node_stored hs hn (hst.1 (by omega))]), run_pure,
      decide_itemCount ht]

/-- The extension and the node below it become one. -/
theorem run_graft {db : σ} (hs : Sound sha3 db) (hn : NoCollision sha3 db) {t : NodeTree}
    (hst : Stored sha3 db t) (ht : t.isStem = true) (p : List Nibble) :
    (graft (nodeOf sha3 (.ext p t))).run db =
      (.ok (nodeOf sha3 (extend p t)), killed sha3 db (nodeOf sha3 t)) := by
  have hkey : keyOfNode (nodeOf sha3 (.ext p t)) = p := keyOfNode_nodeOf sha3 rfl
  have hgrafted : list [data (hexPrefixEncode (p ++ t.path) (isLeaf (nodeOf sha3 t))),
      (nodeOf sha3 t).item 1] = nodeOf sha3 (extend p t) := by
    rw [nodeOf_withPath sha3 ht]
    cases t <;> first | rfl | cases ht
  have hitem : (nodeOf sha3 (.ext p t)).item 1 = reference sha3 (nodeOf sha3 t) := rfl
  unfold graft
  by_cases hl : (nodeOf sha3 t).encode.length < 32
  · have hr : reference sha3 (nodeOf sha3 t) = nodeOf sha3 t := if_pos hl
    have hk : killed sha3 db (nodeOf sha3 t) = db := if_neg (by omega)
    have hlist : (nodeOf sha3 t).isList = true :=
      isList_nodeOf sha3 (by cases t <;> first | rfl | cases ht)
    rw [hitem, hr, if_pos hlist, run_bind_ok (run_pure _ _), itemCount_of_isStem sha3 ht,
      if_pos rfl, hkey, keyOfNode_nodeOf sha3 ht, hgrafted, hk]
    rfl
  · have hr : reference sha3 (nodeOf sha3 t) = data (sha3 (nodeOf sha3 t).encode).bytes := if_neg hl
    have hk : killed sha3 db (nodeOf sha3 t) = NodeDB.kill db (sha3 (nodeOf sha3 t).encode) :=
      if_pos (by omega)
    have hchild : (do
        let lh ← lift (data (sha3 (nodeOf sha3 t).encode).bytes).toHash
        let n ← nodeAt lh
        forceKillNode lh
        pure n : TrieM σ RLP).run db = (.ok (nodeOf sha3 t), killed sha3 db (nodeOf sha3 t)) := by
      rw [run_bind_ok (by rw [run_lift, toHash_bytes]),
        run_bind_ok (run_nodeAt hs hn (hst.1 (by omega))), hk]
      rfl
    rw [hitem, hr, if_neg (by simp [RLP.isList]), run_bind_ok hchild, itemCount_of_isStem sha3 ht,
      if_pos rfl, hkey, keyOfNode_nodeOf sha3 ht, hgrafted]
    rfl

theorem extend_of_not_isStem {t : NodeTree} (ht : t.isStem = false) (p : List Nibble) :
    extend p t = .ext p t := by
  cases t <;> first | rfl | cases ht

/-- An extension above a stored tree is grafted with it or left alone. -/
theorem replaced_extend {db : σ} {t : NodeTree} {P : Prop} (ht : t.isStem = true)
    (hst : Stored sha3 db t) (hs : Sound sha3 db)
    (hn : NoCollision sha3 (killed sha3 db (nodeOf sha3 t))) (p : List Nibble) :
    Replaced sha3 P db (killed sha3 db (nodeOf sha3 t)) (refsAt sha3 t) (extend p t) := by
  have hp : extend p t = t.withPath (p ++ t.path) := by cases t <;> first | rfl | cases ht
  have hb := below_withPath (hst.2.mono (Extends.killed _ _) hs hn) (p ++ t.path)
  rw [hp]
  refine ⟨Extends.killed _ _, hb, fun _ => ?_⟩
  rw [refsBelow_withPath]
  exact ((exchanges_killed sha3 db (nodeOf sha3 t)).frame _).congr rfl (zero_add _).symm

/-- An extension whose child has changed is grafted with the child, or left alone. -/
theorem run_regraft {P : Prop} {db : σ} (hs : Sound sha3 db) {t : NodeTree}
    (hst : Stored sha3 db t) (ht : t.isEmpty = false) (p : List Nibble)
    (hn : NoCollision sha3 ((do
      if ← isTwoItemNode (reference sha3 (nodeOf sha3 t)) then
        let g ← graft (nodeOf sha3 (.ext p t))
        return some g
      else return some (nodeOf sha3 (.ext p t)) : TrieM σ (Option RLP)).run db).2) :
    ∃ db', (do
        if ← isTwoItemNode (reference sha3 (nodeOf sha3 t)) then
          let g ← graft (nodeOf sha3 (.ext p t))
          return some g
        else return some (nodeOf sha3 (.ext p t)) : TrieM σ (Option RLP)).run db =
        (.ok (some (nodeOf sha3 (extend p t))), db') ∧
      Replaced sha3 P db db' (refsAt sha3 t) (extend p t) := by
  have hn₀ : NoCollision sha3 db := hn.of_extends (grows_bind (grows_isTwoItemNode _) (fun b => by
    split
    · exact grows_bind (grows_graft _) fun _ => grows_pure _
    · exact grows_pure _) db)
  rw [run_bind_ok (run_isTwoItemNode hs hn₀ hst ht)] at hn ⊢
  cases hstem : t.isStem with
  | true =>
    rw [hstem, if_pos rfl, run_bind_ok (run_graft hs hn₀ hst hstem p)] at hn
    rw [if_pos rfl, run_bind_ok (run_graft hs hn₀ hst hstem p)]
    exact ⟨_, rfl, replaced_extend hstem hst hs hn p⟩
  | false =>
    rw [if_neg (by decide), extend_of_not_isStem hstem]
    exact ⟨db, rfl, Replaced.self (t := .ext p t) P hst⟩

/-- The value is not taken for the reference of a two-item node. -/
def Harmless (db : σ) (w : Value) : Prop :=
  w.1.length ≤ 32 ∧ (NodeDB.lookup db (H256.alignRight w.1) = [] ∨
    ∃ r, RLP.decode (NodeDB.lookup db (H256.alignRight w.1)) = some r ∧ r.itemCount ≠ 2)

omit [LawfulNodeDB σ] in
theorem run_isTwoItemNode_value {db : σ} {w : Value} (h : Harmless db w) :
    (isTwoItemNode (data w.1)).run db = (.ok false, db) := by
  have hcast : (data w.1).toHash = .ok (H256.alignRight w.1) := by
    rw [RLP.toHash, if_neg (by have := h.1; omega)]
  have hnode : (node (H256.alignRight w.1) : TrieM σ Bytes).run db =
      (.ok (NodeDB.lookup db (H256.alignRight w.1)), db) := rfl
  rw [isTwoItemNode, run_bind_ok (by rw [run_lift, hcast]), run_bind_ok hnode]
  obtain hnone | ⟨r, hr, hcount⟩ := h.2
  · rw [hnone]
    rfl
  · have hstr : RLP.ofString (NodeDB.lookup db (H256.alignRight w.1)) = .ok (some r) := by
      unfold RLP.ofString
      split
      case h_1 he => rw [he] at hr; cases hr
      case h_2 => rw [hr]
    rw [run_bind_ok (by rw [run_lift, hstr]), run_pure, decide_eq_false hcount]

/-- The branch becomes an extension to its only child, grafted with it. -/
theorem run_mergeUsed_child {P : Prop} {db : σ} (hs : Sound sha3 db) {c : Nibble → NodeTree}
    {a : Nibble} (hst : Stored sha3 db (c a)) (ha : (c a).isEmpty = false) (v : Option Value)
    (hn : NoCollision sha3 ((mergeUsed (nodeOf sha3 (.branch c v)) a.val).run db).2) :
    ∃ db', (mergeUsed (nodeOf sha3 (.branch c v)) a.val).run db =
        (.ok (nodeOf sha3 (extend [a] (c a))), db') ∧
      Replaced sha3 P db db' (refsAt sha3 (c a)) (extend [a] (c a)) := by
  have hn₀ := hn.of_extends (grows_mergeUsed _ _ db)
  have hitem : (nodeOf sha3 (.branch c v)).item a.val = reference sha3 (nodeOf sha3 (c a)) :=
    branchItems_child sha3 c v a
  have hmerge : merge (nodeOf sha3 (.branch c v)) a.val = nodeOf sha3 (.ext [a] (c a)) := by
    rw [merge, dif_pos a.isLt, hitem]
    rfl
  unfold mergeUsed at hn ⊢
  rw [hitem, run_bind_ok (run_isTwoItemNode hs hn₀ hst ha), hmerge] at hn ⊢
  cases hstem : (c a).isStem with
  | true =>
    rw [hstem, if_pos rfl, run_graft hs hn₀ hst hstem] at hn
    rw [if_pos rfl, run_graft hs hn₀ hst hstem]
    exact ⟨_, rfl, replaced_extend hstem hst hs hn [a]⟩
  | false =>
    rw [if_neg (by decide), extend_of_not_isStem hstem]
    exact ⟨db, rfl, Replaced.self (t := .ext [a] (c a)) P hst⟩

omit [LawfulNodeDB σ] in
theorem run_mergeUsed_value {db : σ} {w : Value} (hw : Harmless db w) (c : Nibble → NodeTree) :
    (mergeUsed (nodeOf sha3 (.branch c (some w))) 16).run db =
      (.ok (nodeOf sha3 (.leaf [] w)), db) := by
  have hitem : (nodeOf sha3 (.branch c (some w))).item 16 = data w.1 :=
    branchItems_value sha3 c (some w)
  have hmerge : merge (nodeOf sha3 (.branch c (some w))) 16 = nodeOf sha3 (.leaf [] w) := by
    rw [merge, dif_neg (by decide), hitem]
    rfl
  unfold mergeUsed
  rw [hitem, run_bind_ok (run_isTwoItemNode_value hw), hmerge]
  rfl

omit [NodeDB σ] [LawfulNodeDB σ] in
theorem refsBelow_of_unused {c : Nibble → NodeTree} {a : Nibble}
    (h : ∀ b, b ≠ a → (c b).isEmpty = true) (v : Option Value) :
    refsBelow sha3 (.branch c v) = refsAt sha3 (c a) := by
  have hc : c = only a (c a) := by
    funext b
    unfold only
    by_cases hb : b = a
    · rw [hb, Function.update_self]
    · rw [Function.update_of_ne hb, eq_empty_of_isEmpty (h b hb)]
  calc refsBelow sha3 (.branch c v) = refsBelow sha3 (.branch (only a (c a)) v) := by rw [← hc]
    _ = refsAt sha3 (c a) := refsBelow_only sha3 a v (c a)

/-- A branch that may have shrunk is merged with what is left in it. -/
theorem run_collapse {P : Prop} {db : σ} (hs : Sound sha3 db) {c : Nibble → NodeTree}
    {v : Option Value} (hb : Below sha3 db (.branch c v))
    (hw : ∀ w, v = some w → unique (slots 16) (used c v) = some none → Harmless db w)
    (hn : NoCollision sha3 ((match uniqueInUse (nodeOf sha3 (.branch c v)) none with
      | none => return some (nodeOf sha3 (.branch c v))
      | some used => do
        let m ← mergeUsed (nodeOf sha3 (.branch c v)) used
        return some m : TrieM σ (Option RLP)).run db).2) :
    ∃ db', (match uniqueInUse (nodeOf sha3 (.branch c v)) none with
      | none => return some (nodeOf sha3 (.branch c v))
      | some used => do
        let m ← mergeUsed (nodeOf sha3 (.branch c v)) used
        return some m : TrieM σ (Option RLP)).run db =
        (.ok (some (nodeOf sha3 (collapse c v))), db') ∧
      Replaced sha3 P db db' (refsBelow sha3 (.branch c v)) (collapse c v) := by
  rw [uniqueInUse_none] at hn ⊢
  cases hu : unique (slots 16) (used c v) with
  | none =>
    have hcol : collapse c v = .branch c v := collapse_none hu
    rw [hcol]
    exact ⟨db, rfl, Replaced.self P hb⟩
  | some x =>
    obtain ⟨_, hx, huniq⟩ := unique_eq_some hu
    rw [hu] at hn
    cases x with
    | some a =>
      have hcol : collapse c v = extend [a] (c a) := collapse_child hu
      have hused : (c a).isEmpty = false := by simpa [used] using hx
      have hothers : ∀ b, b ≠ a → (c b).isEmpty = true := by
        intro b hba
        by_contra hne
        have := huniq (some b) (mem_slots _) (by simpa [used] using hne)
        exact hba (Option.some.inj this)
      obtain ⟨db', hrun, hrep⟩ := run_mergeUsed_child (P := P) hs (hb a) hused v
        (hn.of_bind fun _ => grows_pure _)
      rw [hcol, refsBelow_of_unused hothers]
      exact ⟨db', by simp only [Option.map_some, slotIndex]; rw [run_bind_ok hrun, run_pure], hrep⟩
    | none =>
      cases v with
      | none => cases hx
      | some w =>
        have hcol : collapse c (some w) = .leaf [] w := collapse_value hu
        have hothers : ∀ b, (c b).isEmpty = true := by
          intro b
          by_contra hne
          have := huniq (some b) (mem_slots _) (by simpa [used] using hne)
          cases this
        refine ⟨db, ?_, ?_⟩
        · simp only [Option.map_some, slotIndex]
          rw [run_bind_ok (run_mergeUsed_value (hw w rfl hu) c), run_pure, hcol]
        · rw [hcol, refsBelow_of_unused (a := 0) (fun b _ => hothers b),
            eq_empty_of_isEmpty (hothers 0), refsAt_empty]
          exact Replaced.self (t := .leaf [] w) P trivial

/-! ### Removal -/

omit [LawfulNodeDB σ] in
/-- A lookup that a kill leaves alone. -/
theorem Harmless.of_lookup {db db' : σ} {w : Value} (h : Harmless db w)
    (he : ∀ h, NodeDB.lookup db' h = NodeDB.lookup db h) : Harmless db' w := by
  unfold Harmless
  rw [he]
  exact h

theorem lookup_killed {db : σ} (hs : Sound sha3 db) (r : RLP) (h : H256) :
    NodeDB.lookup (killed sha3 db r) h = NodeDB.lookup db h := by
  unfold killed
  split
  · exact LawfulNodeDB.lookup_kill _ h hs.plain
  · rfl

/-- The walk along the key takes no value for a reference, and does not run out of key in a
branch that has no value. -/
def Clear (db : σ) : NodeTree → List Nibble → Prop
  | .empty, _ => True
  | .leaf p _, k => p <+: k → p = k
  | .ext p t, k => p <+: k → Clear db t (k.drop p.length)
  | .branch _ v, [] => v.isSome = true
  | .branch c v, a :: k => Clear db (c a) k ∧ ∀ t w, (c a).delete k = some t → v = some w →
      unique (slots 16) (used (Function.update c a t) v) = some none → Harmless db w

/-- What `deleteAt` comes to on the node of `t`, in terms of `t.delete`. A tree that vanishes
was a leaf, and nothing was stored in its place. -/
def Deletes (sha3 : Bytes → H256) (db : σ) (t : NodeTree) (r : Except TrieError (Option RLP) × σ) :
    Option NodeTree → Prop
  | none => r = (.ok none, db)
  | some t' => ∃ db', r = (.ok (some (nodeOf sha3 t')), db') ∧
      Replaced sha3 True db db' (refsAt sha3 t) t' ∧
      (t'.isEmpty = true → ∀ h, NodeDB.lookup db' h = NodeDB.lookup db h)

/-- A child is looked up by its hash unless it is in line; there is nothing to do in an empty
one. -/
theorem run_deleteAtAux {f : RLP → List Nibble → TrieM σ (Option RLP)} {db : σ}
    (hs : Sound sha3 db) (hn : NoCollision sha3 db) {t : NodeTree} (hst : Stored sha3 db t)
    (k : List Nibble) :
    (deleteAtAux sha3 f (reference sha3 (nodeOf sha3 t)) k).run db =
      ((if t.isEmpty then pure none else f (nodeOf sha3 t) k : TrieM σ (Option RLP)) >>= fun b =>
        match b with
        | none => return none
        | some b => do
          let c ← streamNode sha3 b
          return some c).run db := by
  unfold deleteAtAux
  rw [isEmpty_reference]
  cases he : t.isEmpty with
  | true => rfl
  | false =>
    simp only [Bool.false_eq_true, if_false]
    by_cases hl : (nodeOf sha3 t).encode.length < 32
    · have hr : reference sha3 (nodeOf sha3 t) = nodeOf sha3 t := if_pos hl
      rw [hr, isList_nodeOf sha3 he]
      rfl
    · have hr : reference sha3 (nodeOf sha3 t) = data (sha3 (nodeOf sha3 t).encode).bytes :=
        if_neg hl
      have hfetch : (do
          let h ← lift (data (sha3 (nodeOf sha3 t).encode).bytes).toHash
          let r ← nodeAt h
          f r k : TrieM σ (Option RLP)).run db = (f (nodeOf sha3 t) k).run db := by
        rw [run_bind_ok (by rw [run_lift, toHash_bytes]),
          run_bind_ok (run_nodeAt hs hn (hst.1 (by omega)))]
      rw [hr, if_neg (by simp [RLP.isList])]
      exact run_bind_congr hfetch _

/-- Down into a child: nothing happens, or it is replaced and the new one stored. -/
theorem run_deleteChild {f : RLP → List Nibble → TrieM σ (Option RLP)}
    (hg : ∀ r k, Grows (Extends sha3) (f r k)) {db : σ} (hs : Sound sha3 db)
    {t : NodeTree} (hst : Stored sha3 db t) {k : List Nibble}
    (hn : NoCollision sha3 ((deleteAtAux sha3 f (reference sha3 (nodeOf sha3 t)) k).run db).2)
    (ih : t.isEmpty = false → NoCollision sha3 ((f (nodeOf sha3 t) k).run db).2 →
      Deletes sha3 db t ((f (nodeOf sha3 t) k).run db) (t.delete k)) :
    match t.delete k with
    | none => (deleteAtAux sha3 f (reference sha3 (nodeOf sha3 t)) k).run db = (.ok none, db)
    | some t' => ∃ db', (deleteAtAux sha3 f (reference sha3 (nodeOf sha3 t)) k).run db =
          (.ok (some (reference sha3 (nodeOf sha3 t'))), streamed sha3 db' (nodeOf sha3 t')) ∧
        Replaced sha3 True db db' (refsAt sha3 t) t' ∧
        NoCollision sha3 (streamed sha3 db' (nodeOf sha3 t')) ∧
        (t'.isEmpty = true →
          ∀ h, NodeDB.lookup (streamed sha3 db' (nodeOf sha3 t')) h = NodeDB.lookup db h) := by
  have hn₀ := hn.of_extends (grows_deleteAtAux hg _ _ db)
  rw [run_deleteAtAux hs hn₀ hst] at hn ⊢
  cases he : t.isEmpty with
  | true =>
    rw [eq_empty_of_isEmpty he]
    rfl
  | false =>
    rw [he, if_neg (by decide)] at hn
    rw [if_neg (by decide)]
    have hdel := ih he (hn.of_bind fun b => by
      cases b with
      | none => exact grows_pure _
      | some b => exact grows_bind (grows_streamNode b) fun _ => grows_pure _)
    cases hd : t.delete k with
    | none =>
      rw [hd] at hdel
      rw [run_bind_ok hdel]
      rfl
    | some t' =>
      rw [hd] at hdel
      obtain ⟨db', hrun, hrep, hquiet⟩ := hdel
      have hstream : (do
          let c ← streamNode sha3 (nodeOf sha3 t')
          return some c : TrieM σ (Option RLP)).run db' =
            (.ok (some (reference sha3 (nodeOf sha3 t'))), streamed sha3 db' (nodeOf sha3 t')) := by
        rw [run_bind_ok (run_streamNode sha3 _ _), run_pure]
      rw [run_bind_ok hrun, hstream] at hn
      refine ⟨db', by rw [run_bind_ok hrun, hstream], hrep, hn, fun hemp h => ?_⟩
      rw [eq_empty_of_isEmpty hemp] at hquiet ⊢
      have : streamed sha3 db' (nodeOf sha3 .empty) = db' :=
        if_pos (by rw [nodeOf, RLPNull_encode_length]; decide)
      rw [this]
      exact hquiet rfl h

/-- The value of a branch goes, and its slot with it. -/
theorem run_deleteAt_value {db : σ} (hs : Sound sha3 db) {c : Nibble → NodeTree} {w : Value}
    (hb : Below sha3 db (.branch c (some w))) (fuel : ℕ)
    (hn : NoCollision sha3
      ((deleteAt sha3 (fuel + 1) (nodeOf sha3 (.branch c (some w))) []).run db).2) :
    Deletes sha3 db (.branch c (some w))
      ((deleteAt sha3 (fuel + 1) (nodeOf sha3 (.branch c (some w))) []).run db)
      (some (collapse c none)) := by
  rw [deleteAt_branch_value, run_bind_ok (run_killNode sha3 _ _), uniqueInUse_value] at hn ⊢
  have hs₁ := (Extends.killed db (nodeOf sha3 (.branch c (some w)))).sound hs
  have hbelow (hn₁ : NoCollision sha3 (killed sha3 db (nodeOf sha3 (.branch c (some w))))) :
      Below sha3 (killed sha3 db (nodeOf sha3 (.branch c (some w)))) (.branch c none) :=
    Below.mono (t := .branch c none) hb (Extends.killed _ _) hs hn₁
  cases hu : unique (slots 16) (used c none) with
  | none =>
    rw [hu] at hn
    rw [collapse_none hu]
    exact ⟨_, rfl, (Replaced.self True (hbelow hn)).after_kill, fun he => by cases he⟩
  | some x =>
    obtain ⟨_, hx, huniq⟩ := unique_eq_some hu
    cases x with
    | none => cases hx
    | some a =>
      rw [hu] at hn
      have hn₁ := (hn.of_bind fun _ => grows_pure _).of_extends (grows_mergeUsed _ _ _)
      have hused : (c a).isEmpty = false := by simpa [used] using hx
      have hothers : ∀ b, b ≠ a → (c b).isEmpty = true := by
        intro b hba
        by_contra hne
        have := huniq (some b) (mem_slots _) (by simpa [used] using hne)
        exact hba (Option.some.inj this)
      obtain ⟨db', hrun, hrep⟩ := run_mergeUsed_child (P := True) hs₁ (hbelow hn₁ a) hused
        (some w) (hn.of_bind fun _ => grows_pure _)
      rw [collapse_child hu]
      refine ⟨db', ?_, ?_, fun he => by simp at he⟩
      · simp only [Option.map_some, slotIndex]
        rw [run_bind_ok hrun, run_pure]
      · rw [← refsBelow_of_unused hothers (some w)] at hrep
        exact hrep.after_kill

/-- `deleteAt` deletes. -/
theorem run_deleteAt {t : NodeTree} (ht : t.Canonical) {db : σ} (hs : Sound sha3 db)
    (hb : Below sha3 db t) {k : List Nibble} (hc : Clear db t k) {fuel : ℕ}
    (hf : k.length + 1 ≤ fuel)
    (hn : NoCollision sha3 ((deleteAt sha3 fuel (nodeOf sha3 t) k).run db).2) :
    Deletes sha3 db t ((deleteAt sha3 fuel (nodeOf sha3 t) k).run db) (t.delete k) := by
  induction t generalizing db k fuel with
  | empty =>
    obtain ⟨fuel, rfl⟩ : ∃ f, fuel = f + 1 := ⟨fuel - 1, by omega⟩
    rfl
  | leaf p w =>
    obtain ⟨fuel, rfl⟩ : ∃ f, fuel = f + 1 := ⟨fuel - 1, by omega⟩
    by_cases hk : k = p
    · subst hk
      rw [deleteAt_leaf, run_bind_ok (run_killNode sha3 _ _), Tree.delete, if_pos rfl]
      exact ⟨_, rfl, (Replaced.self (t := .empty) True trivial).after_kill,
        fun _ => lookup_killed hs _⟩
    · have hp : ¬ p <+: k := fun h => hk (hc h).symm
      rw [deleteAt_apart fuel (t := .leaf p w) rfl hp, Tree.delete, if_neg hk]
      rfl
  | ext p t ih =>
    obtain ⟨fuel, rfl⟩ : ∃ f, fuel = f + 1 := ⟨fuel - 1, by omega⟩
    by_cases hp : p <+: k
    · have hlen : (k.drop p.length).length + 1 ≤ fuel := by
        have := hp.length_le
        have := List.length_pos_of_ne_nil ht.1
        rw [List.length_drop]
        omega
      rw [deleteAt_down fuel (t := .ext p t) rfl hp (by simp)] at hn ⊢
      rw [show (Tree.ext p t).path = p from rfl,
        show (nodeOf sha3 (.ext p t)).item 1 = reference sha3 (nodeOf sha3 t) from rfl] at hn ⊢
      have hchild := run_deleteChild (grows_deleteAt fuel) hs hb (hn.of_bind fun b => by
          cases b with
          | none => exact grows_pure _
          | some b => exact grows_regraft _ _) fun _ => ih ht.2.2 hs hb.2 (hc hp) hlen
      rw [Tree.delete, if_pos hp]
      cases hd : t.delete (k.drop p.length) with
      | none =>
        rw [hd] at hchild
        exact run_bind_ok hchild _
      | some t' =>
        rw [hd] at hchild
        obtain ⟨db₁, hrun, hrep, hn₁, _⟩ := hchild
        have hne : t'.isEmpty = false := isEmpty_delete_of_isBranch ht.2.1 hd
        rw [run_bind_ok hrun] at hn ⊢
        dsimp only at hn ⊢
        rw [show (nodeOf sha3 (.ext p t)).item 0 = data (hexPrefixEncode p false) from rfl,
          run_bind_ok (run_killNode sha3 _ _)] at hn ⊢
        have hn₂ := hn.of_extends (grows_bind (grows_isTwoItemNode _) (fun b => by
          split
          · exact grows_bind (grows_graft _) fun _ => grows_pure _
          · exact grows_pure _) _)
        have hext := (hrep.ext hs hn₁ p).then_kill hs hn₂
        obtain ⟨db₂, hrun₂, hrep₂⟩ := run_regraft (P := True) (hext.grown.sound hs) hext.below
          hne p hn
        exact ⟨db₂, hrun₂, hrep₂.after hext.grown hext.counts, fun he => by simp at he⟩
    · rw [deleteAt_apart fuel (t := .ext p t) rfl hp, Tree.delete, if_neg hp]
      rfl
  | branch c v ih =>
    obtain ⟨fuel, rfl⟩ : ∃ f, fuel = f + 1 := ⟨fuel - 1, by omega⟩
    cases k with
    | nil =>
      cases v with
      | none => cases hc
      | some w => exact run_deleteAt_value hs hb fuel hn
    | cons a k =>
      rw [deleteAt_branch_cons] at hn ⊢
      have hchild := run_deleteChild (grows_deleteAt fuel) hs (hb a) (hn.of_bind fun b => by
          cases b with
          | none => exact grows_pure _
          | some b => exact grows_remerge _ _)
        fun _ => ih a (ht.1 a) hs (hb a).2 hc.1 (by simp at hf; omega)
      rw [delete_branch_cons]
      cases hd : (c a).delete k with
      | none =>
        rw [hd] at hchild
        exact run_bind_ok hchild _
      | some t' =>
        rw [hd] at hchild
        obtain ⟨db₁, hrun, hrep, hn₁, hquiet⟩ := hchild
        rw [run_bind_ok hrun] at hn ⊢
        simp only [branchItems_set, ← nodeOf_branch] at hn ⊢
        rw [run_bind_ok (run_killNode sha3 _ _)] at hn ⊢
        have hn₂ := hn.of_extends (grows_rejoin _ _)
        have hbr := (hrep.branch hs hn₁ hb v v).then_kill hs hn₂
        have hw : ∀ w, v = some w →
            unique (slots 16) (used (Function.update c a t') v) = some none → Harmless
              (killed sha3 (streamed sha3 db₁ (nodeOf sha3 t')) (nodeOf sha3 (.branch c v))) w := by
          intro w hv hu
          have hemp : t'.isEmpty = true := by
            by_contra hne
            have := (unique_eq_some hu).2.2 (some a) (mem_slots _) (by simpa [used] using hne)
            cases this
          refine (hc.2 t' w hd hv hu).of_lookup fun h => ?_
          rw [lookup_killed ((hrep.grown.trans (Extends.streamed _ _)).sound hs), hquiet hemp]
        obtain ⟨db₂, hrun₂, hrep₂⟩ := run_collapse (P := True) (hbr.grown.sound hs) hbr.below hw hn
        exact ⟨db₂, hrun₂, hrep₂.after hbr.grown hbr.counts, fun he => by simp at he⟩

end Remove
end Aleth.Devcore
