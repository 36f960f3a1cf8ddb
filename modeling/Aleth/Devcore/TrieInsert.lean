import Aleth.Devcore.TrieStored

/-! Insertion into a stored trie.

`run_mergeAt` is the result: `mergeAt` on the node of a canonical tree gives the
node of the tree with the key inserted, and exchanges the references of the one
for those of the other. A key that leaves the path of a leaf or an extension
takes the code through intermediate nodes (`cleve`, `branch`) that are in no
tree; those runs are followed step by step first. -/
namespace Aleth.Devcore
open Patricia Patricia.Tree Throwing GenericTrieDB Counting
open RLP (data list)

/-! ### Nodes as the code reads them -/

section Reading
variable (sha3 : Bytes → H256)

theorem keyOfNode_nodeOf {t : NodeTree} (ht : t.isStem = true) :
    keyOfNode (nodeOf sha3 t) = t.path := by
  cases t <;> first | exact keyOf_hexPrefixEncode _ _ | cases ht

@[simp] theorem isLeaf_leaf (p : List Nibble) (v : Value) :
    isLeaf (nodeOf sha3 (.leaf p v)) = true := isLeafKey_hexPrefixEncode p true

@[simp] theorem isLeaf_ext (p : List Nibble) (t : NodeTree) :
    isLeaf (nodeOf sha3 (.ext p t)) = false := isLeafKey_hexPrefixEncode p false

theorem itemCount_of_isStem {t : NodeTree} (ht : t.isStem = true) :
    (nodeOf sha3 t).itemCount = 2 := by
  cases t <;> first | rfl | cases ht

theorem isEmpty_of_isStem {t : NodeTree} (ht : t.isStem = true) :
    (nodeOf sha3 t).isEmpty = false := by
  rw [isEmpty_nodeOf]
  cases t <;> first | rfl | cases ht

@[simp] theorem itemCount_branch (c : Nibble → NodeTree) (v : Option Value) :
    (nodeOf sha3 (.branch c v)).itemCount = 17 := branchItems_length sha3 c v

@[simp] theorem isEmpty_branch (c : Nibble → NodeTree) (v : Option Value) :
    (nodeOf sha3 (.branch c v)).isEmpty = false := isEmpty_nodeOf sha3 _

theorem branchItems_none (v : Option Value) :
    branchItems sha3 (fun _ => .empty) v =
      List.replicate 16 (data []) ++ [data (valueBytes v)] := by
  have hnull : reference sha3 (nodeOf sha3 .empty) = data [] := reference_null sha3
  simp [branchItems, hnull, List.map_const']

/-- A leaf or an extension with another path, as `cleve` and `branch` write it. -/
theorem nodeOf_withPath {t : NodeTree} (ht : t.isStem = true) (q : List Nibble) :
    list [data (hexPrefixEncode q (isLeaf (nodeOf sha3 t))), (nodeOf sha3 t).item 1] =
      nodeOf sha3 (t.withPath q) := by
  cases t with
  | leaf p v => rw [isLeaf_leaf]; rfl
  | ext p t => rw [isLeaf_ext]; rfl
  | _ => cases ht

theorem toHash_bytes (h : H256) : (data h.bytes).toHash = .ok h := by
  have : ¬ 32 < h.bytes.length := by rw [h.size]; omega
  rw [RLP.toHash, if_neg this, H256.alignRight_bytes]

theorem ofString_encode {r : RLP} (h : RLP.Fits r.encode) :
    RLP.ofString r.encode = .ok (some r) := by
  have hd := RLP.decode_encode r h
  have hne := encode_ne_nil r
  unfold RLP.ofString
  split
  case h_1 he => exact (hne he).elim
  case h_2 => rw [hd]

theorem isEmpty_bytes (h : H256) : (data h.bytes).isEmpty = false := by
  have hs := h.size
  cases hb : h.bytes with
  | nil => rw [hb] at hs; cases hs
  | cons x l => rfl

end Reading

section Insert
variable {sha3 : Bytes → H256} {σ : Type} [NodeDB σ]

theorem killed_null (db : σ) : killed sha3 db RLPNull = db := by
  unfold killed
  rw [RLPNull_encode_length]
  rfl

theorem run_killUnless {inl : Bool} {r : RLP} (hi : inl = true → r.encode.length < 32) (db : σ) :
    (killUnless inl r (sha3 r.encode)).run db = (.ok (), killed sha3 db r) := by
  unfold killUnless killed killNodeAt
  split
  case isTrue h =>
    have : ¬ 32 ≤ r.encode.length := by have := hi h; omega
    rw [if_neg this]
    rfl
  case isFalse => split <;> rfl

theorem run_place_empty (k : List Nibble) (v : Value) (db : σ) :
    (place sha3 RLPNull k v.1).run db = (.ok (nodeOf sha3 (.leaf k v)), db) := by
  unfold place
  rw [run_bind_ok (run_killNode sha3 _ _), killed_null]
  rfl

theorem run_place_leaf (k : List Nibble) (w v : Value) (db : σ) :
    (place sha3 (nodeOf sha3 (.leaf k w)) k v.1).run db =
      (.ok (nodeOf sha3 (.leaf k v)), killed sha3 db (nodeOf sha3 (.leaf k w))) := by
  unfold place
  rw [run_bind_ok (run_killNode sha3 _ _)]
  rfl

theorem run_place_branch (c : Nibble → NodeTree) (w : Option Value) (v : Value) (db : σ) :
    (place sha3 (nodeOf sha3 (.branch c w)) [] v.1).run db =
      (.ok (nodeOf sha3 (.branch c (some v))), killed sha3 db (nodeOf sha3 (.branch c w))) := by
  have hcases : nodeOf sha3 (.branch c w) = list (branchItems sha3 c w) := rfl
  have hpair : ∀ x y, branchItems sha3 c w ≠ [x, y] := fun x y e => by
    have := congrArg List.length e
    simp at this
  unfold place
  rw [run_bind_ok (run_killNode sha3 _ _), isEmpty_branch, if_neg (by decide), hcases]
  split
  case h_1 x y heq => exact (hpair x y (RLP.list.inj heq)).elim
  case h_2 l _ heq =>
    obtain rfl := RLP.list.inj heq
    rw [if_pos (branchItems_length sha3 c w), run_pure, nodeOf_branch,
      ← branchItems_place sha3 c w (some v)]
    rfl
  case h_3 heq => cases heq

/-! ### One step of `mergeAt` -/

theorem mergeAt_empty (fuel : Nat) (h : H256) (k : List Nibble) (v : Bytes) (inl : Bool) :
    (mergeAt sha3 (fuel + 1) RLPNull h k v inl : TrieM σ RLP) = place sha3 RLPNull k v := rfl

theorem mergeAt_leaf (fuel : Nat) (p : List Nibble) (w : Value) (h : H256) (v : Bytes)
    (inl : Bool) : (mergeAt sha3 (fuel + 1) (nodeOf sha3 (.leaf p w)) h p v inl : TrieM σ RLP) =
      place sha3 (nodeOf sha3 (.leaf p w)) p v := by
  have hk : keyOfNode (nodeOf sha3 (.leaf p w)) = p := keyOfNode_nodeOf sha3 rfl
  conv_lhs => unfold mergeAt
  rw [isEmpty_of_isStem sha3 rfl, if_neg (by decide), if_pos (itemCount_of_isStem sha3 rfl)]
  simp only [hk, isLeaf_leaf, and_self, if_true]

theorem mergeAt_ext (fuel : Nat) {p k : List Nibble} (hp : p <+: k) (t : NodeTree) (h : H256)
    (v : Bytes) (inl : Bool) :
    (mergeAt sha3 (fuel + 1) (nodeOf sha3 (.ext p t)) h k v inl : TrieM σ RLP) = (do
      killUnless inl (nodeOf sha3 (.ext p t)) h
      let c ← mergeAtAux sha3 (mergeAt sha3 fuel) (reference sha3 (nodeOf sha3 t))
        (k.drop p.length) v
      return list [data (hexPrefixEncode p false), c]) := by
  have hk : keyOfNode (nodeOf sha3 (.ext p t)) = p := keyOfNode_nodeOf sha3 rfl
  conv_lhs => unfold mergeAt
  rw [isEmpty_of_isStem sha3 rfl, if_neg (by decide), if_pos (itemCount_of_isStem sha3 rfl)]
  simp only [hk, isLeaf_ext, and_false, if_false, Bool.not_false, hp, and_self, if_true,
    Bool.false_eq_true]
  rfl

theorem mergeAt_parts (fuel : Nat) {t : NodeTree} {k : List Nibble} (hp : t.Parts k) (h : H256)
    (v : Bytes) (inl : Bool) :
    (mergeAt sha3 (fuel + 1) (nodeOf sha3 t) h k v inl : TrieM σ RLP) = (
      if shared k t.path ≠ 0 then do
        let cleved ← cleve sha3 (nodeOf sha3 t) (shared k t.path)
        mergeAt sha3 fuel cleved (sha3 cleved.encode) k v true
      else do
        let branched ← branch sha3 (nodeOf sha3 t)
        mergeAt sha3 fuel branched (sha3 branched.encode) k v true) := by
  have ht := isStem_of_parts hp
  have hk := keyOfNode_nodeOf sha3 ht
  conv_lhs => unfold mergeAt
  rw [isEmpty_of_isStem sha3 ht, if_neg (by decide), if_pos (itemCount_of_isStem sha3 ht)]
  cases t with
  | leaf p w =>
    have hne : ¬ p = k := fun e => hp e.symm
    simp only [hk, path, isLeaf_leaf, hne, false_and, if_false, Bool.not_true, and_false,
      Bool.false_eq_true]
    rfl
  | ext p t =>
    have hne : ¬ p <+: k := hp
    simp only [hk, path, isLeaf_ext, hne, false_and, if_false, and_false, Bool.false_eq_true]
    rfl
  | _ => exact hp.elim

theorem mergeAt_branch_nil (fuel : Nat) (c : Nibble → NodeTree) (w : Option Value) (h : H256)
    (v : Bytes) (inl : Bool) :
    (mergeAt sha3 (fuel + 1) (nodeOf sha3 (.branch c w)) h [] v inl : TrieM σ RLP) =
      place sha3 (nodeOf sha3 (.branch c w)) [] v := by
  conv_lhs => unfold mergeAt
  rw [isEmpty_branch, if_neg (by decide), itemCount_branch, if_neg (by decide)]
  rw [nodeOf_branch]
  simp only [branchItems_length, if_true]

theorem mergeAt_branch_cons (fuel : Nat) (c : Nibble → NodeTree) (w : Option Value) (h : H256)
    (n : Nibble) (k : List Nibble) (v : Bytes) (inl : Bool) :
    (mergeAt sha3 (fuel + 1) (nodeOf sha3 (.branch c w)) h (n :: k) v inl : TrieM σ RLP) = (do
      killUnless inl (nodeOf sha3 (.branch c w)) h
      let c' ← mergeAtAux sha3 (mergeAt sha3 fuel) (reference sha3 (nodeOf sha3 (c n))) k v
      return list ((branchItems sha3 c w).set n.val c')) := by
  conv_lhs => unfold mergeAt
  rw [isEmpty_branch, if_neg (by decide), itemCount_branch, if_neg (by decide)]
  rw [nodeOf_branch]
  simp only [branchItems_length, if_true, branchItems_child]

theorem run_cleve {t : NodeTree} (ht : t.isStem = true) (i : ℕ) (db : σ) :
    (cleve sha3 (nodeOf sha3 t) i).run db =
      (.ok (nodeOf sha3 (.ext (t.path.take i) (t.withPath (t.path.drop i)))),
        streamed sha3 (killed sha3 db (nodeOf sha3 t))
          (nodeOf sha3 (t.withPath (t.path.drop i)))) := by
  unfold cleve
  rw [run_bind_ok (run_killNode sha3 _ _), keyOfNode_nodeOf sha3 ht]
  dsimp only
  rw [nodeOf_withPath sha3 ht, run_bind_ok (run_streamNode sha3 _ _)]
  rfl

theorem run_branch_nil (v : Value) (db : σ) :
    (GenericTrieDB.branch sha3 (nodeOf sha3 (.leaf [] v))).run db =
      (.ok (nodeOf sha3 (.branch (fun _ => .empty) (some v))),
        killed sha3 db (nodeOf sha3 (.leaf [] v))) := by
  unfold GenericTrieDB.branch
  rw [run_bind_ok (run_killNode sha3 _ _), keyOfNode_nodeOf sha3 rfl, nodeOf_branch,
    branchItems_none]
  rfl

variable (sha3) in
/-- The rest of the path stays a node, except for an extension whose path is used up. -/
theorem run_branch_cons {t : NodeTree} (ht : t.isStem = true) {b : Nibble} {p : List Nibble}
    (hb : t.path = b :: p) (hp : isLeaf (nodeOf sha3 t) = true ∨ p ≠ []) (db : σ) :
    (GenericTrieDB.branch sha3 (nodeOf sha3 t)).run db =
      (.ok (nodeOf sha3 (.branch (only b (t.withPath p)) none)),
        streamed sha3 (killed sha3 db (nodeOf sha3 t)) (nodeOf sha3 (t.withPath p))) := by
  have hif : (isLeaf (nodeOf sha3 t) || decide (p ≠ [])) = true := by simpa using hp
  unfold GenericTrieDB.branch
  rw [run_bind_ok (run_killNode sha3 _ _), keyOfNode_nodeOf sha3 ht, hb]
  dsimp only
  rw [nodeOf_withPath sha3 ht, if_pos hif, run_bind_ok (run_streamNode sha3 _ _), run_pure,
    nodeOf_branch, Tree.only, ← branchItems_set, branchItems_none]
  rfl

variable (sha3) in
theorem run_branch_single (b : Nibble) (t : NodeTree) (db : σ) :
    (GenericTrieDB.branch sha3 (nodeOf sha3 (.ext [b] t))).run db =
      (.ok (nodeOf sha3 (.branch (only b t) none)),
        killed sha3 db (nodeOf sha3 (.ext [b] t))) := by
  unfold GenericTrieDB.branch
  rw [run_bind_ok (run_killNode sha3 _ _), keyOfNode_nodeOf sha3 rfl, nodeOf_branch, Tree.only,
    ← branchItems_set, branchItems_none]
  simp only [path, isLeaf_ext]
  rfl

/-! ### Runs -/

variable [LawfulNodeDB σ]

theorem NoCollision.of_bind {α β : Type} {x : TrieM σ α} {f : α → TrieM σ β} {db : σ}
    (hn : NoCollision sha3 ((x >>= f).run db).2) (hf : ∀ a, Grows (Extends sha3) (f a)) :
    NoCollision sha3 (x.run db).2 := by
  rw [run_bind] at hn
  cases hx : x.run db with
  | mk r db' =>
    rw [hx] at hn
    cases r with
    | ok a => exact hn.of_extends (hf a db')
    | error e => exact hn

/-- A stored node is fetched by its hash. -/
theorem run_nodeAt {db : σ} (hs : Sound sha3 db) (hn : NoCollision sha3 db) {r : RLP}
    (hr : NodeDB.lookup db (sha3 r.encode) = r.encode) :
    (nodeAt (sha3 r.encode)).run db = (.ok r, db) := by
  have hin : r.encode ∈ NodeDB.inserted db := by
    have := (hs.held (sha3 r.encode) (by rw [hr]; exact encode_ne_nil r)).1
    rwa [hr] at this
  have hnode : (node (sha3 r.encode) : TrieM σ Bytes).run db = (.ok r.encode, db) := by
    show (Except.ok (NodeDB.lookup db (sha3 r.encode)), db) = _
    rw [hr]
  unfold nodeAt
  rw [run_bind_ok hnode, run_bind_ok (by rw [run_lift, ofString_encode (hn.fits _ hin)])]
  rfl

/-- A child is looked up by its hash unless it is in line; the rest is the same. -/
theorem run_mergeAtAux {f : RLP → H256 → List Nibble → Bytes → Bool → TrieM σ RLP} {db : σ}
    (hs : Sound sha3 db) (hn : NoCollision sha3 db) {t : NodeTree} (hst : Stored sha3 db t)
    (k : List Nibble) (v : Bytes) :
    (mergeAtAux sha3 f (reference sha3 (nodeOf sha3 t)) k v).run db =
      (f (nodeOf sha3 t) (sha3 (nodeOf sha3 t).encode) k v
        (decide ((nodeOf sha3 t).encode.length < 32)) >>= streamNode sha3).run db := by
  unfold mergeAtAux
  by_cases hl : (nodeOf sha3 t).encode.length < 32
  · have hr : reference sha3 (nodeOf sha3 t) = nodeOf sha3 t := if_pos hl
    have hin : (!(nodeOf sha3 t).isList && !(nodeOf sha3 t).isEmpty) = false := by
      cases t <;> simp [nodeOf, RLP.isList, RLPNull, RLP.isEmpty]
    rw [hr, hin, if_neg (by decide), decide_eq_true hl]
  · have hr : reference sha3 (nodeOf sha3 t) = data (sha3 (nodeOf sha3 t).encode).bytes := if_neg hl
    have hout : (!(data (sha3 (nodeOf sha3 t).encode).bytes).isList &&
        !(data (sha3 (nodeOf sha3 t).encode).bytes).isEmpty) = true := by
      rw [isEmpty_bytes]
      rfl
    rw [hr, hout, if_pos rfl, run_bind_ok (by rw [run_lift, toHash_bytes]),
      run_bind_ok (run_nodeAt hs hn (hst.1 (by omega))), decide_eq_false hl]

/-- Down into a child: it is replaced and the new one stored for its parent. -/
theorem run_child {P : Prop} {f : RLP → H256 → List Nibble → Bytes → Bool → TrieM σ RLP}
    (hg : ∀ r h k v b, Grows (Extends sha3) (f r h k v b)) {db : σ} (hs : Sound sha3 db)
    {t s : NodeTree} (hst : Stored sha3 db t) {k : List Nibble} {v : Bytes}
    (hn : NoCollision sha3 ((mergeAtAux sha3 f (reference sha3 (nodeOf sha3 t)) k v).run db).2)
    (ih : ∀ inl, (inl = true → (nodeOf sha3 t).encode.length < 32) →
      NoCollision sha3 ((f (nodeOf sha3 t) (sha3 (nodeOf sha3 t).encode) k v inl).run db).2 →
      ∃ db', (f (nodeOf sha3 t) (sha3 (nodeOf sha3 t).encode) k v inl).run db =
          (.ok (nodeOf sha3 s), db') ∧ Replaced sha3 P db db' (refsAt sha3 t) s) :
    ∃ db', (mergeAtAux sha3 f (reference sha3 (nodeOf sha3 t)) k v).run db =
        (.ok (reference sha3 (nodeOf sha3 s)), streamed sha3 db' (nodeOf sha3 s)) ∧
      Replaced sha3 P db db' (refsAt sha3 t) s ∧
      NoCollision sha3 (streamed sha3 db' (nodeOf sha3 s)) := by
  have hn₀ := hn.of_extends (grows_mergeAtAux hg _ _ _ db)
  rw [run_mergeAtAux hs hn₀ hst] at hn ⊢
  obtain ⟨db', hrun, hrep⟩ := ih _ of_decide_eq_true (hn.of_bind grows_streamNode)
  rw [run_bind_ok hrun, run_streamNode] at hn ⊢
  exact ⟨db', rfl, hrep, hn⟩

/-! ### A key that leaves the path -/

/-- What `branch` makes of a leaf or an extension. -/
theorem run_branch {P : Prop} {db : σ} (hs : Sound sha3 db) {t : NodeTree} {k : List Nibble}
    (hp : t.Parts k) (hb : Below sha3 db t)
    (hn : NoCollision sha3 ((GenericTrieDB.branch sha3 (nodeOf sha3 t)).run db).2) :
    ∃ db', (GenericTrieDB.branch sha3 (nodeOf sha3 t)).run db =
        (.ok (nodeOf sha3 (.branch t.split.1 t.split.2)), db') ∧
      Replaced sha3 P db db' (refsAt sha3 t) (.branch t.split.1 t.split.2) := by
  have hk := (Extends.killed db (nodeOf sha3 t)).sound hs
  cases t with
  | leaf p w =>
    cases p with
    | nil =>
      refine ⟨_, run_branch_nil w db, Replaced.after_kill (t := .branch _ _) ?_⟩
      refine ⟨Extends.refl _, fun _ => stored_empty sha3 _, fun _ => ?_⟩
      exact (Exchanges.refl _ 0).congr rfl (by simp [splitLeaf, split, refsBelow_branch])
    | cons b p =>
      have hrun := run_branch_cons sha3 (t := .leaf (b :: p) w) rfl rfl
        (.inl (isLeaf_leaf sha3 _ _)) db
      rw [hrun] at hn
      have hbk : Below sha3 (killed sha3 db (nodeOf sha3 (.leaf (b :: p) w))) (.leaf p w) := trivial
      exact ⟨_, hrun, ((Replaced.self P hbk).only hk hn b none).after_kill⟩
  | ext p t =>
    cases p with
    | nil => exact (hp List.nil_prefix).elim
    | cons b p =>
      cases p with
      | nil =>
        have hrun := run_branch_single sha3 b t db
        rw [hrun] at hn
        refine ⟨_, hrun, Replaced.after_kill (t := .branch _ _) ?_⟩
        refine ⟨Extends.refl _, below_only sha3 none ?_, fun _ => ?_⟩
        · exact Stored.mono hb (Extends.killed _ _) hs hn
        · exact (Exchanges.refl _ _).congr rfl (refsBelow_only sha3 b none t)
      | cons b' p =>
        have hrun := run_branch_cons sha3 (t := .ext (b :: b' :: p) t) rfl rfl
          (.inr (by simp)) db
        rw [hrun] at hn
        have hbk : Below sha3 (killed sha3 db (nodeOf sha3 (.ext (b :: b' :: p) t)))
            (.ext (b' :: p) t) :=
          Below.mono (t := .ext _ t) hb (Extends.killed _ _) hs
            (hn.of_extends (Extends.streamed _ _))
        exact ⟨_, hrun, ((Replaced.self P hbk).only hk hn b none).after_kill⟩
  | _ => exact hp.elim

/-- The new key goes into a free slot of a branch that nobody has stored. -/
theorem run_mergeAt_fork {P : Prop} {db : σ} (hs : Sound sha3 db)
    {b : (Nibble → NodeTree) × Option Value} (hb : Below sha3 db (.branch b.1 b.2))
    {k : List Nibble} (hfree : ∀ a k', k = a :: k' → b.1 a = .empty) (heven : P → k ≠ [])
    (v : Value) (fuel : ℕ) (h : H256)
    (hn : NoCollision sha3
      ((mergeAt sha3 (fuel + 2) (nodeOf sha3 (.branch b.1 b.2)) h k v.1 true).run db).2) :
    ∃ db', (mergeAt sha3 (fuel + 2) (nodeOf sha3 (.branch b.1 b.2)) h k v.1 true).run db =
        (.ok (nodeOf sha3 (fork b k v)), db') ∧
      Replaced sha3 P db db' (refsBelow sha3 (.branch b.1 b.2)) (fork b k v) := by
  cases k with
  | nil =>
    rw [mergeAt_branch_nil, run_place_branch] at hn ⊢
    refine ⟨_, rfl, Extends.killed _ _, ?_, fun he => (heven he rfl).elim⟩
    exact Below.mono (t := .branch b.1 (some v)) hb (Extends.killed _ _) hs hn
  | cons a k =>
    have ha : b.1 a = .empty := hfree a k rfl
    rw [mergeAt_branch_cons, ha, run_bind_ok (show (killUnless true _ _).run db = (.ok (), db)
      from rfl)] at hn ⊢
    obtain ⟨db', hrun, hrep, hn'⟩ := run_child (P := P) (s := .leaf k v) (grows_mergeAt _) hs
      (stored_empty sha3 db) (hn.of_bind fun _ => grows_pure _) (by
        intro inl _ _
        refine ⟨db, run_place_empty k v db, ?_⟩
        exact ⟨Extends.refl _, trivial, fun _ => (Exchanges.refl _ 0).congr (by simp) rfl⟩)
    rw [run_bind_ok hrun, run_pure, branchItems_set]
    rw [← ha] at hrep
    exact ⟨_, rfl, hrep.branch hs hn' hb b.2 b.2⟩

/-- The key leaves the path at its first letter. -/
theorem run_mergeAt_split {P : Prop} {db : σ} (hs : Sound sha3 db) {t : NodeTree}
    (hb : Below sha3 db t) {k : List Nibble} (hp : t.Parts k) (h0 : shared k t.path = 0)
    (heven : P → k ≠ []) (v : Value) (fuel : ℕ) (h : H256) (inl : Bool)
    (hn : NoCollision sha3 ((mergeAt sha3 (fuel + 3) (nodeOf sha3 t) h k v.1 inl).run db).2) :
    ∃ db', (mergeAt sha3 (fuel + 3) (nodeOf sha3 t) h k v.1 inl).run db =
        (.ok (nodeOf sha3 (fork t.split k v)), db') ∧
      Replaced sha3 P db db' (refsAt sha3 t) (fork t.split k v) := by
  rw [mergeAt_parts _ hp, if_neg (by simp [h0])] at hn ⊢
  obtain ⟨db₁, hrun₁, hrep₁⟩ := run_branch (P := P) hs hp hb
    (hn.of_bind fun _ => grows_mergeAt _ _ _ _ _ _)
  rw [run_bind_ok hrun₁] at hn ⊢
  obtain ⟨db₂, hrun₂, hrep₂⟩ := run_mergeAt_fork (P := P) (hrep₁.grown.sound hs) hrep₁.below
    (fun a k' => split_free hp h0) heven v fuel _ hn
  exact ⟨db₂, hrun₂, hrep₂.after hrep₁.grown hrep₁.counts⟩

theorem refsBelow_withPath (t : NodeTree) (q : List Nibble) :
    refsBelow sha3 (t.withPath q) = refsBelow sha3 t := by
  cases t <;> rfl

omit [LawfulNodeDB σ] in
theorem below_withPath {db : σ} {t : NodeTree} (h : Below sha3 db t) (q : List Nibble) :
    Below sha3 db (t.withPath q) := by
  cases t <;> exact h

/-- The key leaves the path: `[K1 & K2, V]` is made `[K1, [K2, V]]` if there is a `K1`. -/
theorem run_mergeAt_parts {P : Prop} {db : σ} (hs : Sound sha3 db) {t : NodeTree}
    (hb : Below sha3 db t) {k : List Nibble} (hp : t.Parts k)
    (heven : P → k.drop (shared k t.path) ≠ []) (v : Value) (fuel : ℕ) (h : H256) (inl : Bool)
    (hn : NoCollision sha3 ((mergeAt sha3 (fuel + 5) (nodeOf sha3 t) h k v.1 inl).run db).2) :
    ∃ db', (mergeAt sha3 (fuel + 5) (nodeOf sha3 t) h k v.1 inl).run db =
        (.ok (nodeOf sha3 (t.insert k v)), db') ∧
      Replaced sha3 P db db' (refsAt sha3 t) (t.insert k v) := by
  rw [insert_of_parts hp]
  have hst := isStem_of_parts hp
  by_cases h0 : shared k t.path = 0
  · have hself : t.withPath t.path = t := by cases t <;> rfl
    rw [h0, List.take_zero, List.drop_zero, List.drop_zero, hself, prepend, if_pos rfl]
    exact run_mergeAt_split hs hb hp h0 (by rwa [h0] at heven) v _ h inl hn
  · have hne : t.path.take (shared k t.path) ≠ [] := by
      intro e
      have := congrArg List.length e
      rw [List.length_take, Nat.min_eq_left (shared_le_right k t.path)] at this
      exact h0 this
    rw [prepend, if_neg hne]
    have hpre : t.path.take (shared k t.path) <+: k := ⟨_, (eq_shared_append k t.path).symm⟩
    have hdrop : k.drop (t.path.take (shared k t.path)).length = k.drop (shared k t.path) := by
      rw [List.length_take, Nat.min_eq_left (shared_le_right k t.path)]
    have hp' := parts_withPath hp
    have h0' : shared (k.drop (shared k t.path)) (t.withPath (t.path.drop (shared k t.path))).path
        = 0 := by
      rw [path_withPath hst]
      exact shared_drop_shared k t.path
    rw [mergeAt_parts _ hp, if_pos h0, run_bind_ok (run_cleve hst _ _), mergeAt_ext _ hpre, hdrop,
      run_bind_ok (show (killUnless true _ _).run _ = (.ok (), _) from rfl)] at hn ⊢
    -- the lower half of the node is stored before it is split
    have hn₁ := (hn.of_bind fun _ => grows_pure _).of_extends (grows_mergeAtAux (grows_mergeAt _) _ _ _ _)
    have hrep₁ : Replaced sha3 P (killed sha3 db (nodeOf sha3 t)) (killed sha3 db (nodeOf sha3 t))
        (refsBelow sha3 t) (t.withPath (t.path.drop (shared k t.path))) := by
      rw [← refsBelow_withPath t (t.path.drop (shared k t.path))]
      exact Replaced.self P (below_withPath (hb.mono (Extends.killed _ _) hs
        (hn₁.of_extends (Extends.streamed _ _))) _)
    have hs₁ := (Extends.killed db (nodeOf sha3 t)).sound hs
    have hs₂ := (Extends.streamed _ (nodeOf sha3 (t.withPath (t.path.drop (shared k t.path))))).sound hs₁
    obtain ⟨db₂, hrun₂, hrep₂, hn₂⟩ := run_child (P := P) (grows_mergeAt _) hs₂
      (hrep₁.stored hs₁ hn₁) (hn.of_bind fun _ => grows_pure _)
      fun inl _ hn => run_mergeAt_split hs₂ (hrep₁.stored hs₁ hn₁).2 hp' h0' heven v fuel _ inl hn
    rw [run_bind_ok hrun₂]
    refine ⟨_, rfl, ?_⟩
    have hfin := hrep₂.ext hs₂ hn₂ (t.path.take (shared k t.path))
    exact (hfin.after (Extends.streamed _ _) hrep₁.exchanges).after_kill

/-! ### Insertion -/

/-- The keys of the tree are as long as `k`. -/
def Even (t : NodeTree) (k : List Nibble) : Prop :=
  ∀ k', (t.lookup k').isSome = true → k'.length = k.length

theorem Even.drop_ne_nil {t : NodeTree} {k : List Nibble} (he : Even t k) (ht : t.Canonical)
    (hp : t.Parts k) : k.drop (shared k t.path) ≠ [] := by
  intro hd
  have hle := List.drop_eq_nil_iff.mp hd
  have hpath : t.path.length ≤ k.length := by
    obtain ⟨k', v, hk⟩ := exists_lookup ht (by cases t <;> first | rfl | exact hp.elim)
    rw [← he k' (by rw [hk]; rfl)]
    cases t with
    | leaf p w =>
      have : k' = p := by by_contra hne; simp [hne] at hk
      rw [this]
      exact le_refl _
    | ext p t =>
      obtain ⟨r, rfl, _⟩ := prefix_of_lookup_ext hk
      simp [path]
    | _ => exact hp.elim
  -- the whole path is shared, so the key does not leave it
  have hlen : shared k t.path = t.path.length := by
    have := shared_le_right k t.path
    omega
  have hpre := shared_eq_length_iff.mp hlen
  cases t with
  | leaf p w => exact hp (hpre.eq_of_length (by simp only [path] at *; omega)).symm
  | ext p t => exact hp hpre
  | _ => exact hp.elim

theorem Even.ext {p : List Nibble} {t : NodeTree} {k : List Nibble} (he : Even (.ext p t) k)
    (hp : p <+: k) : Even t (k.drop p.length) := by
  obtain ⟨r, rfl⟩ := hp
  intro k' hk'
  have := he (p ++ k') (by rwa [lookup_ext_append])
  rw [List.drop_left]
  simpa using this

theorem Even.branch {c : Nibble → NodeTree} {w : Option Value} {a : Nibble} {k : List Nibble}
    (he : Even (.branch c w) (a :: k)) : Even (c a) k := by
  intro k' hk'
  have := he (a :: k') hk'
  simpa using this

/-- `mergeAt` inserts. The counts are right for keys of one length. -/
theorem run_mergeAt {t : NodeTree} (ht : t.Canonical) {db : σ} (hs : Sound sha3 db)
    (hb : Below sha3 db t) {k : List Nibble} (v : Value) {fuel : ℕ} (hf : k.length + 5 ≤ fuel)
    {inl : Bool} (hi : inl = true → (nodeOf sha3 t).encode.length < 32)
    (hn : NoCollision sha3
      ((mergeAt sha3 fuel (nodeOf sha3 t) (sha3 (nodeOf sha3 t).encode) k v.1 inl).run db).2) :
    ∃ db', (mergeAt sha3 fuel (nodeOf sha3 t) (sha3 (nodeOf sha3 t).encode) k v.1 inl).run db =
        (.ok (nodeOf sha3 (t.insert k v)), db') ∧
      Replaced sha3 (Even t k) db db' (refsAt sha3 t) (t.insert k v) := by
  induction t generalizing db k fuel inl with
  | empty =>
    obtain ⟨fuel, rfl⟩ : ∃ f, fuel = f + 1 := ⟨fuel - 1, by omega⟩
    refine ⟨db, run_place_empty k v db, ?_⟩
    exact ⟨Extends.refl _, trivial, fun _ => (Exchanges.refl _ 0).congr (by simp) rfl⟩
  | leaf p w =>
    by_cases hk : k = p
    · subst hk
      obtain ⟨fuel, rfl⟩ : ∃ f, fuel = f + 1 := ⟨fuel - 1, by omega⟩
      rw [mergeAt_leaf, run_place_leaf, Tree.insert, if_pos rfl]
      exact ⟨_, rfl, (Replaced.self (t := .leaf k v) _ trivial).after_kill⟩
    · obtain ⟨fuel, rfl⟩ : ∃ f, fuel = f + 5 := ⟨fuel - 5, by omega⟩
      exact run_mergeAt_parts hs hb hk (fun he => he.drop_ne_nil ht hk) v fuel _ inl hn
  | ext p t ih =>
    by_cases hk : p <+: k
    · obtain ⟨fuel, rfl⟩ : ∃ f, fuel = f + 1 := ⟨fuel - 1, by omega⟩
      -- the path is not empty, so what is left of the key is shorter
      have hlen : (k.drop p.length).length + 5 ≤ fuel := by
        have := hk.length_le
        have := List.length_pos_of_ne_nil ht.1
        rw [List.length_drop]
        omega
      rw [mergeAt_ext _ hk, run_bind_ok (run_killUnless hi db)] at hn ⊢
      have hn₁ := (hn.of_bind fun _ => grows_pure _).of_extends
        (grows_mergeAtAux (grows_mergeAt _) _ _ _ _)
      have hs₁ := (Extends.killed db (nodeOf sha3 (.ext p t))).sound hs
      have hst : Stored sha3 _ t := Stored.mono hb (Extends.killed _ _) hs hn₁
      obtain ⟨db', hrun, hrep, hn'⟩ := run_child (P := Even t (k.drop p.length))
        (grows_mergeAt _) hs₁ hst (hn.of_bind fun _ => grows_pure _)
        fun inl hi hn => ih ht.2.2 hs₁ hst.2 hlen hi hn
      rw [run_bind_ok hrun, Tree.insert, if_pos hk]
      exact ⟨_, rfl, ((hrep.ext hs₁ hn' p).imp fun he => he.ext hk).after_kill⟩
    · obtain ⟨fuel, rfl⟩ : ∃ f, fuel = f + 5 := ⟨fuel - 5, by omega⟩
      exact run_mergeAt_parts hs hb hk (fun he => he.drop_ne_nil ht hk) v fuel _ inl hn
  | branch c w ih =>
    obtain ⟨fuel, rfl⟩ : ∃ f, fuel = f + 1 := ⟨fuel - 1, by omega⟩
    cases k with
    | nil =>
      rw [mergeAt_branch_nil, run_place_branch] at hn ⊢
      have hbk : Below sha3 _ (.branch c (some v)) :=
        Below.mono (t := .branch c (some v)) hb (Extends.killed _ _) hs hn
      exact ⟨_, rfl, (Replaced.self _ hbk).after_kill⟩
    | cons a k =>
      rw [mergeAt_branch_cons, run_bind_ok (run_killUnless hi db)] at hn ⊢
      have hn₁ := (hn.of_bind fun _ => grows_pure _).of_extends
        (grows_mergeAtAux (grows_mergeAt _) _ _ _ _)
      have hs₁ := (Extends.killed db (nodeOf sha3 (.branch c w))).sound hs
      have hst : ∀ b, Stored sha3 _ (c b) := fun b => Stored.mono (hb b) (Extends.killed _ _) hs hn₁
      obtain ⟨db', hrun, hrep, hn'⟩ := run_child (P := Even (c a) k)
        (grows_mergeAt _) hs₁ (hst a) (hn.of_bind fun _ => grows_pure _)
        fun inl hi hn => ih a (ht.1 a) hs₁ (hst a).2 (by simp at hf; omega) hi hn
      rw [run_bind_ok hrun, run_pure, branchItems_set]
      exact ⟨_, rfl, ((hrep.branch hs₁ hn' hst w w).imp fun he => he.branch).after_kill⟩

end Insert
end Aleth.Devcore
