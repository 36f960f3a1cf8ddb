import Aleth.Devcore.TrieScan

/-! What a root reaches in a store, and what it needs of it.

`Reachable` follows the references of the nodes as they lie in a store, through
the nodes that stand in line in their parents. `Tracks` says that a root is the
root of a tree whose nodes are in the store, except that the node of the empty
tree may be missing: `setRoot` makes it again. What such a root reaches are
nodes it refers to (`Tracks.of_reachable`), and it keeps track of its tree in
every store that answers the same for these (`Tracks.congr`). -/
namespace Aleth.Devcore
open Patricia Patricia.Tree Throwing GenericTrieDB Counting
open RLP (data list)

/-- What stands in a child slot of a node: in the second item of an extension, or in one of the
first sixteen of a branch. -/
def HasChild (n m : RLP) : Prop :=
  (n.isList = true ∧ n.itemCount = 2 ∧ isLeaf n = false ∧ m = n.item 1) ∨
    (n.isList = true ∧ n.itemCount = 17 ∧ ∃ i : Nibble, m = n.item i.val)

/-- The node has a hash for a child, or a node in line that refers to it. -/
inductive Refers : RLP → H256 → Prop where
  | hash {n : RLP} {h : H256} (hc : HasChild n (data h.bytes)) : Refers n h
  | inLine {n m : RLP} {h : H256} (hc : HasChild n m) (hm : m.isList = true) (hr : Refers m h) :
      Refers n h

inductive Reachable (look : H256 → Bytes) (root : H256) : H256 → Prop where
  | root : Reachable look root root
  | child {h h' : H256} {n : RLP} (hh : Reachable look root h)
      (hn : RLP.ofString (look h) = .ok (some n)) (hr : Refers n h') : Reachable look root h'

section Reach
variable {sha3 : Bytes → H256} {σ : Type} [NodeDB σ] [LawfulNodeDB σ]

/-! ### Children of the nodes of a tree -/

theorem refsAt_le_refsBelow (c : Nibble → NodeTree) (v : Option Value) (a : Nibble) :
    refsAt sha3 (c a) ≤ refsBelow sha3 (.branch c v) := by
  rw [refsBelow_branch]
  exact Finset.single_le_sum (f := fun a => refsAt sha3 (c a)) (fun b _ h => Nat.zero_le _)
    (Finset.mem_univ a)

omit [LawfulNodeDB σ] in
theorem HasChild.tree {db : σ} {t : NodeTree} (hb : Below sha3 db t) {m : RLP}
    (h : HasChild (nodeOf sha3 t) m) : ∃ s : NodeTree, m = reference sha3 (nodeOf sha3 s) ∧
      Stored sha3 db s ∧ refsAt sha3 s ≤ refsBelow sha3 t := by
  cases t with
  | empty =>
    rcases h with ⟨hl, _⟩ | ⟨hl, _⟩
    · cases hl
    · cases hl
  | leaf p v =>
    rcases h with ⟨_, _, hleaf, _⟩ | ⟨_, hcount, _⟩
    · rw [isLeaf_leaf] at hleaf
      cases hleaf
    · cases hcount
  | ext p t =>
    rcases h with ⟨_, _, _, hm⟩ | ⟨_, hcount, _⟩
    · exact ⟨t, hm, hb, le_rfl⟩
    · cases hcount
  | branch c v =>
    rcases h with ⟨_, hcount, _⟩ | ⟨_, _, a, hm⟩
    · rw [itemCount_branch] at hcount
      cases hcount
    · refine ⟨c a, ?_, hb a, refsAt_le_refsBelow c v a⟩
      rw [hm]
      exact branchItems_child sha3 c v a

omit [LawfulNodeDB σ] in
/-- A node refers to hashes of nodes of its tree. -/
theorem Refers.tree {db : σ} {t : NodeTree} (hb : Below sha3 db t) {h : H256}
    (hr : Refers (nodeOf sha3 t) h) : ∃ s : NodeTree, 32 ≤ (nodeOf sha3 s).encode.length ∧
      h = sha3 (nodeOf sha3 s).encode ∧ Stored sha3 db s ∧ refsAt sha3 s ≤ refsBelow sha3 t := by
  obtain ⟨n, hn⟩ : ∃ n, n = nodeOf sha3 t := ⟨_, rfl⟩
  rw [← hn] at hr
  induction hr generalizing t with
  | @hash n h hc =>
    subst hn
    obtain ⟨s, hm, hst, hle⟩ := hc.tree hb
    by_cases hl : (nodeOf sha3 s).encode.length < 32
    · rw [reference, if_pos hl] at hm
      cases he : s.isEmpty with
      | true =>
        rw [eq_empty_of_isEmpty he] at hm
        have hsize := h.size
        rw [RLP.data.inj hm] at hsize
        cases hsize
      | false =>
        have hlist := isList_nodeOf sha3 he
        rw [← hm] at hlist
        cases hlist
    · rw [reference, if_neg hl] at hm
      exact ⟨s, by omega, H256.ext (RLP.data.inj hm), hst, hle⟩
  | inLine hc hm _ ih =>
    subst hn
    obtain ⟨s, hms, hst, hle⟩ := hc.tree hb
    have hl : (nodeOf sha3 s).encode.length < 32 := by
      by_contra hl
      rw [reference, if_neg hl] at hms
      rw [hms] at hm
      cases hm
    rw [reference, if_pos hl] at hms
    obtain ⟨u, hu, hhu, hstu, hleu⟩ := ih hst.2 hms
    refine ⟨u, hu, hhu, hstu, hleu.trans (le_trans (le_add_of_nonneg_left ?_) hle)⟩
    exact fun _ => Nat.zero_le _

theorem hit_self {r : RLP} (h : 32 ≤ r.encode.length) : hit sha3 r (sha3 r.encode) = 1 := by
  rw [hit, if_pos ⟨h, rfl⟩]

omit [LawfulNodeDB σ] in
/-- What is below stays so where the store answers the same for it. -/
theorem Below.congr {τ : Type} [NodeDB τ] {db : σ} {db' : τ} {t : NodeTree}
    (hb : Below sha3 db t)
    (hk : ∀ h, 0 < refsBelow sha3 t h → NodeDB.lookup db' h = NodeDB.lookup db h) :
    Below sha3 db' t := by
  have hat : ∀ s : NodeTree, Stored sha3 db s →
      (∀ h, 0 < refsAt sha3 s h → NodeDB.lookup db' h = NodeDB.lookup db h) →
      Held sha3 db' (nodeOf sha3 s) := by
    intro s hst hs hl
    have hpos : 0 < refsAt sha3 s (sha3 (nodeOf sha3 s).encode) := by
      rw [refsAt, Pi.add_apply, hit_self hl]
      omega
    rw [hs _ hpos, hst.1 hl]
  have hbelow : ∀ (s : NodeTree) h, 0 < refsBelow sha3 s h → 0 < refsAt sha3 s h := by
    intro s h hs
    rw [refsAt, Pi.add_apply]
    omega
  induction t with
  | empty => trivial
  | leaf _ _ => trivial
  | ext p t ih => exact ⟨hat t hb hk, ih hb.2 fun h hh => hk h (hbelow t h hh)⟩
  | branch c v ih =>
    intro a
    have hc : ∀ h, 0 < refsAt sha3 (c a) h → NodeDB.lookup db' h = NodeDB.lookup db h :=
      fun h hh => hk h (lt_of_lt_of_le hh (refsAt_le_refsBelow c v a h))
    exact ⟨hat (c a) (hb a) hc, ih a (hb a).2 fun h hh => hc h (hbelow (c a) h hh)⟩

/-! ### Tries in use -/

variable (sha3) in
/-- A store whose strings are those inserted, without collisions, the empty trie's among them. -/
structure Reliable (db : σ) : Prop where
  sound : Sound sha3 db
  noCollision : NoCollision sha3 db
  null : RLPNull.encode ∈ NodeDB.inserted db

/-- Only one string has a hash. -/
theorem Reliable.lookup_eq {db : σ} (hr : Reliable sha3 db) {b : Bytes}
    (hb : b ∈ NodeDB.inserted db) {h : H256} (hh : h = sha3 b) (hne : NodeDB.lookup db h ≠ []) :
    NodeDB.lookup db h = b := by
  obtain ⟨hin, heq⟩ := hr.sound.held h hne
  exact hr.noCollision.injOn _ hin b hb (heq.trans hh)

theorem Reliable.ne_emptyTrie {db : σ} (hr : Reliable sha3 db) {t : NodeTree}
    (hb : Below sha3 db t) {h : H256} (hpos : 0 < refsBelow sha3 t h) : h ≠ EmptyTrie sha3 := by
  intro he
  obtain ⟨r, hl, _, hlookup⟩ := exists_of_refsBelow hb hpos
  have hnull := hr.lookup_eq hr.null he (lookup_of_refsBelow hb hpos)
  rw [← hlookup, hnull, RLPNull_encode_length] at hl
  omega

variable (sha3) in
/-- The root of a tree with keys of `len` nibbles, all of whose nodes are in the store but
perhaps that of the empty tree. -/
structure Tracks (len : ℕ) (db : σ) (root : H256) (t : NodeTree) : Prop where
  uniform : Uniform len t
  canonical : t.Canonical
  hash : root = sha3 (nodeOf sha3 t).encode
  held : t.isEmpty = false → NodeDB.lookup db root = (nodeOf sha3 t).encode
  below : Below sha3 db t

variable {len : ℕ} {db : σ} {root : H256} {t : NodeTree}

omit [LawfulNodeDB σ] in
theorem tracks_empty (len : ℕ) (db : σ) : Tracks sha3 len db (EmptyTrie sha3) .empty where
  uniform k hk := by simp at hk
  canonical := trivial
  hash := rfl
  held h := by cases h
  below := trivial

theorem Tracks.of_holds (h : Holds sha3 db root t) (hu : Uniform len t) :
    Tracks sha3 len db root t where
  uniform := hu
  canonical := h.canonical
  hash := h.hash
  held _ := by rw [h.hash, h.held]
  below := h.below

/-- What is in the store under the root is the root node. -/
theorem Tracks.lookup_root (h : Tracks sha3 len db root t) (hr : Reliable sha3 db)
    (hne : NodeDB.lookup db root ≠ []) : NodeDB.lookup db root = (nodeOf sha3 t).encode := by
  cases he : t.isEmpty with
  | false => exact h.held he
  | true =>
    have ht := eq_empty_of_isEmpty he
    subst ht
    exact hr.lookup_eq hr.null h.hash hne

theorem Tracks.holds (h : Tracks sha3 len db root t) (hr : Reliable sha3 db)
    (hne : NodeDB.lookup db root ≠ []) : Holds sha3 db root t where
  sound := hr.sound
  canonical := h.canonical
  hash := h.hash
  held := by rw [← h.hash, h.lookup_root hr hne]
  below := h.below

theorem Tracks.root_ne (h : Tracks sha3 len db root t) (hr : Reliable sha3 db)
    (he : t.isEmpty = false) : root ≠ EmptyTrie sha3 := by
  have hheld := h.held he
  rw [h.hash] at hheld ⊢
  exact Devcore.ne_emptyTrie hr.sound hr.noCollision hr.null hheld he

omit [LawfulNodeDB σ] in
/-- A reference of the trie is to a string in the store, the empty trie's root apart. -/
theorem Tracks.lookup (h : Tracks sha3 len db root t) {x : H256} (hx : x ≠ EmptyTrie sha3)
    (hpos : 0 < refsFrom sha3 root t x) : NodeDB.lookup db x ≠ [] := by
  rw [refsFrom] at hpos
  split at hpos
  case isTrue hroot =>
    cases he : t.isEmpty with
    | true =>
      rw [eq_empty_of_isEmpty he] at h
      exact (hx (hroot.trans h.hash)).elim
    | false =>
      rw [hroot, h.held he]
      exact encode_ne_nil _
  case isFalse => exact lookup_of_refsBelow h.below (by omega)

/-- Only the answers to its own references matter to a trie. -/
theorem Tracks.congr {τ : Type} [NodeDB τ] {db' : τ} (h : Tracks sha3 len db root t)
    (hr : Reliable sha3 db) (hk : ∀ x, x ≠ EmptyTrie sha3 → 0 < refsFrom sha3 root t x →
      NodeDB.lookup db' x = NodeDB.lookup db x) : Tracks sha3 len db' root t where
  uniform := h.uniform
  canonical := h.canonical
  hash := h.hash
  held he := by
    rw [hk root (h.root_ne hr he) (by rw [refsFrom, if_pos rfl]; omega), h.held he]
  below := h.below.congr fun x hx =>
    hk x (hr.ne_emptyTrie h.below hx) (by rw [refsFrom]; omega)

theorem Tracks.of_reachable (h : Tracks sha3 len db root t) (hr : Reliable sha3 db) {x : H256}
    (hx : Reachable (NodeDB.lookup db) root x) : 0 < refsFrom sha3 root t x := by
  -- what is reached is the root of a subtree, whose references are the trie's
  have hsub : 0 < refsFrom sha3 root t x ∧ ∃ s : NodeTree, Below sha3 db s ∧
      x = sha3 (nodeOf sha3 s).encode ∧ refsBelow sha3 s ≤ refsBelow sha3 t ∧
      (NodeDB.lookup db x ≠ [] → NodeDB.lookup db x = (nodeOf sha3 s).encode) := by
    induction hx with
    | root =>
      refine ⟨?_, t, h.below, h.hash, le_rfl, h.lookup_root hr⟩
      rw [refsFrom, if_pos rfl]
      omega
    | @child x y n _ hn hrefers ih =>
      obtain ⟨_, s, hb, hxs, hle, hlookup⟩ := ih
      have hne : NodeDB.lookup db x ≠ [] := by
        intro hnil
        rw [hnil] at hn
        cases hn
      have hheld := hlookup hne
      rw [hxs] at hheld hn
      rw [run_node_stored hr.sound hr.noCollision hheld] at hn
      cases hn
      obtain ⟨u, hu, hyu, hst, hleu⟩ := hrefers.tree hb
      have hone : 1 ≤ refsAt sha3 u y := by
        rw [refsAt, Pi.add_apply, hyu, hit_self hu]
        omega
      refine ⟨?_, u, hst.2, hyu, fun z => ?_, fun _ => by rw [hyu, hst.1 hu]⟩
      · have : refsAt sha3 u y ≤ refsBelow sha3 t y := (hleu.trans hle) y
        rw [refsFrom]
        omega
      · have hz : refsAt sha3 u z ≤ refsBelow sha3 t z := (hleu.trans hle) z
        rw [refsAt, Pi.add_apply] at hz
        show refsBelow sha3 u z ≤ refsBelow sha3 t z
        omega
  exact hsub.1

end Reach
end Aleth.Devcore
