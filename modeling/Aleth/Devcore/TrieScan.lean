import Aleth.Devcore.TrieRuns
import Mathlib.Algebra.BigOperators.Pi

/-! The scan of the whole trie (`leftOvers`, `check`) and the reference counts.

The scan takes every node that the root reaches off the list of the stored
ones. Where the counts are exact nothing is left over, and every node that is
reached is found also when references are enforced (`run_refs`). -/
namespace Aleth.Devcore
open Patricia Patricia.Tree Throwing GenericTrieDB Counting
open RLP (data list)

section Scan
variable {sha3 : Bytes → H256} {σ : Type} [NodeDB σ] [LawfulNodeDB σ]

/-- The scan leaves the hashes of `mask` that are not counted in `refs`. -/
def Leaves (mask : List H256) (refs : H256 → ℕ) (r : Except TrieError (List H256)) : Prop :=
  ∃ mask', r = .ok mask' ∧ ∀ h, h ∈ mask' ↔ h ∈ mask ∧ refs h = 0

theorem RLP.encode_injective_of_fits {r s : RLP} (hr : RLP.Fits r.encode)
    (h : r.encode = s.encode) : r = s := by
  have hd := RLP.decode_encode r hr
  rw [h, RLP.decode_encode s (h ▸ hr)] at hd
  exact (Option.some.inj hd).symm

/-- A node in the store other than the empty root does not have the empty root's hash. -/
theorem ne_emptyTrie {db : σ} (hs : Sound sha3 db) (hn : NoCollision sha3 db)
    (hnull : RLPNull.encode ∈ NodeDB.inserted db) {t : NodeTree}
    (hl : NodeDB.lookup db (sha3 (nodeOf sha3 t).encode) = (nodeOf sha3 t).encode)
    (ht : t.isEmpty = false) : sha3 (nodeOf sha3 t).encode ≠ EmptyTrie sha3 := by
  intro he
  have hin := (hs.held _ (by rw [hl]; exact encode_ne_nil _)).1
  rw [hl] at hin
  have henc := hn.injOn _ hin _ hnull he
  have hnode := RLP.encode_injective_of_fits (hn.fits _ hin) henc
  have hemp := isEmpty_nodeOf sha3 t
  rw [hnode, ht] at hemp
  cases hemp

theorem leaves_descendKey {db : σ} {r : H256} (hs : Sound sha3 db) (hn : NoCollision sha3 db)
    {t : NodeTree} (hl : NodeDB.lookup db (sha3 (nodeOf sha3 t).encode) = (nodeOf sha3 t).encode)
    (hne : sha3 (nodeOf sha3 t).encode ≠ EmptyTrie sha3) {fuel : ℕ} {wasExt : Bool}
    (hlist : ∀ mask, Leaves mask (refsBelow sha3 t)
      (descendList sha3 db r fuel (nodeOf sha3 t) mask wasExt)) (mask : List H256) :
    Leaves mask (fun h => (if h = sha3 (nodeOf sha3 t).encode then 1 else 0) + refsBelow sha3 t h)
      (descendKey sha3 db r (fuel + 1) (sha3 (nodeOf sha3 t).encode) mask wasExt) := by
  rw [descendKey, if_neg fun hc => hne hc.2, run_node_stored hs hn hl]
  obtain ⟨mask', hrun, hmem⟩ := hlist (mask.filter (· ≠ sha3 (nodeOf sha3 t).encode))
  refine ⟨mask', hrun, fun h => ?_⟩
  rw [hmem, List.mem_filter]
  by_cases hh : h = sha3 (nodeOf sha3 t).encode
  · simp [hh]
  · simp [hh]

theorem leaves_descendEntry {db : σ} {r : H256} (hs : Sound sha3 db)
    (hn : NoCollision sha3 db) (hnull : RLPNull.encode ∈ NodeDB.inserted db) {t : NodeTree}
    (hst : Stored sha3 db t) (ht : t.isEmpty = false) {fuel : ℕ} {wasExt : Bool}
    (hlist : ∀ fuel', fuel ≤ fuel' → ∀ mask, Leaves mask (refsBelow sha3 t)
      (descendList sha3 db r fuel' (nodeOf sha3 t) mask wasExt)) (mask : List H256) :
    Leaves mask (refsAt sha3 t)
      (descendEntry sha3 db r (fuel + 2) (reference sha3 (nodeOf sha3 t)) mask wasExt) := by
  by_cases hl : (nodeOf sha3 t).encode.length < 32
  · have hr : reference sha3 (nodeOf sha3 t) = nodeOf sha3 t := if_pos hl
    have hentry : descendEntry sha3 db r (fuel + 2) (nodeOf sha3 t) mask wasExt =
        descendList sha3 db r (fuel + 1) (nodeOf sha3 t) mask wasExt := by
      have hlist := isList_nodeOf sha3 ht
      cases hnode : nodeOf sha3 t with
      | data b => rw [hnode] at hlist; cases hlist
      | list l => rw [descendEntry]
    rw [hr, hentry, refsAt, hit_of_short sha3 hl, zero_add]
    exact hlist (fuel + 1) (by omega) mask
  · have hr : reference sha3 (nodeOf sha3 t) = data (sha3 (nodeOf sha3 t).encode).bytes := if_neg hl
    have hheld := hst.1 (by omega)
    have hrefs : refsAt sha3 t =
        fun h => (if h = sha3 (nodeOf sha3 t).encode then 1 else 0) + refsBelow sha3 t h := by
      funext h
      have : 32 ≤ (nodeOf sha3 t).encode.length := by omega
      simp [refsAt, hit, this]
    rw [hr, descendEntry, hrefs, if_pos (sha3 (nodeOf sha3 t).encode).size, toHash_bytes]
    exact leaves_descendKey hs hn hheld (ne_emptyTrie hs hn hnull hheld ht) (hlist fuel le_rfl) mask

/-- The loop over the children of a branch. -/
theorem leaves_foldl {f : List H256 → Nibble → Except TrieError (List H256)}
    {refs : Nibble → H256 → ℕ} {is : List Nibble}
    (hf : ∀ i ∈ is, ∀ mask, Leaves mask (refs i) (f mask i)) (mask : List H256) :
    ∃ mask', is.foldlM f mask = .ok mask' ∧ ∀ h, h ∈ mask' ↔ h ∈ mask ∧ ∀ i ∈ is, refs i h = 0 := by
  induction is generalizing mask with
  | nil => exact ⟨mask, rfl, fun h => by simp⟩
  | cons i is ih =>
    obtain ⟨mask₁, hrun₁, hmem₁⟩ := hf i List.mem_cons_self mask
    obtain ⟨mask', hrun, hmem⟩ := ih (fun j hj => hf j (List.mem_cons_of_mem _ hj)) mask₁
    refine ⟨mask', ?_, fun h => ?_⟩
    · rw [List.foldlM_cons, hrun₁]
      exact hrun
    · rw [hmem, hmem₁, List.forall_mem_cons, and_assoc]

/-- The scan of a stored tree, whose keys have at most `len` nibbles. -/
theorem leaves_descendList {db : σ} {r : H256} (hs : Sound sha3 db) (hn : NoCollision sha3 db)
    (hnull : RLPNull.encode ∈ NodeDB.inserted db) {t : NodeTree} (ht : t.Canonical)
    (hb : Below sha3 db t) (hne : t.isEmpty = false) {len : ℕ}
    (hlen : ∀ k, (t.lookup k).isSome = true → k.length ≤ len) {fuel : ℕ} (hf : 3 * len + 1 ≤ fuel)
    {wasExt : Bool} (hext : wasExt = true → t.isStem = false) (mask : List H256) :
    Leaves mask (refsBelow sha3 t)
      (descendList sha3 db r fuel (nodeOf sha3 t) mask wasExt) := by
  induction t generalizing len fuel wasExt mask with
  | empty => cases hne
  | leaf p v =>
    obtain ⟨fuel, rfl⟩ : ∃ f, fuel = f + 1 := ⟨fuel - 1, by omega⟩
    have hw : wasExt = false := by
      cases wasExt with
      | false => rfl
      | true => cases hext rfl
    subst hw
    rw [descendList, if_pos ⟨rfl, itemCount_of_isStem sha3 rfl, rfl⟩, if_pos (isLeaf_leaf sha3 p v)]
    exact ⟨mask, rfl, fun h => by simp [refsBelow]⟩
  | ext p t ih =>
    obtain ⟨fuel, rfl⟩ : ∃ f, fuel = f + 1 := ⟨fuel - 1, by omega⟩
    have hw : wasExt = false := by
      cases wasExt with
      | false => rfl
      | true => cases hext rfl
    subst hw
    obtain ⟨hp, hbr, hct⟩ := ht
    have hpos := List.length_pos_of_ne_nil hp
    have hlen' : ∀ k, (t.lookup k).isSome = true → k.length ≤ len - p.length := fun k hk => by
      have := hlen (p ++ k) (by rwa [lookup_ext_append])
      rw [List.length_append] at this
      omega
    have hle : p.length ≤ len := by
      obtain ⟨k, v, hk⟩ := exists_lookup hct (isEmpty_of_isBranch hbr)
      have := hlen (p ++ k) (by rw [lookup_ext_append, hk]; rfl)
      rw [List.length_append] at this
      omega
    have hstem : t.isStem = false := by cases t <;> first | rfl | cases hbr
    rw [descendList, if_pos ⟨rfl, itemCount_of_isStem sha3 rfl, rfl⟩, if_neg (by simp)]
    obtain ⟨f, rfl⟩ : ∃ f, fuel = f + 2 := ⟨fuel - 2, by omega⟩
    exact leaves_descendEntry hs hn hnull hb (isEmpty_of_isBranch hbr)
      (fun f' hf' mask => ih hct hb.2 (isEmpty_of_isBranch hbr) hlen' (by omega) (fun _ => hstem) mask)
      mask
  | branch c v ih =>
    obtain ⟨fuel, rfl⟩ : ∃ f, fuel = f + 1 := ⟨fuel - 1, by omega⟩
    have hitem : ∀ i : Nibble, (nodeOf sha3 (.branch c v)).item i.val =
        reference sha3 (nodeOf sha3 (c i)) := fun i => branchItems_child sha3 c v i
    rw [descendList, if_neg (by simp), if_pos ⟨rfl, itemCount_branch sha3 c v⟩,
      show List.range 16 = (List.finRange 16).map Fin.val by decide, List.foldlM_map]
    have hchild : ∀ i ∈ List.finRange 16, ∀ mask, Leaves mask (refsAt sha3 (c i))
        (if ((nodeOf sha3 (.branch c v)).item i.val).isEmpty then .ok mask
        else descendEntry sha3 db r fuel ((nodeOf sha3 (.branch c v)).item i.val) mask false) := by
      intro i _ mask
      rw [hitem, isEmpty_reference]
      cases he : (c i).isEmpty with
      | true =>
        rw [eq_empty_of_isEmpty he]
        exact ⟨mask, rfl, fun h => by simp⟩
      | false =>
        have hlen' : ∀ k, ((c i).lookup k).isSome = true → k.length ≤ len - 1 := fun k hk => by
          have := hlen (i :: k) (by rwa [lookup_branch_cons])
          rw [List.length_cons] at this
          omega
        have hpos : 1 ≤ len := by
          obtain ⟨k, w, hk⟩ := exists_lookup (ht.1 i) he
          have := hlen (i :: k) (by rw [lookup_branch_cons, hk]; rfl)
          rw [List.length_cons] at this
          omega
        obtain ⟨f, rfl⟩ : ∃ f, fuel = f + 2 := ⟨fuel - 2, by omega⟩
        rw [if_neg (by decide)]
        exact leaves_descendEntry hs hn hnull (hb i) he
          (fun f' hf' mask => ih i (ht.1 i) (hb i).2 he hlen' (by omega) (by simp) mask) mask
    obtain ⟨mask', hrun, hmem⟩ := leaves_foldl hchild mask
    refine ⟨mask', hrun, fun h => ?_⟩
    rw [hmem, refsBelow_branch, Finset.sum_apply, Finset.sum_eq_zero_iff]
    simp

/-! ### The counts of a run -/

/-- The nodes that the root reaches, itself among them. -/
def Reaches (sha3 : Bytes → H256) (root : H256) (t : NodeTree) (h : H256) : Prop :=
  h = root ∨ 0 < refsBelow sha3 t h

omit [LawfulNodeDB σ] in
/-- A counted reference below the root is one to a long node, which is stored. -/
theorem exists_of_refsBelow {db : σ} {t : NodeTree} (hb : Below sha3 db t) {h : H256}
    (hpos : 0 < refsBelow sha3 t h) :
    ∃ r : RLP, 32 ≤ r.encode.length ∧ h = sha3 r.encode ∧ NodeDB.lookup db h = r.encode := by
  have hat : ∀ s : NodeTree, Stored sha3 db s → (0 < refsBelow sha3 s h → ∃ r : RLP,
        32 ≤ r.encode.length ∧ h = sha3 r.encode ∧ NodeDB.lookup db h = r.encode) →
      0 < refsAt sha3 s h → ∃ r : RLP,
        32 ≤ r.encode.length ∧ h = sha3 r.encode ∧ NodeDB.lookup db h = r.encode := by
    intro s hst ih hs
    rw [refsAt, Pi.add_apply, hit] at hs
    split at hs
    case isTrue hh => exact ⟨nodeOf sha3 s, hh.1, hh.2, by rw [hh.2, hst.1 hh.1]⟩
    case isFalse => exact ih (by omega)
  induction t with
  | empty => cases hpos
  | leaf p v => cases hpos
  | ext p t ih => exact hat t hb (ih hb.2) hpos
  | branch c v ih =>
    rw [refsBelow_branch, Finset.sum_apply] at hpos
    obtain ⟨a, _, ha⟩ := Finset.exists_ne_zero_of_sum_ne_zero hpos.ne'
    exact hat (c a) (hb a) (ih a (hb a).2) (Nat.pos_of_ne_zero ha)

omit [LawfulNodeDB σ] in
theorem lookup_of_refsBelow {db : σ} {t : NodeTree} (hb : Below sha3 db t) {h : H256}
    (hpos : 0 < refsBelow sha3 t h) : NodeDB.lookup db h ≠ [] := by
  obtain ⟨r, _, _, hr⟩ := exists_of_refsBelow hb hpos
  rw [hr]
  exact encode_ne_nil r

theorem holds_lookup {db : σ} {root : H256} {t : NodeTree} (h : Holds sha3 db root t) {x : H256}
    (hx : Reaches sha3 root t x) : NodeDB.lookup db x ≠ [] := by
  rcases hx with rfl | hx
  · rw [h.hash, h.held]
    exact encode_ne_nil _
  · exact lookup_of_refsBelow h.below hx

/-- Exact counts leave nothing over. -/
theorem leftOvers_eq_nil {db : StateCacheDB} {root : H256} {t : NodeTree}
    (h : Holds sha3 db root t) (hc : Counts sha3 db root t) (hn : NoCollision sha3 db)
    (hnull : RLPNull.encode ∈ NodeDB.inserted db) {len : ℕ}
    (hlen : ∀ k, (t.lookup k).isSome = true → k.length ≤ len) {fuel : ℕ} (hf : 3 * len + 2 ≤ fuel) :
    leftOvers sha3 fuel db root = .ok [] := by
  obtain ⟨fuel, rfl⟩ : ∃ f, fuel = f + 1 := ⟨fuel - 1, by omega⟩
  have hmask : ∀ x, ¬ (x ∈ db.keys ∧ (if x = root then 1 else 0) + refsBelow sha3 t x = 0) := by
    rintro x ⟨hx, hzero⟩
    have := StateCacheDB.mem_keys.mp hx
    have := hc x
    change db.refs x = _ at this
    omega
  unfold leftOvers
  cases he : t.isEmpty with
  | true =>
    have ht := eq_empty_of_isEmpty he
    subst ht
    have hroot : root = EmptyTrie sha3 := h.hash
    rw [descendKey, if_pos ⟨rfl, hroot⟩]
    congr 1
    refine List.filter_eq_nil_iff.mpr fun x hx hxr => hmask x ⟨hx, ?_⟩
    have : x ≠ root := by simpa using hxr
    simp [this, refsBelow]
  | false =>
    have hroot := h.hash
    have hlist : ∀ mask, Leaves mask (refsBelow sha3 t)
        (descendList sha3 db root fuel (nodeOf sha3 t) mask false) := fun mask =>
      leaves_descendList h.sound hn hnull h.canonical h.below he hlen (by omega) (by simp) mask
    obtain ⟨mask', hrun, hmem⟩ := leaves_descendKey (r := root) h.sound hn h.held
      (ne_emptyTrie h.sound hn hnull h.held he) hlist db.keys
    rw [← hroot] at hrun hmem
    rw [hrun]
    congr 1
    refine List.eq_nil_iff_forall_not_mem.mpr fun x hx => ?_
    exact hmask x ((hmem x).mp hx)

variable (sha3) in
theorem null_inserted (fuel : ℕ) (ops : List TrieOp) (db : σ) :
    RLPNull.encode ∈ NodeDB.inserted ((runFromInit sha3 fuel ops).run db).2 := by
  have hinit : (GenericTrieDB.init sha3 : TrieM σ H256).run db =
      (.ok (EmptyTrie sha3), NodeDB.insert db (sha3 RLPNull.encode) RLPNull.encode) := rfl
  unfold runFromInit
  rw [run_bind_ok hinit]
  refine (grows_runOps sha3 fuel ops _ _).log _ ?_
  rw [LawfulNodeDB.inserted_insert]
  exact List.mem_cons_self

theorem uniform_treeOf {len : ℕ} {ops : List TrieOp} (hops : ∀ op ∈ ops, 2 * op.key.length = len) :
    Uniform len (treeOf ops) := by
  have hfold : ∀ t : NodeTree, t.Canonical → Uniform len t →
      Uniform len (ops.foldl TrieOp.onTree t) := by
    induction ops with
    | nil => exact fun t _ hu => hu
    | cons op ops ih =>
      intro t ht hu
      exact ih (fun o ho => hops o (List.mem_cons_of_mem _ ho)) _ (canonical_onTree ht op)
        (hu.onTree ht (hops op List.mem_cons_self))
  exact hfold .empty trivial fun k hk => by simp at hk

end Scan
end Aleth.Devcore
