import Aleth.Devcore.TrieIterator
import Aleth.Devcore.TrieMixed
import Aleth.Structure.PatriciaOrder

/-! Iteration over a trie is in order and complete.

A trail stands for the entries that are still to come: those of the children not
yet reached of every branch on it, the innermost first (`Rests`). `enter` is the
step: a node that is entered with a search key adds its own entries from that key
on. It is by induction on the tree; in a branch the children follow one another
(`scan`). `iteration_in_order` is the result for any map that insertions make. -/
namespace Aleth.Devcore
open Patricia Patricia.Tree Throwing GenericTrieDB
open RLP (data list)

section Walk
variable {sha3 : Bytes → H256} {σ : Type} [NodeDB σ] {db : σ}
variable {t : NodeTree} {c : Nibble → NodeTree} {v : Option Value} {p k : List Nibble} {i : ℕ}
variable {trail : List TrailNode} {es : List (List Nibble × Value)}

/-! ### Nodes on a trail -/

variable (sha3) in
/-- A tree under the key `p`, about to be entered. -/
def entering (t : NodeTree) (p : List Nibble) : TrailNode :=
  ⟨(nodeOf sha3 t).encode, hexPrefixEncode p false, 255⟩

variable (sha3) in
/-- The leaf that the iterator has stopped at. -/
def atLeaf (q : List Nibble) (w : Value) (p : List Nibble) : TrailNode :=
  ⟨(nodeOf sha3 (.leaf q w)).encode, hexPrefixEncode p false, 0⟩

variable (sha3) in
/-- A branch at the child `j`. -/
def atChild (c : Nibble → NodeTree) (v : Option Value) (p : List Nibble) (j : ℕ) : TrailNode :=
  ⟨(nodeOf sha3 (.branch c v)).encode, hexPrefixEncode p false, j⟩

/-- Where a branch stands when number `i` is the child to look at. -/
def look (i : ℕ) : ℕ := if i = 16 then 17 else i

/-- Where a branch stands when number `i` comes next. -/
def prior (i : ℕ) : ℕ := if i = 0 then 16 else i - 1

theorem incrementChild_prior (h : i ≤ 16) :
    (atChild sha3 c v p (prior i)).incrementChild = atChild sha3 c v p (look i) := by
  unfold atChild TrailNode.incrementChild prior look
  congr 1
  dsimp only
  split_ifs <;> omega

theorem incrementChild_look (h : i < 16) :
    (atChild sha3 c v p (look i)).incrementChild = atChild sha3 c v p (look (i + 1)) := by
  unfold atChild TrailNode.incrementChild look
  congr 1
  dsimp only
  split_ifs <;> omega

theorem prior_succ (h : i < 16) : prior (i + 1) = look i := by
  unfold prior look
  rw [if_neg (by omega), if_neg (by omega), Nat.add_sub_cancel]

theorem ofString_held [LawfulNodeDB σ] (hs : Sound sha3 db) (hn : NoCollision sha3 db) {r : RLP}
    (h : Held sha3 db r) : RLP.ofString r.encode = .ok (some r) := by
  by_cases hl : 32 ≤ r.encode.length
  · have hread := run_node_stored hs hn (h hl)
    rwa [h hl] at hread
  · exact ofString_encode (by unfold RLP.Fits; omega)

/-- The way from a node to a child that is not empty. -/
theorem run_deref (h : Held sha3 db (nodeOf sha3 t)) (ht : t.isEmpty = false) :
    (deref (reference sha3 (nodeOf sha3 t)) : TrieM σ Bytes).run db =
      (.ok (nodeOf sha3 t).encode, db) := by
  unfold deref
  by_cases hl : (nodeOf sha3 t).encode.length < 32
  · have hr : reference sha3 (nodeOf sha3 t) = nodeOf sha3 t := if_pos hl
    rw [hr, isList_nodeOf sha3 ht, if_pos rfl]
    rfl
  · have hr : reference sha3 (nodeOf sha3 t) = data (sha3 (nodeOf sha3 t).encode).bytes := if_neg hl
    rw [hr, if_neg (by simp [RLP.isList]), run_bind_ok (by rw [run_lift, toHash_bytes])]
    show (Except.ok (NodeDB.lookup db _), db) = _
    rw [h (by omega)]

/-! ### Trails -/

/-- The entries to come after those that have been seen. -/
inductive Rests (sha3 : Bytes → H256) (db : σ) :
    List TrailNode → List (List Nibble × Value) → Prop
  | nil : Rests sha3 db [] []
  | leaf {q p : List Nibble} {w : Value} {trail : List TrailNode}
      {es : List (List Nibble × Value)} (hheld : Held sha3 db (nodeOf sha3 (.leaf q w)))
      (hrest : Rests sha3 db trail es) : Rests sha3 db (atLeaf sha3 q w p :: trail) es
  | branch {c : Nibble → NodeTree} {v : Option Value} {p : List Nibble} {i : ℕ}
      {trail : List TrailNode} {es : List (List Nibble × Value)}
      (hst : Stored sha3 db (.branch c v)) (hc : ∀ a, (c a).Canonical) (hi : i ≤ 16)
      (hrest : Rests sha3 db trail es) :
      Rests sha3 db (atChild sha3 c v p (prior i) :: trail) (under p (onward c i []) ++ es)

/-- What `at` reads off the back of a trail. -/
structure Shows (b : TrailNode) (e : List Nibble × Value) : Prop where
  key : b.key = hexPrefixEncode e.1 false
  value : ∃ r, RLP.ofString b.rlp = .ok (some r) ∧
    (r.item (if r.itemCount = 2 then 1 else 16)).payload = e.2.1

/-- An iterator at the first of some entries. -/
inductive Stands (sha3 : Bytes → H256) (db : σ) :
    List TrailNode → List (List Nibble × Value) → Prop
  | nil : Stands sha3 db [] []
  | cons {b : TrailNode} {trail : List TrailNode} {e : List Nibble × Value}
      {es : List (List Nibble × Value)} (hshow : Shows b e)
      (hrest : Rests sha3 db (b :: trail) es) : Stands sha3 db (b :: trail) (e :: es)

/-- The loop after a turn. -/
def proceed (fuel : ℕ) : Turn → TrieM σ (List TrailNode)
  | .again k trail => nextFrom fuel k trail
  | .done trail => return trail

theorem nextFrom_succ (fuel : ℕ) (k : List Nibble) (trail : List TrailNode) :
    (nextFrom (fuel + 1) k trail : TrieM σ _) = turnFrom k trail >>= proceed fuel := rfl

/-- The turn, and the loop after it, end at the first of `es`. -/
def TurnsTo (sha3 : Bytes → H256) (db : σ) (x : TrieM σ Turn)
    (es : List (List Nibble × Value)) : Prop :=
  ∃ n it, Stands sha3 db it es ∧ ∀ fuel, (x >>= proceed (n + fuel)).run db = (.ok it, db)

/-- The loop ends at the first of `es`. -/
def GoesTo (sha3 : Bytes → H256) (db : σ) (k : List Nibble) (trail : List TrailNode)
    (es : List (List Nibble × Value)) : Prop :=
  ∃ n it, Stands sha3 db it es ∧ ∀ fuel, (nextFrom (n + fuel) k trail : TrieM σ _).run db =
    (.ok it, db)

theorem TurnsTo.goesTo (h : TurnsTo sha3 db (turnFrom k trail) es) :
    GoesTo sha3 db k trail es := by
  obtain ⟨n, it, hit, hrun⟩ := h
  refine ⟨n + 1, it, hit, fun fuel => ?_⟩
  rw [Nat.add_right_comm, nextFrom_succ, hrun]

theorem TurnsTo.again {x : TrieM σ Turn} (hx : x.run db = (.ok (.again k trail), db))
    (h : GoesTo sha3 db k trail es) : TurnsTo sha3 db x es := by
  obtain ⟨n, it, hit, hrun⟩ := h
  refine ⟨n, it, hit, fun fuel => ?_⟩
  rw [run_bind_ok hx]
  exact hrun fuel

theorem TurnsTo.done {x : TrieM σ Turn} (hx : x.run db = (.ok (.done trail), db))
    (h : Stands sha3 db trail es) : TurnsTo sha3 db x es :=
  ⟨0, trail, h, fun fuel => by rw [run_bind_ok hx]; rfl⟩

theorem TurnsTo.congr {x y : TrieM σ Turn} (hx : x.run db = y.run db)
    (h : TurnsTo sha3 db y es) : TurnsTo sha3 db x es := by
  obtain ⟨n, it, hit, hrun⟩ := h
  exact ⟨n, it, hit, fun fuel => by rw [run_bind_congr hx, hrun]⟩

/-! ### Turns -/

theorem isEarlierThan_iff {k q : List Nibble} : isEarlierThan k q = true ↔ k < q := by
  induction k generalizing q with
  | nil =>
    cases q with
    | nil => simp [isEarlierThan]
    | cons b q => simp [isEarlierThan, List.nil_lt_cons]
  | cons a k ih =>
    cases q with
    | nil => simp [isEarlierThan, List.not_lt_nil]
    | cons b q =>
      rw [isEarlierThan, List.cons_lt_cons_iff]
      by_cases hab : a < b
      · simp [hab]
      · by_cases hba : b < a
        · simp [hab, hba, ne_of_gt hba]
        · have heq : a = b := le_antisymm (not_lt.mp hba) (not_lt.mp hab)
          simp [heq, ih]

theorem run_forChild_exit (r : RLP) (fuel : ℕ) (k p : List Nibble) (trail : List TrailNode) :
    (forChild r (fuel + 1) k (atChild sha3 c v p (look 16)) trail : TrieM σ Turn).run db =
      (.ok (.again [] trail), db) := by
  unfold forChild
  rw [if_pos (show (atChild sha3 c v p (look 16)).child = 17 from rfl), run_pure]

theorem run_forChild_value (w : Value) (fuel : ℕ) (k p : List Nibble) (trail : List TrailNode) :
    (forChild (nodeOf sha3 (.branch c (some w))) (fuel + 1) k (atChild sha3 c (some w) p 16) trail :
        TrieM σ Turn).run db = (.ok (.done (atChild sha3 c (some w) p 16 :: trail)), db) := by
  have hfull : ((nodeOf sha3 (.branch c (some w))).item 16).isEmpty = false := by
    rw [nodeOf_branch, branchItems_value]
    obtain ⟨_ | ⟨x, b⟩, hw⟩ := w
    · exact absurd rfl hw
    · rfl
  have hchild : (atChild sha3 c (some w) p 16).child = 16 := rfl
  rw [forChild, hchild, if_neg (by decide), if_pos (by simp [hfull]), if_pos rfl, run_pure]

theorem run_forChild_noValue (fuel : ℕ) (k p : List Nibble) (trail : List TrailNode) :
    (forChild (nodeOf sha3 (.branch c none)) (fuel + 1) k (atChild sha3 c none p 16) trail :
        TrieM σ Turn).run db =
      (forChild (nodeOf sha3 (.branch c none)) fuel [] (atChild sha3 c none p (look 0)) trail :
        TrieM σ Turn).run db := by
  have hempty : ((nodeOf sha3 (.branch c none)).item 16).isEmpty = true := by
    rw [nodeOf_branch, branchItems_value]
    rfl
  have hnext : (atChild sha3 c none p 16).incrementChild = atChild sha3 c none p (look 0) :=
    incrementChild_prior (Nat.zero_le 16)
  have hchild : (atChild sha3 c none p 16).child = 16 := rfl
  rw [forChild, hchild, if_neg (by decide), if_neg (by simp [hempty]), hnext]

theorem run_forChild_skip (a : Nibble) (ha : (c a).isEmpty = true) (fuel : ℕ) (k p : List Nibble)
    (trail : List TrailNode) :
    (forChild (nodeOf sha3 (.branch c v)) (fuel + 1) k (atChild sha3 c v p (look a)) trail :
        TrieM σ Turn).run db =
      (forChild (nodeOf sha3 (.branch c v)) fuel [] (atChild sha3 c v p (look (a + 1))) trail :
        TrieM σ Turn).run db := by
  have hlook : look a = a := if_neg (by omega)
  have hitem : ((nodeOf sha3 (.branch c v)).item a).isEmpty = true := by
    rw [nodeOf_branch, branchItems_child, isEmpty_reference, ha]
  rw [← incrementChild_look a.isLt, hlook, forChild,
    if_neg (show ¬(atChild sha3 c v p a).child = 17 by unfold atChild; dsimp only; omega),
    if_neg (show ¬(!((nodeOf sha3 (.branch c v)).item (atChild sha3 c v p a).child).isEmpty) = true
      by unfold atChild; simp [hitem])]

theorem run_forChild_enter (hst : Stored sha3 db (.branch c v)) (a : Nibble)
    (ha : (c a).isEmpty = false) (fuel : ℕ) (k p : List Nibble) (trail : List TrailNode) :
    (forChild (nodeOf sha3 (.branch c v)) (fuel + 1) k (atChild sha3 c v p (look a)) trail).run
        db =
      (.ok (.again k (entering sha3 (c a) (p ++ [a]) :: atChild sha3 c v p (prior (a + 1)) :: trail)),
        db) := by
  have hlook : look a = a := if_neg (by omega)
  have hitem : (nodeOf sha3 (.branch c v)).item a = reference sha3 (nodeOf sha3 (c a)) := by
    rw [nodeOf_branch, branchItems_child]
  have hfull : (reference sha3 (nodeOf sha3 (c a))).isEmpty = false := by
    rw [isEmpty_reference, ha]
  rw [prior_succ a.isLt, hlook, forChild,
    if_neg (show ¬(atChild sha3 c v p a).child = 17 by unfold atChild; dsimp only; omega),
    show (atChild sha3 c v p a).child = a.val from rfl, hitem, if_pos (by simp [hfull]),
    if_neg (by omega), run_bind_ok (run_deref (hst.2 a).1 ha)]
  simp only [atChild, entering, keyOf_hexPrefixEncode, Fin.ofNat_val_eq_self, run_pure]

section Turns
variable [LawfulNodeDB σ] (hs : Sound sha3 db) (hn : NoCollision sha3 db)
include hs hn

theorem run_turn_empty (h : Held sha3 db (nodeOf sha3 .empty)) (k p : List Nibble)
    (trail : List TrailNode) :
    (turnFrom k (entering sha3 .empty p :: trail)).run db = (.ok (.again [] trail), db) := by
  have hr : RLP.ofString (entering sha3 .empty p).rlp = .ok (some (nodeOf sha3 .empty)) :=
    ofString_held hs hn h
  unfold turnFrom
  rw [run_bind_ok (by rw [run_lift, hr])]
  rfl

/-- What `turnFrom` does with the key of a two-item node. -/
theorem run_turn_stem (ht : t.isStem = true) (h : Held sha3 db (nodeOf sha3 t))
    (k p : List Nibble) (trail : List TrailNode) :
    (turnFrom k (entering sha3 t p :: trail)).run db =
      (match narrowed t.path k with
        | none => return .again [] trail
        | some k' =>
          if isLeaf (nodeOf sha3 t) then
            if k' = [] then
              return .done (⟨(nodeOf sha3 t).encode, hexPrefixEncode (p ++ t.path) false, 0⟩ :: trail)
            else return .again [] trail
          else do
            let s ← deref ((nodeOf sha3 t).item 1)
            return .again k' (⟨s, hexPrefixEncode (p ++ t.path) false, 255⟩ :: trail) :
        TrieM σ Turn).run db := by
  have hr : RLP.ofString (entering sha3 t p).rlp = .ok (some (nodeOf sha3 t)) :=
    ofString_held hs hn h
  have hlist : (nodeOf sha3 t).isList = true := by cases t <;> first | rfl | cases ht
  unfold turnFrom
  rw [run_bind_ok (by rw [run_lift, hr])]
  dsimp only
  rw [isEmpty_of_isStem sha3 ht, itemCount_of_isStem sha3 ht, keyOfNode_nodeOf sha3 ht, hlist,
    if_pos (show (entering sha3 t p).child = 255 from rfl), if_neg (by decide), if_neg (by decide),
    if_pos rfl]
  unfold narrowed
  by_cases hp : t.path <+: k
  · have hmin : min k.length t.path.length = t.path.length := min_eq_right hp.length_le
    rw [if_neg (by simp [hp]), if_pos hp, if_pos hp, hmin]
    simp only [entering, keyOf_hexPrefixEncode]
  · rw [if_neg hp]
    by_cases hk : k < t.path
    · rw [if_neg (by simp [isEarlierThan_iff.mpr hk]), if_pos hk, if_neg hp]
      simp only [entering, keyOf_hexPrefixEncode, List.drop_nil]
    · have hk' : isEarlierThan k t.path = false := by
        rw [← Bool.not_eq_true, isEarlierThan_iff]
        exact hk
      rw [if_pos (by simp [hp, hk']), if_neg hk, if_neg hp]

theorem run_turn_entered (h : Held sha3 db (nodeOf sha3 (.branch c v))) (k p : List Nibble)
    (trail : List TrailNode) :
    (turnFrom k (entering sha3 (.branch c v) p :: trail)).run db =
      (match k with
        | a :: k => forChild (nodeOf sha3 (.branch c v)) 18 k (atChild sha3 c v p a) trail
        | [] => forChild (nodeOf sha3 (.branch c v)) 18 [] (atChild sha3 c v p 16) trail :
        TrieM σ Turn).run db := by
  have hr : RLP.ofString (entering sha3 (.branch c v) p).rlp =
      .ok (some (nodeOf sha3 (.branch c v))) := ofString_held hs hn h
  unfold turnFrom
  rw [run_bind_ok (by rw [run_lift, hr])]
  dsimp only
  rw [isEmpty_branch, itemCount_branch, show (nodeOf sha3 (.branch c v)).isList = true from rfl,
    if_pos (show (entering sha3 (.branch c v) p).child = 255 from rfl), if_neg (by decide),
    if_neg (by decide), if_neg (by decide)]
  rfl

/-- A branch on the trail moves on to its next child. -/
theorem run_turn_branch (h : Held sha3 db (nodeOf sha3 (.branch c v))) (hi : i ≤ 16)
    (k p : List Nibble) (trail : List TrailNode) :
    (turnFrom k (atChild sha3 c v p (prior i) :: trail)).run db =
      (forChild (nodeOf sha3 (.branch c v)) 18 k (atChild sha3 c v p (look i)) trail :
        TrieM σ Turn).run db := by
  have hr : RLP.ofString (atChild sha3 c v p (prior i)).rlp =
      .ok (some (nodeOf sha3 (.branch c v))) := ofString_held hs hn h
  have hne : ¬prior i = 255 := by
    unfold prior
    split_ifs <;> omega
  unfold turnFrom
  rw [run_bind_ok (by rw [run_lift, hr])]
  dsimp only
  rw [itemCount_branch, show (nodeOf sha3 (.branch c v)).isList = true from rfl,
    if_neg (show ¬(atChild sha3 c v p (prior i)).child = 255 from hne), if_neg (by decide),
    incrementChild_prior hi]

theorem run_turn_atLeaf {q : List Nibble} {w : Value}
    (h : Held sha3 db (nodeOf sha3 (.leaf q w))) (k p : List Nibble) (trail : List TrailNode) :
    (turnFrom k (atLeaf sha3 q w p :: trail)).run db = (.ok (.again [] trail), db) := by
  have hr : RLP.ofString (atLeaf sha3 q w p).rlp = .ok (some (nodeOf sha3 (.leaf q w))) :=
    ofString_held hs hn h
  unfold turnFrom
  rw [run_bind_ok (by rw [run_lift, hr])]
  rfl

/-! ### The walk -/

/-- The `for` over the children, from number `i` on. -/
theorem scan (hst : Stored sha3 db (.branch c v)) (hc : ∀ a, (c a).Canonical)
    (henter : ∀ a {k p : List Nibble} {trail : List TrailNode} {es : List (List Nibble × Value)},
      Rests sha3 db trail es → GoesTo sha3 db [] trail es →
        GoesTo sha3 db k (entering sha3 (c a) p :: trail) (under p (notBefore k (c a).entries) ++ es))
    (hrest : Rests sha3 db trail es) (hgo : GoesTo sha3 db [] trail es) {fuel : ℕ}
    (hi : i ≤ 16) (hf : 17 - i ≤ fuel) :
    TurnsTo sha3 db (forChild (nodeOf sha3 (.branch c v)) fuel k
      (atChild sha3 c v p (look i)) trail) (under p (onward c i k) ++ es) := by
  obtain ⟨fuel, rfl⟩ : ∃ f, fuel = f + 1 := ⟨fuel - 1, by omega⟩
  induction hleft : 16 - i generalizing i k fuel with
  | zero =>
    obtain rfl : i = 16 := by omega
    rw [onward_of_ge le_rfl, under_empty, List.nil_append]
    exact .again (run_forChild_exit _ _ _ _ _) hgo
  | succ left ih =>
    obtain ⟨a, rfl⟩ : ∃ a : Nibble, a.val = i := ⟨⟨i, by omega⟩, rfl⟩
    rw [onward_of_lt, under_append, under_under, List.append_assoc]
    cases ha : (c a).isEmpty with
    | true =>
      have hnone : under (p ++ [a]) (notBefore k (c a).entries) = [] := by
        rw [eq_empty_of_isEmpty ha]
        rfl
      rw [hnone, List.nil_append]
      refine .congr (run_forChild_skip a ha fuel k p trail) ?_
      obtain ⟨fuel, rfl⟩ : ∃ f, fuel = f + 1 := ⟨fuel - 1, by omega⟩
      exact ih (by omega) fuel (by omega) (by omega)
    | false =>
      refine .again (run_forChild_enter hst a ha fuel k p trail) ?_
      refine henter a (.branch hst hc (by omega) hrest) (TurnsTo.goesTo ?_)
      refine .congr (run_turn_branch hs hn hst.1 (by omega) [] p trail) ?_
      exact ih (by omega) 17 (by omega) (by omega)

theorem shows_leaf (q p : List Nibble) (w : Value) (h : Held sha3 db (nodeOf sha3 (.leaf q w))) :
    Shows (atLeaf sha3 q w p) (p, w) :=
  ⟨rfl, _, ofString_held hs hn h, rfl⟩

theorem shows_value (c : Nibble → NodeTree) (w : Value) (p : List Nibble)
    (h : Held sha3 db (nodeOf sha3 (.branch c (some w)))) :
    Shows (atChild sha3 c (some w) p 16) (p, w) := by
  refine ⟨rfl, _, ofString_held hs hn h, ?_⟩
  rw [itemCount_branch, if_neg (by decide), nodeOf_branch, branchItems_value]
  rfl

/-- **A node that is entered with a key has its entries from that key on before what is left of
the trail.** -/
theorem enter (ht : t.Canonical) (hst : Stored sha3 db t) (hrest : Rests sha3 db trail es)
    (hgo : GoesTo sha3 db [] trail es) (k p : List Nibble) :
    GoesTo sha3 db k (entering sha3 t p :: trail) (under p (notBefore k t.entries) ++ es) := by
  induction t generalizing trail es k p with
  | empty => exact (TurnsTo.again (run_turn_empty hs hn hst.1 k p trail) hgo).goesTo
  | leaf q w =>
    have hentries : (Tree.leaf q w : NodeTree).entries = under q [([], w)] := by
      rw [under_cons, List.append_nil]
      rfl
    have hturn := run_turn_stem hs hn (t := .leaf q w) rfl hst.1 k p trail
    rw [hentries, notBefore_under_narrowed]
    refine TurnsTo.goesTo (.congr hturn ?_)
    change TurnsTo sha3 db (match narrowed q k with | none => _ | some k' => _) _
    cases narrowed q k with
    | none => exact .again rfl hgo
    | some k' =>
      dsimp only
      rw [isLeaf_leaf, if_pos rfl]
      cases k' with
      | nil =>
        rw [if_pos rfl, notBefore_nil, under_under, under_cons, List.append_nil]
        exact .done rfl (.cons (shows_leaf hs hn q _ w hst.1) (.leaf hst.1 hrest))
      | cons a k' =>
        rw [if_neg (by simp)]
        exact .again rfl hgo
  | ext q t ih =>
    have hturn := run_turn_stem hs hn (t := .ext q t) rfl hst.1 k p trail
    rw [entries, notBefore_under_narrowed]
    refine TurnsTo.goesTo (.congr hturn ?_)
    change TurnsTo sha3 db (match narrowed q k with | none => _ | some k' => _) _
    cases narrowed q k with
    | none => exact .again rfl hgo
    | some k' =>
      dsimp only
      rw [isLeaf_ext, if_neg (by decide), under_under]
      have hderef := run_deref hst.2.1 (isEmpty_of_isBranch ht.2.1)
      exact .again (run_bind_ok hderef _) (ih ht.2.2 hst.2 hrest hgo k' (p ++ q))
  | branch c v ih =>
    have henter : ∀ a {k p : List Nibble} {trail : List TrailNode}
        {es : List (List Nibble × Value)}, Rests sha3 db trail es → GoesTo sha3 db [] trail es →
        GoesTo sha3 db k (entering sha3 (c a) p :: trail)
          (under p (notBefore k (c a).entries) ++ es) :=
      fun a k p _ _ hr hg => ih a (ht.1 a) (hst.2 a) hr hg k p
    refine TurnsTo.goesTo (.congr (run_turn_entered hs hn hst.1 k p trail) ?_)
    cases k with
    | cons a k =>
      have hlook : look a = a := if_neg (by omega)
      have hscan := scan hs hn hst ht.1 henter hrest hgo (k := k) (p := p) a.isLt.le
        (show 17 - a.val ≤ 18 by omega)
      rw [notBefore_branch]
      rwa [hlook] at hscan
    | nil =>
      dsimp only
      rw [notBefore_nil, entries_branch, under_append, List.append_assoc]
      cases v with
      | none =>
        refine .congr (run_forChild_noValue 17 [] p trail) ?_
        exact scan hs hn hst ht.1 henter hrest hgo (Nat.zero_le 16) (show 17 - 0 ≤ 17 by omega)
      | some w =>
        have hshow : Shows (atChild sha3 c (some w) p 16) (p ++ [], w) := by
          rw [List.append_nil]
          exact shows_value hs hn c w p hst.1
        exact .done (run_forChild_value w 17 [] p trail)
          (.cons hshow (.branch hst ht.1 (Nat.zero_le 16) hrest))

/-- A trail with nothing at its back goes on with the entries it stands for. -/
theorem resume (h : Rests sha3 db trail es) : GoesTo sha3 db [] trail es := by
  induction h with
  | nil => exact (TurnsTo.done rfl .nil).goesTo
  | leaf hheld _ ih => exact (TurnsTo.again (run_turn_atLeaf hs hn hheld _ _ _) ih).goesTo
  | branch hst hc hi hrest ih =>
    refine TurnsTo.goesTo (.congr (run_turn_branch hs hn hst.1 hi [] _ _) ?_)
    exact scan hs hn hst hc (fun a {k p} _ _ hr hg => enter hs hn (hc a) (hst.2 a) hr hg k p) hrest
      ih hi (by omega)

end Turns

/-! ### `next()` -/

theorem forChild_again {r : RLP} {fuel : ℕ} {b : TrailNode} {trail trail' : List TrailNode}
    {k : List Nibble} {db db' : σ}
    (h : (forChild r fuel [] b trail).run db = (.ok (.again k trail'), db')) : k = [] := by
  induction fuel generalizing b with
  | zero => cases h
  | succ fuel ih =>
    rw [forChild] at h
    split at h
    · cases h
      rfl
    · split at h
      · split at h
        · cases h
        · rw [run_bind] at h
          split at h
          · cases h
            rfl
          · cases h
      · exact ih h

theorem turn_again {trail trail' : List TrailNode} {k : List Nibble} {db db' : σ}
    (h : (turn trail).run db = (.ok (.again k trail'), db')) : k = [] := by
  cases trail with
  | nil => cases h
  | cons b trail =>
    unfold turn at h
    rw [run_bind, run_lift] at h
    cases hr : RLP.ofString b.rlp with
    | error e => rw [hr] at h; cases h
    | ok r =>
      rw [hr] at h
      cases r with
      | none =>
        dsimp only at h
        split at h
        · cases h
        · cases h
          rfl
      | some r =>
        dsimp only at h
        split_ifs at h
        · cases h
          rfl
        · cases h
        · cases h
        · rw [run_bind] at h
          split at h
          · cases h
            rfl
          · cases h
        · exact forChild_again h
        · cases h
          rfl
        · exact forChild_again h

/-- A search without a key. -/
theorem turn_eq (trail : List TrailNode) : (turn trail : TrieM σ Turn) = turnFrom [] trail := by
  cases trail with
  | nil => rfl
  | cons b trail =>
    refine congrArg (lift (RLP.ofString b.rlp) >>= ·) (funext fun r => ?_)
    cases r with
    | none => rfl
    | some r =>
      have hkey : (!decide (keyOfNode r <+: []) && !isEarlierThan [] (keyOfNode r)) = false := by
        cases keyOfNode r with
        | nil => rfl
        | cons a q => simp [isEarlierThan]
      have hguard : (!(r.isList && (decide (r.itemCount = 2) || decide (r.itemCount = 17)))) =
          (!r.isList || (decide (r.itemCount ≠ 2) && decide (r.itemCount ≠ 17))) := by
        simp
      dsimp only
      rw [hguard, hkey]
      simp only [ite_self, List.drop_nil, if_pos, Bool.false_eq_true, if_false]
      rfl

theorem run_next (fuel : ℕ) (trail : List TrailNode) (db : σ) :
    (next fuel trail).run db = (nextFrom fuel [] trail).run db := by
  induction fuel generalizing trail db with
  | zero => rfl
  | succ fuel ih =>
    rw [next, nextFrom, ← turn_eq, run_bind, run_bind]
    rcases hturn : (turn trail).run db with ⟨_ | out, db'⟩
    · rfl
    · cases out with
      | done trail' => rfl
      | again k trail' =>
        obtain rfl := turn_again hturn
        exact ih trail' db'

/-! ### Keys as bytes -/

theorem packNibbles_asNibbles (b : Bytes) : packNibbles (asNibbles b) = b := by
  apply asNibbles_injective
  exact asNibbles_packNibbles (by rw [asNibbles_length]; omega)

theorem hexPrefixEncode_asNibbles (b : Bytes) : hexPrefixEncode (asNibbles b) false = 0 :: b := by
  rw [hexPrefixEncode_even (by rw [asNibbles_length]; omega), packNibbles_asNibbles]
  rfl

theorem asNibbles_lt {a b : Bytes} : asNibbles a < asNibbles b ↔ a < b := by
  induction a generalizing b with
  | nil =>
    cases b with
    | nil => simp [asNibbles]
    | cons y b => simp [asNibbles, List.nil_lt_cons]
  | cons x a ih =>
    cases b with
    | nil => simp [asNibbles, List.not_lt_nil]
    | cons y b =>
      simp only [asNibbles, List.cons_lt_cons_iff, ih, Fin.lt_def, Fin.ext_iff, UInt8.lt_iff_toNat_lt,
        ← UInt8.toNat_inj]
      by_cases hq : x.toNat / 16 = y.toNat / 16
      · by_cases hr : x.toNat % 16 = y.toNat % 16
        · have hxy : x.toNat = y.toNat := by omega
          simp [hxy]
        · have hxy : x.toNat ≠ y.toNat := fun h => hr (by rw [h])
          simp only [hq, hr, hxy, false_and, or_false, true_and]
          omega
      · have hxy : x.toNat ≠ y.toNat := fun h => hq (by rw [h])
        simp only [hq, hxy, false_and, or_false]
        omega

theorem asNibbles_le {a b : Bytes} : asNibbles a ≤ asNibbles b ↔ a ≤ b := by
  rw [← not_lt, ← not_lt, asNibbles_lt]

/-- Entries with byte keys, as the entries of a tree. -/
def Matches (es : List (List Nibble × Value)) (bs : List (Bytes × Bytes)) : Prop :=
  es.map (fun e => (e.1, e.2.1)) = bs.map fun e => (asNibbles e.1, e.2)

theorem matches_of_realizes {m : BytesMap} (h : Realizes t m) : Matches t.entries m.entries := by
  have hnibbles : (m.entries.map fun e => (asNibbles e.1, e.2)).Pairwise (fun e e' => e.1 < e'.1) :=
    List.pairwise_map.mpr (m.sorted.imp fun he => asNibbles_lt.mpr he)
  have hvalues : (t.entries.map fun e => (e.1, e.2.1)).Pairwise (fun e e' => e.1 < e'.1) :=
    List.pairwise_map.mpr (sorted_entries t)
  refine SortedMap.entries_ext hvalues hnibbles fun e => ?_
  have hkey := h e.1 e.2
  rw [Option.map_eq_some_iff] at hkey
  simp only [List.mem_map]
  constructor
  · rintro ⟨⟨k, v⟩, hv, rfl⟩
    obtain ⟨b, hb, hfind⟩ := hkey.mp ⟨v, mem_entries.mp hv, rfl⟩
    exact ⟨(b, v.1), SortedMap.find_eq_some_iff.mp hfind, by rw [← hb]⟩
  · rintro ⟨⟨b, x⟩, hx, rfl⟩
    obtain ⟨v, hv, rfl⟩ := hkey.mpr ⟨b, rfl, SortedMap.find_eq_some_iff.mpr hx⟩
    exact ⟨(asNibbles b, v), mem_entries.mpr hv, rfl⟩

theorem Matches.notBefore {bs : List (Bytes × Bytes)} (h : Matches es bs) (q : Bytes) :
    Matches (notBefore (asNibbles q) es) (bs.filter fun e => q ≤ e.1) := by
  have hes : (Tree.notBefore (asNibbles q) es).map (fun e => (e.1, e.2.1)) =
      (es.map fun e => (e.1, e.2.1)).filter fun e => asNibbles q ≤ e.1 := by
    rw [List.filter_map]
    rfl
  have hbs : (bs.filter fun e => q ≤ e.1).map (fun e => (asNibbles e.1, e.2)) =
      (bs.map fun e => (asNibbles e.1, e.2)).filter fun e => asNibbles q ≤ e.1 := by
    rw [List.filter_map]
    refine congrArg (List.map _) (List.filter_congr fun e _ => ?_)
    exact decide_eq_decide.mpr asNibbles_le.symm
  unfold Matches
  rw [hes, hbs, h]

theorem run_entryAt {b : TrailNode} {w : Value} {key : Bytes} (h : Shows b (asNibbles key, w))
    (trail : List TrailNode) (db : σ) :
    (entryAt (b :: trail)).run db = (.ok (key, w.1), db) := by
  obtain ⟨r, hr, hw⟩ := h.value
  unfold entryAt
  dsimp only
  rw [h.key, hexPrefixEncode_asNibbles]
  dsimp only
  rw [if_neg (by decide), run_bind_ok (by rw [run_lift, hr])]
  dsimp only
  rw [hw, run_pure]

theorem Matches.cons {e : List Nibble × Value} {bs : List (Bytes × Bytes)}
    (h : Matches (e :: es) bs) :
    ∃ key bs', bs = (key, e.2.1) :: bs' ∧ e.1 = asNibbles key ∧ Matches es bs' := by
  cases bs with
  | nil => cases h
  | cons x bs =>
    obtain ⟨hhead, htail⟩ := List.cons.inj h
    obtain ⟨hkey, hval⟩ := Prod.mk.inj hhead
    exact ⟨x.1, bs, by rw [hval], hkey, htail⟩

/-- What a turn of a loop over the entries does. -/
theorem Stands.step [LawfulNodeDB σ] (hs : Sound sha3 db) (hn : NoCollision sha3 db)
    {it : List TrailNode} {e : List Nibble × Value} (h : Stands sha3 db it (e :: es)) {key : Bytes}
    (hk : e.1 = asNibbles key) :
    it ≠ end_ ∧ (entryAt it).run db = (.ok (key, e.2.1), db) ∧
      ∃ n it', Stands sha3 db it' es ∧ ∀ fuel, (next (n + fuel) it).run db = (.ok it', db) := by
  obtain ⟨k, w⟩ := e
  subst hk
  cases h with
  | cons hshow hrest =>
    obtain ⟨n, it', hit', hnext⟩ := resume hs hn hrest
    exact ⟨by simp [end_], run_entryAt hshow _ db, n, it', hit', fun fuel => by rw [run_next, hnext]⟩

/-- The loop sees the entries its iterator stands for, and ends. -/
theorem run_visited [LawfulNodeDB σ] (hs : Sound sha3 db) (hn : NoCollision sha3 db)
    {it : List TrailNode} (h : Stands sha3 db it es) {bs : List (Bytes × Bytes)}
    (hm : Matches es bs) : ∃ n, ∀ fuel, (visited (n + fuel) it).run db = (.ok bs, db) := by
  induction es generalizing it bs with
  | nil =>
    cases h
    obtain rfl : bs = [] := List.map_eq_nil_iff.mp hm.symm
    refine ⟨1, fun fuel => ?_⟩
    rw [Nat.add_comm]
    rfl
  | cons e es ih =>
    obtain ⟨key, bs, rfl, hk, hm'⟩ := hm.cons
    obtain ⟨hne, hentry, n₁, it', hit', hnext⟩ := h.step hs hn hk
    obtain ⟨n₂, hvisit⟩ := ih hit' hm'
    refine ⟨n₁ + n₂ + 1, fun fuel => ?_⟩
    have h₁ := hnext (n₂ + fuel)
    have h₂ := hvisit (n₁ + fuel)
    rw [show n₂ + (n₁ + fuel) = n₁ + (n₂ + fuel) by omega] at h₂
    rw [show n₁ + n₂ + 1 + fuel = n₁ + (n₂ + fuel) + 1 by omega, visited, if_neg hne,
      run_bind_ok hentry, run_bind_ok h₁, run_bind_ok h₂, run_pure]

/-! ### Iteration -/

section Iteration
variable [LawfulNodeDB σ] {root : H256} {m : BytesMap}

theorem run_entered (h : Holds sha3 db root t) :
    (entered root : TrieM σ _).run db = (.ok [entering sha3 t []], db) := by
  unfold entered
  rw [run_bind_ok h.node]
  rfl

/-- From the root on, a search with a key stands at the entries from that key on. -/
theorem goesTo_root (h : Holds sha3 db root t) (hn : NoCollision sha3 db) (k : List Nibble) :
    GoesTo sha3 db k [entering sha3 t []] (notBefore k t.entries) := by
  have hst : Stored sha3 db t := ⟨fun _ => h.held, h.below⟩
  have hgo := enter h.sound hn h.canonical hst .nil (resume h.sound hn .nil) k []
  rwa [under_nil, List.append_nil] at hgo

theorem run_iteratedFrom (h : Holds sha3 db root t) (hn : NoCollision sha3 db)
    (hm : Realizes t m) (q : Bytes) : ∃ n, ∀ fuel, (iteratedFrom (n + fuel) root q).run db =
      (.ok (m.entries.filter fun e => q ≤ e.1), db) := by
  obtain ⟨n₁, it, hit, hrun⟩ := goesTo_root h hn (asNibbles q)
  obtain ⟨n₂, hvisit⟩ := run_visited h.sound hn hit ((matches_of_realizes hm).notBefore q)
  refine ⟨n₁ + n₂, fun fuel => ?_⟩
  have h₁ := hrun (n₂ + fuel)
  have h₂ := hvisit (n₁ + fuel)
  rw [show n₂ + (n₁ + fuel) = n₁ + n₂ + fuel by omega] at h₂
  rw [← Nat.add_assoc] at h₁
  have hlower : (lowerBound (n₁ + n₂ + fuel) root q : TrieM σ _).run db = (.ok it, db) := by
    unfold lowerBound
    rw [run_bind_ok (run_entered h), h₁]
  unfold iteratedFrom
  rw [run_bind_ok hlower, h₂]

theorem run_iterated (h : Holds sha3 db root t) (hn : NoCollision sha3 db)
    (hm : Realizes t m) : ∃ n, ∀ fuel, (iterated (n + fuel) root).run db =
      (.ok m.entries, db) := by
  obtain ⟨n, hrun⟩ := run_iteratedFrom h hn hm []
  refine ⟨n, fun fuel => ?_⟩
  have hall : m.entries.filter (fun e => [] ≤ e.1) = m.entries :=
    List.filter_eq_self.mpr fun e _ => decide_eq_true (not_lt.mp (List.not_lt_nil e.1))
  have hfrom := hrun fuel
  rw [hall] at hfrom
  rw [← hfrom]
  -- a lower bound without a key is the beginning
  have hbegin : (begin (n + fuel) root : TrieM σ _).run db =
      (lowerBound (n + fuel) root [] : TrieM σ _).run db := by
    unfold begin lowerBound
    rw [run_bind_ok (run_entered h), run_bind_ok (run_entered h), run_next]
    rfl
  exact run_bind_congr hbegin _

end Iteration
end Walk

/-- The key `12 01` lies between the two that are there. -/
example : ((build sampleSha3 9 sampleKeys >>= fun root =>
    iteratedFrom 9 root [0x12, 0x01]).run StateCacheDB.empty).1 = .ok [([0x12, 0x34], [0x62])] := by
  decide +kernel

end Aleth.Devcore
