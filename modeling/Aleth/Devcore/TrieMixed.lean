import Aleth.Devcore.TrieRuns

/-! Removal where one key may be a prefix of another.

`Clear`, which `run_deleteAt` needs, is a condition on the tree; `Separate` says
the same of the keys it holds (`clear_iff_separate`). Where it fails, removal
throws, as long as no value happens to be the hash of a stored string
(`run_deleteAt_unclear`). `remove_iff_removable` puts this together for a trie
built from any keys. -/
namespace Aleth.Devcore
open Patricia Patricia.Tree Throwing GenericTrieDB Counting
open RLP (data list)

section Keys
variable {σ : Type} [NodeDB σ]

/-- What removal of `k` needs of the keys that are held: a key that `k` goes on from is not the
last one there; if `k` is not held, the keys that go on from `k` go on with one letter; and a
value left alone by the removal is not taken for a node. -/
structure Separate (db : σ) (f : List Nibble → Option Value) (k : List Nibble) : Prop where
  shorter : ∀ p, (f p).isSome = true → p <+: k → p ≠ k → ∃ q, q ≠ p ∧ p <+: q ∧ (f q).isSome = true
  fork : (f k).isSome = true ∨ ∀ r₁ r₂, (f (k ++ r₁)).isSome = true → (f (k ++ r₂)).isSome = true →
    r₁.head? = r₂.head?
  value : ∀ p v, f p = some v → p <+: k → p ≠ k → (f k).isSome = true →
    (∀ q, (f q).isSome = true → p <+: q → q = p ∨ q = k) → Harmless db v

theorem separate_leaf {db : σ} {p k : List Nibble} {w : Value} :
    Separate db (Tree.leaf p w).lookup k ↔ (p <+: k → p = k) := by
  have hmem : ∀ {q}, ((Tree.leaf p w).lookup q).isSome = true → q = p := by
    intro q hq
    by_contra hne
    simp [hne] at hq
  constructor
  · intro h hp
    by_contra hne
    obtain ⟨q, hqp, _, hq⟩ := h.shorter p (by simp) hp hne
    exact hqp (hmem hq)
  · intro h
    refine ⟨fun q hq hqk hne => ?_, ?_, fun q v hq hqk hne _ _ => ?_⟩
    · obtain rfl := hmem hq
      exact (hne (h hqk)).elim
    · refine .inr fun r₁ r₂ h₁ h₂ => ?_
      rw [List.append_cancel_left ((hmem h₁).trans (hmem h₂).symm)]
    · obtain rfl := hmem (by rw [hq]; rfl)
      exact (hne (h hqk)).elim

/-- Below a common start of all keys. -/
theorem separate_under {db : σ} {f : List Nibble → Option Value} {p k : List Nibble}
    (hf : ∀ q, (f q).isSome = true → p <+: q) :
    Separate db f (p ++ k) ↔ Separate db (fun r => f (p ++ r)) k := by
  have hinj : ∀ {x y : List Nibble}, p ++ x ≠ p ++ y ↔ x ≠ y := by simp
  constructor
  · intro h
    refine ⟨fun q hq hqk hne => ?_, ?_, fun q v hq hqk hne hk hall => ?_⟩
    · obtain ⟨x, hxq, hqx, hx⟩ := h.shorter (p ++ q) hq ((List.prefix_append_right_inj p).mpr hqk)
        (hinj.mpr hne)
      obtain ⟨x, rfl⟩ := hf x hx
      exact ⟨x, hinj.mp hxq, (List.prefix_append_right_inj p).mp hqx, hx⟩
    · rcases h.fork with hk | hall
      · exact .inl hk
      · exact .inr fun r₁ r₂ h₁ h₂ => hall r₁ r₂ (by rwa [List.append_assoc]) (by rwa [List.append_assoc])
    · refine h.value (p ++ q) v hq ((List.prefix_append_right_inj p).mpr hqk) (hinj.mpr hne) hk ?_
      intro x hx hqx
      obtain ⟨x, rfl⟩ := hf x hx
      rcases hall x hx ((List.prefix_append_right_inj p).mp hqx) with rfl | rfl
      · exact .inl rfl
      · exact .inr rfl
  · intro h
    refine ⟨fun q hq hqk hne => ?_, ?_, fun q v hq hqk hne hk hall => ?_⟩
    · obtain ⟨q, rfl⟩ := hf q hq
      obtain ⟨x, hxq, hqx, hx⟩ := h.shorter q hq ((List.prefix_append_right_inj p).mp hqk)
        (hinj.mp hne)
      exact ⟨p ++ x, hinj.mpr hxq, (List.prefix_append_right_inj p).mpr hqx, hx⟩
    · rcases h.fork with hk | hall
      · exact .inl hk
      · exact .inr fun r₁ r₂ h₁ h₂ => hall r₁ r₂ (by rwa [← List.append_assoc])
          (by rwa [← List.append_assoc])
    · obtain ⟨q, rfl⟩ := hf q (by rw [hq]; rfl)
      refine h.value q v hq ((List.prefix_append_right_inj p).mp hqk) (hinj.mp hne) hk ?_
      intro x hx hqx
      rcases hall (p ++ x) hx ((List.prefix_append_right_inj p).mpr hqx) with h | h
      · exact .inl (List.append_cancel_left h)
      · exact .inr (List.append_cancel_left h)

theorem prefix_of_isSome {p q : List Nibble} {t : NodeTree}
    (hq : ((Tree.ext p t).lookup q).isSome = true) : p <+: q := by
  by_contra hne
  rw [lookup_ext, if_neg hne] at hq
  cases hq

theorem separate_ext {db : σ} {p k : List Nibble} {t : NodeTree} :
    Separate db (Tree.ext p t).lookup (p ++ k) ↔ Separate db t.lookup k := by
  rw [separate_under fun q => prefix_of_isSome]
  simp only [lookup_ext_append]

theorem separate_ext_apart {db : σ} {p k : List Nibble} {t : NodeTree} (hp : ¬ p <+: k) :
    Separate db (Tree.ext p t).lookup k := by
  have hmem : ∀ {q}, ((Tree.ext p t).lookup q).isSome = true → p <+: q := prefix_of_isSome
  refine ⟨fun q hq hqk _ => (hp ((hmem hq).trans hqk)).elim, ?_,
    fun q v hq hqk _ _ _ => (hp ((hmem (by rw [hq]; rfl)).trans hqk)).elim⟩
  refine .inr fun r₁ r₂ h₁ h₂ => ?_
  -- the key ends inside the path, and what goes on from it goes on along the path
  obtain ⟨x, hx⟩ : k <+: p := by
    rcases List.prefix_or_prefix_of_prefix (List.prefix_append k r₁) (hmem h₁) with h | h
    · exact h
    · exact (hp h).elim
  cases x with
  | nil => rw [List.append_nil] at hx; exact (hp (hx ▸ List.prefix_rfl)).elim
  | cons a x =>
    have hhead : ∀ {r}, ((Tree.ext p t).lookup (k ++ r)).isSome = true → r.head? = some a := by
      intro r hr
      have := hmem hr
      rw [← hx, List.prefix_append_right_inj] at this
      obtain ⟨y, rfl⟩ := this
      rfl
    rw [hhead h₁, hhead h₂]

theorem separate_branch_nil {db : σ} {c : Nibble → NodeTree} {v : Option Value}
    (ht : (Tree.branch c v).Canonical) :
    Separate db (Tree.branch c v).lookup [] ↔ v.isSome = true := by
  constructor
  · intro h
    rcases h.fork with hv | hall
    · exact hv
    · obtain ⟨_, k₁, k₂, v₁, v₂, h₁, h₂, hne⟩ := diverges_branch ht
      rw [List.nil_append] at h₁ h₂
      exact (hne (hall k₁ k₂ (by rw [List.nil_append, h₁]; rfl) (by rw [List.nil_append, h₂]; rfl))).elim
  · intro hv
    refine ⟨fun p _ hp hne => ?_, .inl hv, fun p w _ hp hne => ?_⟩
    · exact (hne (List.prefix_nil.mp hp)).elim
    · exact (hne (List.prefix_nil.mp hp)).elim

/-- Another slot than the value's is in use. -/
theorem exists_child {c : Nibble → NodeTree} {v : Option Value} (ht : (Tree.branch c v).Canonical) :
    ∃ b r, ((Tree.branch c v).lookup (b :: r)).isSome = true := by
  have hchild : ∀ b, used c v (some b) = true →
      ∃ b r, ((Tree.branch c v).lookup (b :: r)).isSome = true := by
    intro b hb
    obtain ⟨r, w, hr⟩ := exists_lookup (ht.1 b) (by simpa [used] using hb)
    exact ⟨b, r, by rw [lookup_branch_cons, hr]; rfl⟩
  obtain ⟨x, y, hxy, hx, hy⟩ := ht.2
  cases x with
  | some b => exact hchild b hx
  | none =>
    cases y with
    | some b => exact hchild b hy
    | none => exact (hxy rfl).elim

theorem separate_branch_cons {db : σ} {c : Nibble → NodeTree} {v : Option Value} {a : Nibble}
    {k : List Nibble} (ht : (Tree.branch c v).Canonical) :
    Separate db (Tree.branch c v).lookup (a :: k) ↔ Separate db (c a).lookup k ∧
      ∀ w, v = some w → ((c a).lookup k).isSome = true →
        (∀ q, ((Tree.branch c v).lookup q).isSome = true → q = [] ∨ q = a :: k) → Harmless db w := by
  constructor
  · intro h
    refine ⟨⟨fun q hq hqk hne => ?_, h.fork, fun q w hq hqk hne hk hall => ?_⟩,
      fun w hw hk hall => ?_⟩
    · obtain ⟨x, hxq, hqx, hx⟩ := h.shorter (a :: q) hq (List.cons_prefix_cons.mpr ⟨rfl, hqk⟩)
        (by simpa using hne)
      obtain ⟨y, rfl⟩ := hqx
      exact ⟨q ++ y, by simpa using hxq, List.prefix_append _ _, hx⟩
    · refine h.value (a :: q) w hq (List.cons_prefix_cons.mpr ⟨rfl, hqk⟩) (by simpa using hne) hk ?_
      rintro x hx ⟨y, rfl⟩
      rcases hall (q ++ y) hx (List.prefix_append _ _) with h | h
      · exact .inl (by rw [List.cons_append, h])
      · exact .inr (by rw [List.cons_append, h])
    · exact h.value [] w hw List.nil_prefix (by simp) hk fun q hq _ => hall q hq
  · rintro ⟨h, hvalue⟩
    refine ⟨fun q hq hqk hne => ?_, h.fork, fun q w hq hqk hne hk hall => ?_⟩
    · cases q with
      | nil =>
        obtain ⟨b, r, hbr⟩ := exists_child ht
        exact ⟨b :: r, by simp, List.nil_prefix, hbr⟩
      | cons b q =>
        obtain ⟨rfl, hqk'⟩ := List.cons_prefix_cons.mp hqk
        obtain ⟨x, hxq, hqx, hx⟩ := h.shorter q hq hqk' (by simpa using hne)
        exact ⟨b :: x, by simpa using hxq, List.cons_prefix_cons.mpr ⟨rfl, hqx⟩, hx⟩
    · cases q with
      | nil => exact hvalue w hq hk fun q hq => hall q hq List.nil_prefix
      | cons b q =>
        obtain ⟨rfl, hqk'⟩ := List.cons_prefix_cons.mp hqk
        refine h.value q w hq hqk' (by simpa using hne) hk fun x hx hqx => ?_
        rcases hall (b :: x) hx (List.cons_prefix_cons.mpr ⟨rfl, hqx⟩) with h | h
        · exact .inl (List.cons.inj h).2
        · exact .inr (List.cons.inj h).2

/-- The removal leaves the value alone in the branch. -/
theorem value_left_iff {c : Nibble → NodeTree} {w : Value} {a : Nibble} {k : List Nibble}
    (ht : (Tree.branch c (some w)).Canonical) :
    (∃ t, (c a).delete k = some t ∧
        unique (slots 16) (used (Function.update c a t) (some w)) = some none) ↔
      ((c a).lookup k).isSome = true ∧
        ∀ q, ((Tree.branch c (some w)).lookup q).isSome = true → q = [] ∨ q = a :: k := by
  constructor
  · rintro ⟨t, hd, hu⟩
    have hunused : ∀ b, (Function.update c a t b).isEmpty = true := by
      intro b
      by_contra hne
      have := (unique_eq_some hu).2.2 (some b) (mem_slots _) (by simpa [used] using hne)
      cases this
    refine ⟨?_, fun q hq => ?_⟩
    · cases hk : (c a).lookup k with
      | some _ => rfl
      | none => rw [delete_eq_none.mpr hk] at hd; cases hd
    · cases q with
      | nil => exact .inl rfl
      | cons b q =>
        right
        have hb := hunused b
        by_cases hba : b = a
        · subst hba
          rw [Function.update_self] at hb
          have hnone := lookup_delete (ht.1 b) hd q
          rw [eq_empty_of_isEmpty hb, lookup_empty] at hnone
          split at hnone
          case isTrue hqk => rw [hqk]
          case isFalse =>
            rw [lookup_branch_cons, ← hnone] at hq
            cases hq
        · rw [Function.update_of_ne hba] at hb
          rw [lookup_branch_cons, eq_empty_of_isEmpty hb] at hq
          cases hq
  · rintro ⟨hk, hall⟩
    obtain ⟨t, hd⟩ : ∃ t, (c a).delete k = some t := by
      cases hd : (c a).delete k with
      | some t => exact ⟨t, rfl⟩
      | none => rw [delete_eq_none.mp hd] at hk; cases hk
    refine ⟨t, hd, unique_of nodup_slots (mem_slots _) rfl fun y _ hy => ?_⟩
    cases y with
    | none => rfl
    | some b =>
      exfalso
      have hne : (Function.update c a t b).isEmpty = false := by simpa [used] using hy
      by_cases hba : b = a
      · subst hba
        rw [Function.update_self] at hne
        obtain ⟨q, u, hq⟩ := exists_lookup (canonical_delete (ht.1 b) hd) hne
        have hdel := lookup_delete (ht.1 b) hd q
        rw [hq] at hdel
        split at hdel
        case isTrue => cases hdel
        case isFalse hqk =>
          rcases hall (b :: q) (by rw [lookup_branch_cons, ← hdel]; rfl) with h | h
          · cases h
          · exact hqk (List.cons.inj h).2
      · rw [Function.update_of_ne hba] at hne
        obtain ⟨q, u, hq⟩ := exists_lookup (ht.1 b) hne
        rcases hall (b :: q) (by rw [lookup_branch_cons, hq]; rfl) with h | h
        · cases h
        · exact hba (List.cons.inj h).1

/-- `Clear`, in terms of the keys. -/
theorem clear_iff_separate {db : σ} {t : NodeTree} (ht : t.Canonical) {k : List Nibble} :
    Clear db t k ↔ Separate db t.lookup k := by
  induction t generalizing k with
  | empty =>
    refine ⟨fun _ => ⟨?_, .inr ?_, ?_⟩, fun _ => trivial⟩
    · intro p hp
      cases hp
    · intro r₁ r₂ h₁
      cases h₁
    · intro p v hp
      cases hp
  | leaf p w => exact separate_leaf.symm
  | ext p t ih =>
    by_cases hp : p <+: k
    · obtain ⟨k, rfl⟩ := hp
      rw [separate_ext, ← ih ht.2.2, Clear, List.drop_left]
      exact ⟨fun h => h (List.prefix_append _ _), fun h _ => h⟩
    · exact ⟨fun _ => separate_ext_apart hp, fun _ h => (hp h).elim⟩
  | branch c v ih =>
    cases k with
    | nil => exact (separate_branch_nil ht).symm
    | cons a k =>
      rw [separate_branch_cons ht, Clear, ih a (ht.1 a)]
      refine and_congr_right fun _ => ?_
      constructor
      · intro h w hv hk hall
        subst hv
        obtain ⟨t, hd, hu⟩ := (value_left_iff ht).mpr ⟨hk, hall⟩
        exact h t w hd rfl hu
      · intro h t w hd hv hu
        subst hv
        obtain ⟨hk, hall⟩ := (value_left_iff ht).mp ⟨t, hd, hu⟩
        exact h w rfl hk hall

end Keys

/-! ### Where `Clear` fails -/

section Unclear
variable {sha3 : Bytes → H256} {σ : Type} [NodeDB σ]

theorem run_isTwoItemNode_long {w : Value} (hw : 32 < w.1.length) (db : σ) :
    (isTwoItemNode (data w.1)).run db = (.error .badCast, db) := by
  rw [isTwoItemNode, run_bind_error (by rw [run_lift, RLP.toHash, if_pos hw])]

variable (sha3) in
/-- A value that is no hash of a stored string, taken for the reference of a node. -/
theorem run_deleteAtAux_value {db : σ} {w : Value}
    (hw : NodeDB.lookup db (H256.alignRight w.1) = []) (f : RLP → List Nibble → TrieM σ (Option RLP))
    (k : List Nibble) : ∃ e, ((deleteAtAux sha3 f (data w.1) k).run db).1 = .error e := by
  have hemp : (data w.1).isEmpty = false := by
    cases hb : w.1 with
    | nil => exact (w.2 hb).elim
    | cons x l => rfl
  have hnode : (nodeAt (H256.alignRight w.1) : TrieM σ RLP).run db = (.error .assertion, db) := by
    have hget : (node (H256.alignRight w.1) : TrieM σ Bytes).run db = (.ok [], db) := by
      show (Except.ok (NodeDB.lookup db _), db) = _
      rw [hw]
    unfold nodeAt
    rw [run_bind_ok hget]
    rfl
  unfold deleteAtAux
  rw [hemp, if_neg (by decide), if_neg (by simp [RLP.isList])]
  by_cases hl : 32 < w.1.length
  · refine ⟨.badCast, ?_⟩
    refine run_fst_of_bind_error ?_ _
    rw [run_bind_error (by rw [run_lift, RLP.toHash, if_pos hl])]
  · refine ⟨.assertion, ?_⟩
    have hcast : (data w.1).toHash = .ok (H256.alignRight w.1) := by rw [RLP.toHash, if_neg hl]
    refine run_fst_of_bind_error ?_ _
    rw [run_bind_ok (by rw [run_lift, hcast]), run_bind_error hnode]

variable [LawfulNodeDB σ]

/-- Every value of the tree is something else than the hash of a stored string. -/
def NoHashes (db : σ) (f : List Nibble → Option Value) : Prop :=
  ∀ p v, f p = some v → NodeDB.lookup db (H256.alignRight v.1) = []

/-- Where `Clear` fails `deleteAt` throws. -/
theorem run_deleteAt_unclear {t : NodeTree} (ht : t.Canonical) {db : σ} (hs : Sound sha3 db)
    (hn : NoCollision sha3 db) (hb : Below sha3 db t) (hv : NoHashes db t.lookup)
    {k : List Nibble} (hc : ¬ Clear db t k) (fuel : ℕ) :
    ∃ e, ((deleteAt sha3 fuel (nodeOf sha3 t) k).run db).1 = .error e := by
  induction t generalizing k fuel with
  | empty => exact (hc trivial).elim
  | leaf p w =>
    cases fuel with
    | zero => exact ⟨_, rfl⟩
    | succ fuel =>
      obtain ⟨hp, hne⟩ : p <+: k ∧ p ≠ k := by
        by_contra hno
        exact hc fun hp => by_contra fun hne => hno ⟨hp, hne⟩
      rw [deleteAt_down fuel (t := .leaf p w) rfl hp fun _ => hne]
      obtain ⟨e, he⟩ := run_deleteAtAux_value sha3 (hv p w (by simp))
        (deleteAt sha3 fuel) (k.drop p.length)
      exact ⟨e, run_fst_of_bind_error he _⟩
  | ext p t ih =>
    cases fuel with
    | zero => exact ⟨_, rfl⟩
    | succ fuel =>
      obtain ⟨hp, hc⟩ : p <+: k ∧ ¬ Clear db t (k.drop p.length) := by
        by_contra hno
        exact hc fun hp => by_contra fun hne => hno ⟨hp, hne⟩
      have hv' : NoHashes db t.lookup := fun q v hq => hv (p ++ q) v (by rwa [lookup_ext_append])
      obtain ⟨e, he⟩ := ih ht.2.2 hb.2 hv' hc fuel
      have haux := run_deleteAtAux (f := deleteAt sha3 fuel) hs hn hb (k.drop p.length)
      rw [isEmpty_of_isBranch ht.2.1, if_neg (by decide)] at haux
      rw [deleteAt_down fuel (t := .ext p t) rfl hp (by simp)]
      refine ⟨e, run_fst_of_bind_error (Eq.trans (congrArg Prod.fst haux) ?_) _⟩
      exact run_fst_of_bind_error he _
  | branch c v ih =>
    cases fuel with
    | zero => exact ⟨_, rfl⟩
    | succ fuel =>
      cases k with
      | nil =>
        cases v with
        | some w => exact (hc rfl).elim
        | none =>
          rw [deleteAt_branch_nil]
          exact ⟨_, rfl⟩
      | cons a k =>
        rw [deleteAt_branch_cons]
        have haux := run_deleteAtAux (f := deleteAt sha3 fuel) hs hn (hb a) k
        by_cases hca : Clear db (c a) k
        · -- the value that is left alone is looked at as a reference
          obtain ⟨t, w, hd, rfl, hu, hw⟩ : ∃ t w, (c a).delete k = some t ∧ v = some w ∧
              unique (slots 16) (used (Function.update c a t) v) = some none ∧ ¬ Harmless db w := by
            by_contra hno
            exact hc ⟨hca, fun t w hd hv hu => by_contra fun hw => hno ⟨t, w, hd, hv, hu, hw⟩⟩
          have hlong : 32 < w.1.length := by
            by_contra hle
            exact hw ⟨by omega, .inl (hv [] w rfl)⟩
          have hemp : t.isEmpty = true := by
            by_contra hne
            have := (unique_eq_some hu).2.2 (some a) (mem_slots _) (by simpa [used] using hne)
            cases this
          obtain ⟨u, hleaf⟩ := eq_leaf_of_delete hd hemp
          rw [eq_empty_of_isEmpty hemp] at hu
          rw [hleaf] at haux
          cases fuel with
          | zero => exact ⟨_, by rw [hleaf]; exact run_fst_of_bind_error (congrArg Prod.fst haux) _⟩
          | succ fuel =>
            have hchild : (deleteAtAux sha3 (deleteAt sha3 (fuel + 1))
                (reference sha3 (nodeOf sha3 (c a))) k).run db =
                (.ok (some (reference sha3 (nodeOf sha3 .empty))),
                  streamed sha3 (killed sha3 db (nodeOf sha3 (.leaf k u))) RLPNull) := by
              rw [hleaf, haux, deleteAt_leaf, if_neg (by simp [Tree.isEmpty]), Throwing.bind_assoc,
                run_bind_ok (run_killNode sha3 _ _), run_bind_ok (run_pure _ _)]
              dsimp only
              rw [run_bind_ok (run_streamNode sha3 _ _), run_pure]
              rfl
            rw [run_bind_ok hchild]
            dsimp only
            rw [branchItems_set, ← nodeOf_branch, run_bind_ok (run_killNode sha3 _ _),
              uniqueInUse_none, hu]
            refine ⟨.badCast, run_fst_of_bind_error ?_ _⟩
            unfold mergeUsed
            have hitem : (nodeOf sha3 (.branch (Function.update c a .empty) (some w))).item 16 =
                data w.1 := branchItems_value sha3 _ (some w)
            rw [slotIndex, hitem, run_bind_error (run_isTwoItemNode_long hlong _)]
        · have hne : (c a).isEmpty = false := by
            by_contra he
            have hemp := eq_empty_of_isEmpty (Bool.not_eq_false _ ▸ he : (c a).isEmpty = true)
            rw [hemp] at hca
            exact hca trivial
          have hv' : NoHashes db (c a).lookup := fun q v hq => hv (a :: q) v hq
          obtain ⟨e, he⟩ := ih a (ht.1 a) (hb a).2 hv' hca fuel
          rw [hne, if_neg (by decide)] at haux
          refine ⟨e, run_fst_of_bind_error (Eq.trans (congrArg Prod.fst haux) ?_) _⟩
          exact run_fst_of_bind_error he _

end Unclear

/-! ### Tries of any keys -/

section Removal
variable {sha3 : Bytes → H256} {σ : Type} [NodeDB σ]

/-- What `remove` of `k` needs. A held key that `k` extends has another extension. When `k` is not
held, the held keys that extend it all go on with the same nibble. And when the removal leaves a
held key that `k` extends without extensions, its value is not taken for a two-item node. -/
structure Removable (db : σ) (m : BytesMap) (k : Bytes) : Prop where
  shorter : ∀ p, (m.find p).isSome = true → p <+: k → p ≠ k →
    ∃ q, q ≠ p ∧ p <+: q ∧ (m.find q).isSome = true
  fork : (m.find k).isSome = true ∨ ∀ r₁ r₂, (m.find (k ++ r₁)).isSome = true →
    (m.find (k ++ r₂)).isSome = true → (asNibbles r₁).head? = (asNibbles r₂).head?
  value : ∀ p (v : Value), m.find p = some v.1 → p <+: k → p ≠ k → (m.find k).isSome = true →
    (∀ q, (m.find q).isSome = true → p <+: q → q = p ∨ q = k) → Harmless db v

theorem Realizes.isSome {t : NodeTree} {m : BytesMap} (h : Realizes t m) (p : Bytes) :
    (t.lookup (asNibbles p)).isSome = (m.find p).isSome := by
  have hp := h (asNibbles p)
  cases hl : t.lookup (asNibbles p) with
  | some v =>
    obtain ⟨b, hb, hv⟩ := (hp v.1).mp (by rw [hl]; rfl)
    rw [asNibbles_injective hb, hv]
    rfl
  | none =>
    cases hm : m.find p with
    | none => rfl
    | some v =>
      have := (hp v).mpr ⟨p, rfl, hm⟩
      rw [hl] at this
      cases this

theorem Realizes.key {t : NodeTree} {m : BytesMap} (h : Realizes t m) {x : List Nibble}
    (hx : (t.lookup x).isSome = true) : ∃ p, x = asNibbles p := by
  obtain ⟨v, hv⟩ := Option.isSome_iff_exists.mp hx
  obtain ⟨p, hp, _⟩ := (h x v.1).mp (by rw [hv]; rfl)
  exact ⟨p, hp⟩

theorem Realizes.find {t : NodeTree} {m : BytesMap} (h : Realizes t m) {p : Bytes} {v : Value} :
    t.lookup (asNibbles p) = some v ↔ m.find p = some v.1 := by
  have hp := h (asNibbles p) v.1
  constructor
  · intro hv
    obtain ⟨b, hb, hm⟩ := hp.mp (by rw [hv]; rfl)
    rwa [asNibbles_injective hb]
  · intro hm
    obtain ⟨w, hw, hwv⟩ := Option.map_eq_some_iff.mp (hp.mpr ⟨p, rfl, hm⟩)
    rw [hw, Subtype.ext hwv]

theorem removable_iff_separate {db : σ} {t : NodeTree} {m : BytesMap} (h : Realizes t m)
    {k : Bytes} : Separate db t.lookup (asNibbles k) ↔ Removable db m k := by
  have hne : ∀ {p q : Bytes}, asNibbles p ≠ asNibbles q ↔ p ≠ q :=
    asNibbles_injective.ne_iff
  constructor
  · intro hs
    refine ⟨fun p hp hpk hpne => ?_, ?_, fun p v hp hpk hpne hk hall => ?_⟩
    · obtain ⟨x, hxp, hpx, hx⟩ := hs.shorter (asNibbles p) (by rwa [h.isSome]) (by simpa using hpk)
        (hne.mpr hpne)
      obtain ⟨q, rfl⟩ := h.key hx
      exact ⟨q, hne.mp hxp, by simpa using hpx, by rwa [← h.isSome]⟩
    · rcases hs.fork with hk | hall
      · exact .inl (by rwa [← h.isSome])
      · refine .inr fun r₁ r₂ h₁ h₂ => hall (asNibbles r₁) (asNibbles r₂) ?_ ?_
        · rwa [← asNibbles_append, h.isSome]
        · rwa [← asNibbles_append, h.isSome]
    · refine hs.value (asNibbles p) v (h.find.mpr hp) (by simpa using hpk) (hne.mpr hpne)
        (by rwa [h.isSome]) fun x hx hpx => ?_
      obtain ⟨q, rfl⟩ := h.key hx
      rcases hall q (by rwa [← h.isSome]) (by simpa using hpx) with rfl | rfl
      · exact .inl rfl
      · exact .inr rfl
  · intro hr
    refine ⟨fun x hx hxk hxne => ?_, ?_, fun x v hx hxk hxne hk hall => ?_⟩
    · obtain ⟨p, rfl⟩ := h.key hx
      obtain ⟨q, hqp, hpq, hq⟩ := hr.shorter p (by rwa [← h.isSome]) (by simpa using hxk) (hne.mp hxne)
      exact ⟨asNibbles q, hne.mpr hqp, by simpa using hpq, by rwa [h.isSome]⟩
    · rcases hr.fork with hk | hall
      · exact .inl (by rwa [h.isSome])
      · refine .inr fun x₁ x₂ h₁ h₂ => ?_
        have hext : ∀ {x}, (t.lookup (asNibbles k ++ x)).isSome = true →
            ∃ r, x = asNibbles r ∧ (m.find (k ++ r)).isSome = true := by
          intro x hx
          obtain ⟨q, hq⟩ := h.key hx
          obtain ⟨r, rfl⟩ : k <+: q := asNibbles_prefix.mp (hq ▸ List.prefix_append _ _)
          rw [asNibbles_append] at hq
          refine ⟨r, List.append_cancel_left hq, ?_⟩
          rw [← h.isSome, asNibbles_append, ← hq]
          exact hx
        obtain ⟨r₁, rfl, hr₁⟩ := hext h₁
        obtain ⟨r₂, rfl, hr₂⟩ := hext h₂
        exact hall r₁ r₂ hr₁ hr₂
    · obtain ⟨p, rfl⟩ := h.key (by rw [hx]; rfl)
      refine hr.value p v (h.find.mp hx) (by simpa using hxk) (hne.mp hxne) (by rwa [← h.isSome])
        fun q hq hpq => ?_
      rcases hall (asNibbles q) (by rwa [h.isSome]) (by simpa using hpq) with h | h
      · exact .inl (asNibbles_injective h)
      · exact .inr (asNibbles_injective h)

variable [LawfulNodeDB σ]

/-- Insertions of any keys. -/
theorem run_inserts {fuel : ℕ} {ins : List (Bytes × Value)}
    (hf : ∀ e ∈ ins, 2 * e.1.length + 5 ≤ fuel) {db : σ} {root : H256} {t : NodeTree}
    (h : Holds sha3 db root t)
    (hn : NoCollision sha3
      ((runOps sha3 fuel (ins.map fun e => .insert e.1 e.2) root).run db).2) :
    ∃ root' db', (runOps sha3 fuel (ins.map fun e => .insert e.1 e.2) root).run db =
        (.ok root', db') ∧
      Holds sha3 db' root' ((ins.map fun e => TrieOp.insert e.1 e.2).foldl TrieOp.onTree t) := by
  induction ins generalizing db root t with
  | nil => exact ⟨root, db, rfl, h⟩
  | cons e ins ih =>
    rw [List.map_cons, runOps] at hn ⊢
    obtain ⟨root₁, db₁, hrun₁, hholds₁, _⟩ := run_op h (.insert e.1 e.2)
      (fun key hkey => by cases hkey) (hf e List.mem_cons_self)
      (hn.of_bind fun r => grows_runOps sha3 fuel _ r)
    rw [run_bind_ok hrun₁] at hn ⊢
    exact ih (fun o ho => hf o (List.mem_cons_of_mem _ ho)) hholds₁ hn

/-- The trie with the keys `ins`, in the order they were inserted. -/
def build (sha3 : Bytes → H256) (fuel : ℕ) (ins : List (Bytes × Value)) :
    TrieM StateCacheDB H256 := runFromInit sha3 fuel (ins.map fun e => .insert e.1 e.2)

def insContents (ins : List (Bytes × Value)) : BytesMap :=
  contents (ins.map fun e => .insert e.1 e.2)

/-- `remove` returns, with the root that `hash256` gives without the key, and `at` of every other
key answers as before. -/
def RemovesRight (sha3 : Bytes → H256) (fuel : ℕ) (db : StateCacheDB) (root : H256)
    (m : BytesMap) (k : Bytes) : Prop :=
  ∃ root' db', (remove sha3 fuel root k).run db = (.ok root', db') ∧
    root' = hash256 sha3 (m.erase k) ∧
    ∀ k' : Bytes, k' ≠ k → ∀ f, 2 * k'.length + 1 ≤ f →
      (lookupKey f root' k').run db' = (.ok ((m.find k').getD []), db')

variable (sha3) in
theorem run_build {fuel : ℕ} {ins : List (Bytes × Value)}
    (hf : ∀ e ∈ ins, 2 * e.1.length + 5 ≤ fuel)
    (hn : NoCollision sha3 ((build sha3 fuel ins).run StateCacheDB.empty).2) :
    ∃ root db t, (build sha3 fuel ins).run StateCacheDB.empty = (.ok root, db) ∧
      Holds sha3 db root t ∧ Realizes t (insContents ins) := by
  unfold build runFromInit at hn ⊢
  obtain ⟨db₀, hrun₀, hholds₀, _⟩ := run_init sound_empty (hn.of_bind fun r => grows_runOps sha3 fuel _ r)
  rw [run_bind_ok hrun₀] at hn ⊢
  obtain ⟨root, db, hrun, hholds⟩ := run_inserts hf hholds₀ hn
  exact ⟨root, db, _, hrun, hholds, (realizes_treeOf _).2⟩

/-- Where the walk is clear, `remove` is right. -/
theorem removesRight_of_clear {fuel : ℕ} {db : StateCacheDB} {root : H256} {t : NodeTree}
    (h : Holds sha3 db root t) {m : BytesMap} (hm : Realizes t m) {k : Bytes}
    (hc : Clear db t (asNibbles k)) (hk : 2 * k.length + 5 ≤ fuel)
    (hn : NoCollision sha3 ((remove sha3 fuel root k).run db).2) :
    RemovesRight sha3 fuel db root m k := by
  obtain ⟨root', db', hrun, hholds, _⟩ := run_op h (.remove k)
    (fun key hkey => by cases hkey; exact hc) hk hn
  have hrun' : (remove sha3 fuel root k).run db = (.ok root', db') := hrun
  rw [hrun'] at hn
  have hreal := realizes_onTree h.canonical hm (.remove k)
  refine ⟨root', db', hrun', ?_, fun k' hne f hf => ?_⟩
  · rw [hholds.hash, ← hash256_eq sha3 hholds.canonical hreal]
    rfl
  · rw [run_lookupKey hholds hn hf, valueBytes_lookup hreal, TrieOp.onMap, SortedMap.find_erase,
      if_neg hne]

/-- Where it is not, `remove` throws. -/
theorem remove_throws_of_unclear (fuel : ℕ) {db : σ} {root : H256} {t : NodeTree}
    (h : Holds sha3 db root t) (hv : NoHashes db t.lookup) (hn : NoCollision sha3 db) {k : Bytes}
    (hc : ¬ Clear db t (asNibbles k)) :
    ∃ e, ((remove sha3 fuel root k).run db).1 = .error e := by
  obtain ⟨e, he⟩ := run_deleteAt_unclear h.canonical h.sound hn h.below hv hc fuel
  unfold remove
  rw [run_bind_ok h.node, run_bind_ok (by rw [run_lift, h.ofString hn])]
  exact ⟨e, run_fst_of_bind_error he _⟩

/-- A short value above the removed key: it stays, and its branch goes. -/
def sampleKeys : List (Bytes × Value) :=
  [([0x12], shortValue), ([0x12, 0x34], ⟨[0x62], by decide⟩)]

/-- One key with a value of 33 bytes. -/
def longValueKeys : List (Bytes × Value) := [([0x12], ⟨List.replicate 33 0x62, by decide⟩)]

end Removal
end Aleth.Devcore
