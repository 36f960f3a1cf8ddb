import Aleth.Devcore.TrieNodes

/-! Every computation on tries extends the store: no operation of `GenericTrieDB`
makes a string that was there unavailable, whatever it does or throws. -/
namespace Aleth.Devcore
open Patricia Throwing GenericTrieDB
open RLP (data list)

section Grows
variable {sha3 : Bytes → H256} {σ : Type} [NodeDB σ] [LawfulNodeDB σ]

theorem grows_bind {α β : Type} {x : TrieM σ α} {f : α → TrieM σ β} (hx : Grows (Extends sha3) x)
    (hf : ∀ a, Grows (Extends sha3) (f a)) : Grows (Extends sha3) (x >>= f) :=
  Grows.bind (fun hab hbc => hab.trans hbc) hx hf

theorem grows_pure {α : Type} (a : α) : Grows (Extends sha3) (pure a : TrieM σ α) :=
  Grows.pure Extends.refl a

theorem grows_throw {α : Type} (e : TrieError) : Grows (Extends sha3) (throw e : TrieM σ α) :=
  Grows.throw Extends.refl e

theorem grows_lift {α : Type} (x : Except TrieError α) :
    Grows (Extends sha3) (lift x : TrieM σ α) :=
  Grows.lift Extends.refl x

theorem grows_node (h : H256) : Grows (Extends sha3) (node h : TrieM σ Bytes) :=
  grows_bind (Grows.get Extends.refl) fun _ => grows_pure _

theorem grows_nodeAt (h : H256) : Grows (Extends sha3) (nodeAt h : TrieM σ RLP) := by
  refine grows_bind (grows_node h) fun s => grows_bind (grows_lift _) fun r => ?_
  split
  · exact grows_pure _
  · exact grows_throw _

theorem grows_forceKillNode (h : H256) : Grows (Extends sha3) (forceKillNode h : TrieM σ Unit) :=
  fun db => Extends.kill db h

theorem grows_forceInsertNode (r : RLP) :
    Grows (Extends sha3) (forceInsertNode sha3 r.encode : TrieM σ H256) :=
  grows_bind (fun db => Extends.insert db (encode_ne_nil r)) fun _ => grows_pure _

theorem grows_killNodeAt (r : RLP) (h : H256) :
    Grows (Extends sha3) (killNodeAt r h : TrieM σ Unit) := by
  unfold killNodeAt
  split
  · exact grows_forceKillNode h
  · exact grows_pure _

theorem grows_killNode (r : RLP) : Grows (Extends sha3) (killNode sha3 r : TrieM σ Unit) :=
  grows_killNodeAt r _

theorem grows_streamNode (r : RLP) : Grows (Extends sha3) (streamNode sha3 r : TrieM σ RLP) := by
  unfold streamNode
  split
  · exact grows_pure _
  · exact grows_bind (grows_forceInsertNode r) fun _ => grows_pure _

theorem grows_place (r : RLP) (k : List Nibble) (s : Bytes) :
    Grows (Extends sha3) (place sha3 r k s : TrieM σ RLP) := by
  unfold place
  refine grows_bind (grows_killNode r) fun _ => ?_
  split
  · exact grows_pure _
  · split
    · exact grows_pure _
    · split
      · exact grows_pure _
      · exact grows_throw _
    · exact grows_throw _

theorem grows_cleve (r : RLP) (s : Nat) : Grows (Extends sha3) (cleve sha3 r s : TrieM σ RLP) :=
  grows_bind (grows_killNode r) fun _ => grows_bind (grows_streamNode _) fun _ => grows_pure _

theorem grows_branch (r : RLP) : Grows (Extends sha3) (branch sha3 r : TrieM σ RLP) := by
  refine grows_bind (grows_killNode r) fun _ => ?_
  split
  · exact grows_pure _
  · refine grows_bind ?_ fun _ => grows_pure _
    split
    · exact grows_streamNode _
    · exact grows_pure _

theorem grows_mergeAtAux {f : RLP → H256 → List Nibble → Bytes → Bool → TrieM σ RLP}
    (hf : ∀ r h k v b, Grows (Extends sha3) (f r h k v b)) (r : RLP) (k : List Nibble) (v : Bytes) :
    Grows (Extends sha3) (mergeAtAux sha3 f r k v) := by
  unfold mergeAtAux
  split
  · exact grows_bind (grows_lift _) fun _ => grows_bind (grows_nodeAt _) fun _ =>
      grows_bind (hf _ _ _ _ _) fun _ => grows_streamNode _
  · exact grows_bind (hf _ _ _ _ _) fun _ => grows_streamNode _

theorem grows_killUnless (inLine : Bool) (r : RLP) (h : H256) :
    Grows (Extends sha3) (killUnless inLine r h : TrieM σ Unit) := by
  unfold killUnless
  split
  · exact grows_pure _
  · exact grows_killNodeAt r h

theorem grows_mergeAt (fuel : Nat) (r : RLP) (h : H256) (k : List Nibble) (v : Bytes) (b : Bool) :
    Grows (Extends sha3) (mergeAt sha3 fuel r h k v b : TrieM σ RLP) := by
  induction fuel generalizing r h k v b with
  | zero => exact grows_throw _
  | succ fuel ih =>
    unfold mergeAt
    split
    · exact grows_place r k v
    · split
      · dsimp only
        split
        · exact grows_place r k v
        · split
          · exact grows_bind (grows_killUnless _ _ _) fun _ =>
              grows_bind (grows_mergeAtAux ih _ _ _) fun _ => grows_pure _
          · split
            · exact grows_bind (grows_cleve r _) fun _ => ih _ _ _ _ _
            · exact grows_bind (grows_branch r) fun _ => ih _ _ _ _ _
      · split
        · split
          · exact grows_place _ _ _
          · exact grows_throw _
        · split
          · exact grows_bind (grows_killUnless _ _ _) fun _ =>
              grows_bind (grows_mergeAtAux ih _ _ _) fun _ => grows_pure _
          · exact grows_throw _
        · exact grows_throw _

theorem grows_isTwoItemNode (n : RLP) : Grows (Extends sha3) (isTwoItemNode n : TrieM σ Bool) := by
  unfold isTwoItemNode
  split
  · refine grows_bind (grows_lift _) fun _ => grows_bind (grows_node _) fun _ =>
      grows_bind (grows_lift _) fun _ => ?_
    split <;> exact grows_pure _
  · exact grows_pure _

theorem grows_graft (r : RLP) : Grows (Extends sha3) (graft r : TrieM σ RLP) := by
  unfold graft
  refine grows_bind ?_ fun n => ?_
  · split
    · exact grows_pure _
    · exact grows_bind (grows_lift _) fun _ => grows_bind (grows_nodeAt _) fun _ =>
        grows_bind (grows_forceKillNode _) fun _ => grows_pure _
  · split
    · exact grows_pure _
    · exact grows_throw _

theorem grows_mergeUsed (r : RLP) (u : Nat) : Grows (Extends sha3) (mergeUsed r u : TrieM σ RLP) := by
  unfold mergeUsed
  refine grows_bind (grows_isTwoItemNode _) fun b => ?_
  split
  · exact grows_graft _
  · exact grows_pure _

theorem grows_deleteAtAux {f : RLP → List Nibble → TrieM σ (Option RLP)}
    (hf : ∀ r k, Grows (Extends sha3) (f r k)) (r : RLP) (k : List Nibble) :
    Grows (Extends sha3) (deleteAtAux sha3 f r k) := by
  refine grows_bind ?_ fun b => ?_
  · split
    · exact grows_pure _
    · split
      · exact hf _ _
      · exact grows_bind (grows_lift _) fun _ => grows_bind (grows_nodeAt _) fun _ => hf _ _
  · split
    · exact grows_pure _
    · exact grows_bind (grows_streamNode _) fun _ => grows_pure _

/-- What `deleteAt` does with a two-item node whose child has changed. -/
theorem grows_regraft (r c : RLP) : Grows (Extends sha3) (do
    killNode sha3 r
    let r' := list [r.item 0, c]
    if ← isTwoItemNode c then
      let g ← graft r'
      return some g
    else return some r' : TrieM σ (Option RLP)) := by
  refine grows_bind (grows_killNode r) fun _ => grows_bind (grows_isTwoItemNode _) fun _ => ?_
  split
  · exact grows_bind (grows_graft _) fun _ => grows_pure _
  · exact grows_pure _

theorem grows_rejoin (r : RLP) : Grows (Extends sha3) (match uniqueInUse r none with
    | none => return some r
    | some used => do
      let m ← mergeUsed r used
      return some m : TrieM σ (Option RLP)) := by
  split
  · exact grows_pure _
  · exact grows_bind (grows_mergeUsed _ _) fun _ => grows_pure _

/-- What `deleteAt` does with a branch whose child has changed. -/
theorem grows_remerge (r r' : RLP) : Grows (Extends sha3) (do
    killNode sha3 r
    match uniqueInUse r' none with
    | none => return some r'
    | some used => do
      let m ← mergeUsed r' used
      return some m : TrieM σ (Option RLP)) :=
  grows_bind (grows_killNode r) fun _ => grows_rejoin r'

theorem grows_deleteAt (fuel : Nat) (r : RLP) (k : List Nibble) :
    Grows (Extends sha3) (deleteAt sha3 fuel r k : TrieM σ (Option RLP)) := by
  induction fuel generalizing r k with
  | zero => exact grows_throw _
  | succ fuel ih =>
    unfold deleteAt
    split
    · exact grows_pure _
    · split
      · dsimp only
        split
        · exact grows_bind (grows_killNode r) fun _ => grows_pure _
        · split
          · refine grows_bind (grows_deleteAtAux ih _ _) fun b => ?_
            split
            · exact grows_pure _
            · exact grows_regraft _ _
          · exact grows_pure _
      · split
        · split
          · split
            · refine grows_bind (grows_killNode _) fun _ => ?_
              split
              · exact grows_bind (grows_mergeUsed _ _) fun _ => grows_pure _
              · exact grows_pure _
            · split
              · exact grows_throw _
              · refine grows_bind (grows_deleteAtAux ih _ _) fun b => ?_
                split
                · exact grows_pure _
                · exact grows_remerge _ _
          · exact grows_throw _
        · exact grows_throw _

end Grows
end Aleth.Devcore
