import Aleth.Ethereum.CanonicalIndex

/-! What the documentation of `treeRoute` says of its result.

The route goes up to the last common ancestor and down again, and the index says
where that ancestor stands in it. The code takes the index from the size of the
upward part, which holds the ancestor already when `_pre` is set, and corrects it
only when blocks follow. -/
namespace Aleth.Ethereum.BlockChain
open Devcore Throwing Ancestry

variable {bc : BlockChain} {h to_ : H256}

/-! ### The documentation -/

/-- The last block that both blocks descend from, or are. -/
def commonOf (bc : BlockChain) (h to_ : H256) : H256 := bc.ancestorOf h (bc.forkOf h to_)

/-- The blocks running from `_from` until the common ancestor, if asked for. -/
def upward (bc : BlockChain) (pre : Bool) (h to_ : H256) : List H256 :=
  if pre then bc.pathOf h (bc.forkOf h to_) else []

/-- The blocks running from the common ancestor until `_to`, if asked for. -/
def downward (bc : BlockChain) (post : Bool) (h to_ : H256) : List H256 :=
  if post then (bc.pathOf to_ (bc.forkOf h to_)).reverse else []

/-- What `treeRoute` is documented to return. -/
structure Documented (bc : BlockChain) (h to_ : H256) (common pre post : Bool)
    (route : List H256) (ancestor : H256) (index : ℕ) : Prop where
  route_eq : route = bc.upward pre h to_ ++ (if common then [bc.commonOf h to_] else []) ++
    bc.downward post h to_
  ancestor_eq : ancestor = bc.commonOf h to_
  /-- The ancestor is included. -/
  found : common = true → route[index]? = some (bc.commonOf h to_)
  /-- It is not, but would be inserted there. -/
  inserted : common = false → route.insertIdx index (bc.commonOf h to_) =
    bc.upward pre h to_ ++ bc.commonOf h to_ :: bc.downward post h to_

theorem Linked.commonOf_eq (hl : bc.Linked) (hs : bc.Stored h) (ht : bc.Stored to_) :
    bc.commonOf h to_ = bc.ancestorOf to_ (bc.forkOf h to_) := hl.rooted.ancestor_fork hs ht

/-- Nothing leads down to a block that the other one descends from, or is. -/
theorem pathOf_eq_nil_iff (hl : bc.Linked) (hs : bc.Stored h) (ht : bc.Stored to_) :
    bc.pathOf to_ (bc.forkOf h to_) = [] ↔ to_ = bc.commonOf h to_ := by
  have hle : bc.forkOf h to_ ≤ bc.heightOf to_ := fork_le_right h to_
  rw [hl.commonOf_eq hs ht]
  constructor
  · intro hnil
    have hlen : bc.heightOf to_ - bc.forkOf h to_ = 0 := by
      have hlen := congrArg List.length hnil
      rwa [pathOf, path, List.length_map, List.length_range] at hlen
    have hk : bc.forkOf h to_ = bc.heightOf to_ := by omega
    rw [hk, ancestorOf, ancestor_self]
  · intro he
    have hheight : bc.heightOf (bc.ancestorOf to_ (bc.forkOf h to_)) = bc.forkOf h to_ :=
      hl.rooted.height_ancestor ht hle
    rw [← he] at hheight
    rw [← hheight]
    exact path_self to_

theorem downward_ne_nil_iff (hl : bc.Linked) (hs : bc.Stored h) (ht : bc.Stored to_) {post : Bool} :
    bc.downward post h to_ ≠ [] ↔ post = true ∧ to_ ≠ bc.commonOf h to_ := by
  unfold downward
  cases post with
  | false => exact iff_of_false (fun hn => hn rfl) fun hc => absurd hc.1 Bool.false_ne_true
  | true =>
    rw [if_pos rfl, ne_eq, List.reverse_eq_nil_iff, pathOf_eq_nil_iff hl hs ht]
    exact ⟨fun hn => ⟨rfl, hn⟩, fun hn => hn.2⟩

theorem insertIdx_between {α : Type} (xs ys : List α) (a : α) :
    (xs ++ ys).insertIdx xs.length a = xs ++ a :: ys := by
  induction xs with
  | nil => rfl
  | cons x xs ih => exact congrArg (x :: ·) ih

theorem getElem?_between {α : Type} (xs ys : List α) (a : α) :
    (xs ++ [a] ++ ys)[xs.length]? = some a := by
  rw [List.append_assoc, List.getElem?_append_right (le_refl _), Nat.sub_self]
  rfl

/-! ### The code -/

/-- What the code returns. -/
theorem run_treeRoute (hl : bc.Linked) (hs : bc.Stored h) (ht : bc.Stored to_)
    (common pre post : Bool) :
    let a := bc.commonOf h to_
    let up := bc.upward pre h to_ ++ if pre && common then [a] else []
    let down := (if post && (!pre && common) then [a] else []) ++ bc.downward post h to_
    ((treeRoute h to_ common pre post).run bc).1 = .ok (up ++ down, a,
      up.length - if common && !up.isEmpty && !down.isEmpty then 1 else 0) := by
  intro a up down
  have hroute := (asks_treeRoute hl common pre post hs ht bc rfl).1
  rw [hroute]
  have hup : (if pre then bc.pathOf h (bc.forkOf h to_) ++
      if common then [bc.ancestorOf h (bc.forkOf h to_)] else [] else []) = up := by
    show _ = bc.upward pre h to_ ++ if pre && common then [a] else []
    unfold upward
    cases pre with
    | false => rfl
    | true => rfl
  have hdown : (if post then bc.pathOf to_ (bc.forkOf h to_) ++
      if !pre && common then [bc.ancestorOf h (bc.forkOf h to_)] else [] else []).reverse = down := by
    show _ = (if post && (!pre && common) then [a] else []) ++ bc.downward post h to_
    unfold downward
    cases post with
    | false => rfl
    | true =>
      simp only [if_true, Bool.true_and, List.reverse_append]
      cases (!pre && common) <;> rfl
  have hempty : ∀ l : List H256, l.isEmpty = l.reverse.isEmpty := fun l => by
    cases l <;> simp
  rw [hup, hempty (if post then _ else _), hdown]
  rfl

/-- What is documented, of the route that the code returns. -/
theorem documented_run_iff (hl : bc.Linked) (hs : bc.Stored h) (ht : bc.Stored to_)
    (common pre post : Bool) :
    let a := bc.commonOf h to_
    let up := bc.upward pre h to_ ++ if pre && common then [a] else []
    let down := (if post && (!pre && common) then [a] else []) ++ bc.downward post h to_
    (∃ route ancestor index,
      ((treeRoute h to_ common pre post).run bc).1 = .ok (route, ancestor, index) ∧
        bc.Documented h to_ common pre post route ancestor index) ↔
      bc.Documented h to_ common pre post (up ++ down) a
        (up.length - if common && !up.isEmpty && !down.isEmpty then 1 else 0) := by
  intro a up down
  have hrun := run_treeRoute hl hs ht common pre post
  constructor
  · rintro ⟨route, ancestor, index, hr, hd⟩
    rw [hrun] at hr
    cases hr
    exact hd
  · exact fun hd => ⟨_, _, _, hrun, hd⟩

/-- An ancestor that was noted is last in the upward part, and the index is behind it unless blocks
follow. -/
theorem getElem?_noted {α : Type} (xs ys : List α) (a : α) :
    (xs ++ [a] ++ ys)[(xs ++ [a]).length - if !ys.isEmpty then 1 else 0]? = some a ↔ ys ≠ [] := by
  rw [List.length_append, List.length_singleton]
  cases ys with
  | nil =>
    have hnone : (xs ++ [a] ++ [])[xs.length + 1]? = none := by
      rw [List.getElem?_eq_none_iff, List.append_nil, List.length_append]
      exact le_refl _
    refine ⟨fun h => ?_, fun h => absurd rfl h⟩
    rw [show xs.length + 1 - (if !([] : List α).isEmpty then 1 else 0) = xs.length + 1 from rfl,
      hnone] at h
    cases h
  | cons y ys => exact ⟨fun _ => List.cons_ne_nil y ys, fun _ => getElem?_between xs (y :: ys) a⟩

/-- A block above the genesis block. -/
def oneBlock : BlockChain :=
  ((importBlock (sampleBlock 0xa1 0x01 1 1) true true).run (fresh sampleGenesis false)).2

end Aleth.Ethereum.BlockChain
