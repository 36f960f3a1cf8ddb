import Aleth.Devcore.TrieGrows
import Aleth.Structure.Counting

/-! What a store holds of a tree, and how often a tree refers to each hash.

`Stored` says that every node of a tree can be fetched from the store. `refsAt`
counts the references by hash in a tree unfolded from its root. `Replaced` is
what a computation leaves that has turned one tree into another: the nodes
below the new root are in the store, and the references that the old tree held
have been exchanged for those of the new one. -/
namespace Aleth.Devcore
open Patricia Throwing GenericTrieDB Counting
open RLP (data list)

section Stored
variable (sha3 : Bytes → H256) {σ : Type} [NodeDB σ]

def Held (db : σ) (r : RLP) : Prop :=
  32 ≤ r.encode.length → NodeDB.lookup db (sha3 r.encode) = r.encode

/-- The nodes strictly below the root are in the store. -/
def Below (db : σ) : NodeTree → Prop
  | .ext _ t => Held sha3 db (nodeOf sha3 t) ∧ Below db t
  | .branch c _ => ∀ a, Held sha3 db (nodeOf sha3 (c a)) ∧ Below db (c a)
  | _ => True

def Stored (db : σ) (t : NodeTree) : Prop := Held sha3 db (nodeOf sha3 t) ∧ Below sha3 db t

/-- One reference to a node that is stored by its hash. -/
def hit (r : RLP) : H256 → ℕ := fun h => if 32 ≤ r.encode.length ∧ h = sha3 r.encode then 1 else 0

/-- The references strictly below the root. -/
def refsBelow : NodeTree → H256 → ℕ
  | .ext _ t => hit sha3 (nodeOf sha3 t) + refsBelow t
  | .branch c _ => ∑ a, (hit sha3 (nodeOf sha3 (c a)) + refsBelow (c a))
  | _ => 0

def refsAt (t : NodeTree) : H256 → ℕ := hit sha3 (nodeOf sha3 t) + refsBelow sha3 t

theorem hit_of_short {r : RLP} (h : r.encode.length < 32) : hit sha3 r = 0 := by
  funext x
  have : ¬ 32 ≤ r.encode.length := by omega
  simp [hit, this]

@[simp] theorem hit_null : hit sha3 RLPNull = 0 :=
  hit_of_short sha3 (by rw [RLPNull_encode_length]; decide)

@[simp] theorem refsAt_empty : refsAt sha3 .empty = 0 := by
  simp [refsAt, nodeOf, refsBelow]

theorem refsBelow_branch (c : Nibble → NodeTree) (v : Option Value) :
    refsBelow sha3 (.branch c v) = ∑ a, refsAt sha3 (c a) := rfl

/-- The references of a branch, with those of one child apart. -/
theorem refsBelow_branch_update (c : Nibble → NodeTree) (w : Option Value) (a : Nibble)
    (t : NodeTree) : refsBelow sha3 (.branch (Function.update c a t) w) =
      refsAt sha3 t + ∑ b ∈ Finset.univ.erase a, refsAt sha3 (c b) := by
  rw [refsBelow_branch, ← Finset.add_sum_erase _ _ (Finset.mem_univ a), Function.update_self]
  congr 1
  refine Finset.sum_congr rfl fun b hb => ?_
  rw [Function.update_of_ne (Finset.ne_of_mem_erase hb)]

theorem refsBelow_only (a : Nibble) (v : Option Value) (t : NodeTree) :
    refsBelow sha3 (.branch (Tree.only a t) v) = refsAt sha3 t := by
  unfold Tree.only
  rw [refsBelow_branch_update]
  simp

theorem held_null (db : σ) : Held sha3 db RLPNull := by
  intro h
  rw [RLPNull_encode_length] at h
  omega

theorem stored_empty (db : σ) : Stored sha3 db .empty := ⟨held_null sha3 db, trivial⟩

theorem stored_leaf_of_held {db : σ} {p : List Nibble} {v : Value}
    (h : Held sha3 db (nodeOf sha3 (.leaf p v))) : Stored sha3 db (.leaf p v) := ⟨h, trivial⟩

theorem below_update {db : σ} {c : Nibble → NodeTree} {a : Nibble} {t : NodeTree}
    (w : Option Value) (hc : ∀ b, b ≠ a → Stored sha3 db (c b)) (ht : Stored sha3 db t) :
    Below sha3 db (.branch (Function.update c a t) w) := by
  intro b
  by_cases hb : b = a
  · subst hb; rw [Function.update_self]; exact ht
  · rw [Function.update_of_ne hb]; exact hc b hb

theorem below_only {db : σ} {a : Nibble} {t : NodeTree} (w : Option Value)
    (ht : Stored sha3 db t) : Below sha3 db (.branch (Tree.only a t) w) :=
  below_update sha3 w (fun _ _ => stored_empty sha3 db) ht

variable [LawfulNodeDB σ] {sha3}

/-- What has been stored stays so. -/
theorem Held.mono {db db' : σ} {r : RLP} (h : Held sha3 db r) (he : Extends sha3 db db')
    (hs : Sound sha3 db) (hn : NoCollision sha3 db') : Held sha3 db' r := by
  intro hl
  have hne : NodeDB.lookup db (sha3 r.encode) ≠ [] := by rw [h hl]; exact encode_ne_nil r
  rw [he.kept hs hn _ hne, h hl]

theorem Below.mono {db db' : σ} {t : NodeTree} (h : Below sha3 db t) (he : Extends sha3 db db')
    (hs : Sound sha3 db) (hn : NoCollision sha3 db') : Below sha3 db' t := by
  induction t with
  | empty => trivial
  | leaf _ _ => trivial
  | ext p t ih => exact ⟨h.1.mono he hs hn, ih h.2⟩
  | branch c v ih => exact fun a => ⟨(h a).1.mono he hs hn, ih a (h a).2⟩

theorem Stored.mono {db db' : σ} {t : NodeTree} (h : Stored sha3 db t) (he : Extends sha3 db db')
    (hs : Sound sha3 db) (hn : NoCollision sha3 db') : Stored sha3 db' t :=
  ⟨h.1.mono he hs hn, h.2.mono he hs hn⟩

/-- A node that has just been stored. -/
theorem held_streamed {db : σ} (hs : Sound sha3 db) (r : RLP) :
    Held sha3 (streamed sha3 db r) r := by
  intro hl
  have : ¬ r.encode.length < 32 := by omega
  rw [streamed, if_neg this, LawfulNodeDB.lookup_insert _ hs.plain (encode_ne_nil r), if_pos rfl]

variable (sha3) in
theorem exchanges_killed (db : σ) (r : RLP) :
    Exchanges (LawfulNodeDB.refs db) (LawfulNodeDB.refs (killed sha3 db r)) (hit sha3 r) 0 := by
  refine Exchanges.release fun h => ?_
  unfold killed hit
  split
  case isTrue hl => simp [LawfulNodeDB.refs_kill, hl]
  case isFalse hl => simp [hl]

theorem exchanges_streamed (db : σ) (r : RLP) :
    Exchanges (LawfulNodeDB.refs db) (LawfulNodeDB.refs (streamed sha3 db r)) 0 (hit sha3 r) := by
  refine Exchanges.acquire fun h => ?_
  unfold streamed hit
  split
  case isTrue hl =>
    have : ¬ 32 ≤ r.encode.length := by omega
    simp [this]
  case isFalse hl =>
    have : 32 ≤ r.encode.length := by omega
    simp [LawfulNodeDB.refs_insert, this]

/-! ### Replacing a tree -/

variable (sha3)

/-- From `db` to `db'` the references `w` became those below the root of `t`, whose own node is
the caller's to store. The counts are promised under `P` only. -/
structure Replaced (P : Prop) (db db' : σ) (w : H256 → ℕ) (t : NodeTree) : Prop where
  grown : Extends sha3 db db'
  below : Below sha3 db' t
  counts : P → Exchanges (LawfulNodeDB.refs db) (LawfulNodeDB.refs db') w (refsBelow sha3 t)

variable {sha3}

theorem Replaced.stored {P : Prop} {db db' : σ} {w : H256 → ℕ} {t : NodeTree}
    (h : Replaced sha3 P db db' w t) (hs : Sound sha3 db)
    (hn : NoCollision sha3 (streamed sha3 db' (nodeOf sha3 t))) :
    Stored sha3 (streamed sha3 db' (nodeOf sha3 t)) t :=
  ⟨held_streamed (h.grown.sound hs) _, h.below.mono (Extends.streamed _ _) (h.grown.sound hs) hn⟩

theorem Replaced.exchanges {P : Prop} {db db' : σ} {w : H256 → ℕ} {t : NodeTree}
    (h : Replaced sha3 P db db' w t) (he : P) :
    Exchanges (LawfulNodeDB.refs db) (LawfulNodeDB.refs (streamed sha3 db' (nodeOf sha3 t))) w
      (refsAt sha3 t) :=
  (h.counts he).trans (((exchanges_streamed db' (nodeOf sha3 t)).frame (refsBelow sha3 t)).congr
    (zero_add _).symm rfl)

theorem Replaced.imp {P Q : Prop} {db db' : σ} {w : H256 → ℕ} {t : NodeTree}
    (h : Replaced sha3 P db db' w t) (he : Q → P) :
    Replaced sha3 Q db db' w t := ⟨h.grown, h.below, fun h' => h.counts (he h')⟩

/-- The new child is stored and its parent, an extension, rewritten. -/
theorem Replaced.ext {P : Prop} {db db' : σ} {w : H256 → ℕ} {t : NodeTree}
    (h : Replaced sha3 P db db' w t) (hs : Sound sha3 db)
    (hn : NoCollision sha3 (streamed sha3 db' (nodeOf sha3 t))) (p : List Nibble) :
    Replaced sha3 P db (streamed sha3 db' (nodeOf sha3 t)) w (.ext p t) where
  grown := h.grown.trans (Extends.streamed _ _)
  below := h.stored hs hn
  counts he := h.exchanges he

/-- The new child is stored and its parent, a branch, rewritten. -/
theorem Replaced.branch {P : Prop} {db db' : σ} {c : Nibble → NodeTree} {a : Nibble}
    {t : NodeTree} (h : Replaced sha3 P db db' (refsAt sha3 (c a)) t) (hs : Sound sha3 db)
    (hn : NoCollision sha3 (streamed sha3 db' (nodeOf sha3 t)))
    (hc : ∀ b, Stored sha3 db (c b)) (v w : Option Value) :
    Replaced sha3 P db (streamed sha3 db' (nodeOf sha3 t)) (refsBelow sha3 (.branch c v))
      (.branch (Function.update c a t) w) where
  grown := h.grown.trans (Extends.streamed _ _)
  below := below_update sha3 w
    (fun b _ => (hc b).mono (h.grown.trans (Extends.streamed _ _)) hs hn) (h.stored hs hn)
  counts he := by
    have hsum : refsBelow sha3 (.branch c v) =
        refsAt sha3 (c a) + ∑ b ∈ Finset.univ.erase a, refsAt sha3 (c b) :=
      (Finset.add_sum_erase _ (fun b => refsAt sha3 (c b)) (Finset.mem_univ a)).symm
    exact ((h.exchanges he).frame _).congr hsum (refsBelow_branch_update sha3 c w a t)

theorem Replaced.self (P : Prop) {db : σ} {t : NodeTree} (hb : Below sha3 db t) :
    Replaced sha3 P db db (refsBelow sha3 t) t :=
  ⟨Extends.refl db, hb, fun _ => Exchanges.refl _ _⟩

/-- The new child is stored and becomes the only one of a branch. -/
theorem Replaced.only {P : Prop} {db db' : σ} {w : H256 → ℕ} {t : NodeTree}
    (h : Replaced sha3 P db db' w t) (hs : Sound sha3 db)
    (hn : NoCollision sha3 (streamed sha3 db' (nodeOf sha3 t))) (a : Nibble) (v : Option Value) :
    Replaced sha3 P db (streamed sha3 db' (nodeOf sha3 t)) w (.branch (Tree.only a t) v) where
  grown := h.grown.trans (Extends.streamed _ _)
  below := below_only sha3 v (h.stored hs hn)
  counts he := (h.exchanges he).congr rfl (refsBelow_only sha3 a v t)

/-- Something was done before. -/
theorem Replaced.after {P : Prop} {db₀ db db' : σ} {w₀ w : H256 → ℕ} {t : NodeTree}
    (h : Replaced sha3 P db db' w t) (hg : Extends sha3 db₀ db)
    (hx : P → Exchanges (LawfulNodeDB.refs db₀) (LawfulNodeDB.refs db) w₀ w) :
    Replaced sha3 P db₀ db' w₀ t where
  grown := hg.trans h.grown
  below := h.below
  counts he := (hx he).trans (h.counts he)

/-- The old node was killed before. -/
theorem Replaced.after_kill {P : Prop} {db db' : σ} {r : RLP} {w : H256 → ℕ} {t : NodeTree}
    (h : Replaced sha3 P (killed sha3 db r) db' w t) :
    Replaced sha3 P db db' (hit sha3 r + w) t :=
  h.after (Extends.killed db r) fun _ =>
    ((exchanges_killed sha3 db r).frame w).congr rfl (zero_add _).symm

/-- The old node is killed after. -/
theorem Replaced.then_kill {P : Prop} {db db' : σ} {r : RLP} {w : H256 → ℕ} {t : NodeTree}
    (h : Replaced sha3 P db db' w t) (hs : Sound sha3 db)
    (hn : NoCollision sha3 (killed sha3 db' r)) :
    Replaced sha3 P db (killed sha3 db' r) (hit sha3 r + w) t where
  grown := h.grown.trans (Extends.killed _ _)
  below := h.below.mono (Extends.killed _ _) (h.grown.sound hs) hn
  counts he := by
    have hk := ((exchanges_killed sha3 db' r).frame (refsBelow sha3 t)).congr rfl
      (zero_add _).symm
    exact (((h.counts he).frame (hit sha3 r)).congr (add_comm _ _) (add_comm _ _)).trans hk

end Stored
end Aleth.Devcore
