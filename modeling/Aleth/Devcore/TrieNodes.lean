import Aleth.Devcore.TrieDB
import Mathlib.Algebra.BigOperators.Fin
import Mathlib.Data.List.GetD

/-! Trees as stored nodes.

`nodeOf` is the node of a Patricia tree, `reference` what stands for a node in
its parent. `Stored` says that the store holds what a tree refers to. Every
computation on tries moves the store along `Extends`: what was stored stays
retrievable, unless two different strings that were inserted have one hash
(`NoCollision` excludes it, for the strings of the run at hand). `refsBelow`
and `refsAt` count references by hash in a tree unfolded from its root. -/
namespace Aleth.Devcore
open Patricia Throwing
open RLP (data list)

/-- Values: the empty string is how a trie says that a key is absent. -/
abbrev Value := {b : Bytes // b ≠ []}

abbrev NodeTree := Tree 16 Value

/-- The value slot of a branch. -/
def valueBytes : Option Value → Bytes
  | none => []
  | some v => v.1

section Nodes
variable (sha3 : Bytes → H256)

/-- A node as its parent refers to it. -/
def reference (r : RLP) : RLP :=
  if r.encode.length < 32 then r else data (sha3 r.encode).bytes

def nodeOf : NodeTree → RLP
  | .empty => RLPNull
  | .leaf p v => list [data (hexPrefixEncode p true), data v.1]
  | .ext p t => list [data (hexPrefixEncode p false), reference sha3 (nodeOf t)]
  | .branch c v =>
    list ((List.finRange 16).map (fun a => reference sha3 (nodeOf (c a))) ++ [data (valueBytes v)])

/-- The items of a branch. -/
def branchItems (c : Nibble → NodeTree) (v : Option Value) : List RLP :=
  (List.finRange 16).map (fun a => reference sha3 (nodeOf sha3 (c a))) ++ [data (valueBytes v)]

theorem nodeOf_branch (c : Nibble → NodeTree) (v : Option Value) :
    nodeOf sha3 (.branch c v) = list (branchItems sha3 c v) := rfl

theorem RLPNull_encode_length : RLPNull.encode.length = 1 := by
  simp [RLPNull, RLP.encode, appendData, header, c_rlpImmLenCount]

theorem reference_null : reference sha3 RLPNull = RLPNull := by
  unfold reference
  rw [RLPNull_encode_length]
  rfl

@[simp] theorem branchItems_length (c : Nibble → NodeTree) (v : Option Value) :
    (branchItems sha3 c v).length = 17 := by
  simp [branchItems]

theorem branchItems_child (c : Nibble → NodeTree) (v : Option Value) (a : Nibble) :
    (list (branchItems sha3 c v)).item a.val = reference sha3 (nodeOf sha3 (c a)) := by
  have ha := a.isLt
  simp only [RLP.item, branchItems]
  rw [List.getD_eq_getElem _ _ (by simp; omega), List.getElem_append_left (by simp)]
  simp

theorem branchItems_value (c : Nibble → NodeTree) (v : Option Value) :
    (list (branchItems sha3 c v)).item 16 = data (valueBytes v) := by
  simp only [RLP.item, branchItems]
  rw [List.getD_eq_getElem _ _ (by simp), List.getElem_append_right (by simp)]
  simp

theorem branchItems_set (c : Nibble → NodeTree) (v : Option Value) (a : Nibble) (t : NodeTree) :
    (branchItems sha3 c v).set a.val (reference sha3 (nodeOf sha3 t)) =
      branchItems sha3 (Function.update c a t) v := by
  have ha := a.isLt
  unfold branchItems
  rw [List.set_append_left _ _ (by simp)]
  congr 1
  apply List.ext_getElem
  · simp
  · intro i h₁ h₂
    simp only [List.length_map, List.length_finRange] at h₂
    rw [List.getElem_set]
    by_cases h : a.val = i
    · subst h; simp
    · have : (⟨i, h₂⟩ : Fin 16) ≠ a := fun e => h (by rw [← e])
      simp [h, this]

theorem branchItems_place (c : Nibble → NodeTree) (v w : Option Value) :
    (branchItems sha3 c v).take 16 ++ [data (valueBytes w)] = branchItems sha3 c w := by
  unfold branchItems
  rw [List.take_left' (by simp)]

theorem isList_nodeOf {t : NodeTree} (h : t.isEmpty = false) : (nodeOf sha3 t).isList = true := by
  cases t <;> first | rfl | cases h

theorem isEmpty_nodeOf (t : NodeTree) : (nodeOf sha3 t).isEmpty = t.isEmpty := by
  cases t with
  | branch c v =>
    rw [nodeOf_branch]
    unfold branchItems
    rw [List.finRange_succ]
    rfl
  | _ => rfl

theorem isEmpty_reference (t : NodeTree) :
    (reference sha3 (nodeOf sha3 t)).isEmpty = t.isEmpty := by
  unfold reference
  split
  · exact isEmpty_nodeOf sha3 t
  case isFalse h =>
    have hne : t.isEmpty = false := by
      cases t <;> first | rfl | exact (h (by rw [nodeOf, RLPNull_encode_length]; decide)).elim
    rw [hne]
    have hs := (sha3 (nodeOf sha3 t).encode).size
    cases hb : (sha3 (nodeOf sha3 t).encode).bytes with
    | nil => rw [hb] at hs; cases hs
    | cons x l => rfl

/-! ### The store along a run -/

variable {σ : Type} [NodeDB σ]

def killed (db : σ) (r : RLP) : σ :=
  if 32 ≤ r.encode.length then NodeDB.kill db (sha3 r.encode) else db

def streamed (db : σ) (r : RLP) : σ :=
  if r.encode.length < 32 then db else NodeDB.insert db (sha3 r.encode) r.encode

open GenericTrieDB in
@[simp] theorem run_killNode (r : RLP) (db : σ) :
    (killNode sha3 r).run db = (.ok (), killed sha3 db r) := by
  unfold killNode killNodeAt killed
  split <;> rfl

open GenericTrieDB in
@[simp] theorem run_streamNode (r : RLP) (db : σ) :
    (streamNode sha3 r).run db = (.ok (reference sha3 r), streamed sha3 db r) := by
  unfold streamNode reference streamed
  split <;> rfl

/-- The strings inserted in a run have different hashes, and sizes that RLP can read. -/
structure NoCollision (db : σ) : Prop where
  injOn : ∀ a ∈ NodeDB.inserted db, ∀ b ∈ NodeDB.inserted db, sha3 a = sha3 b → a = b
  fits : ∀ a ∈ NodeDB.inserted db, RLP.Fits a

instance (db : σ) : Decidable (NoCollision sha3 db) :=
  decidable_of_iff ((∀ a ∈ NodeDB.inserted db, ∀ b ∈ NodeDB.inserted db, sha3 a = sha3 b → a = b) ∧
    ∀ a ∈ NodeDB.inserted db, RLP.Fits a) ⟨fun h => ⟨h.1, h.2⟩, fun h => ⟨h.1, h.2⟩⟩

/-- A store that holds inserted strings only, each under its hash. -/
structure Sound [LawfulNodeDB σ] (db : σ) : Prop where
  plain : LawfulNodeDB.Plain db
  held : ∀ h, NodeDB.lookup db h ≠ [] →
    NodeDB.lookup db h ∈ NodeDB.inserted db ∧ sha3 (NodeDB.lookup db h) = h

variable [LawfulNodeDB σ]

structure Extends (db db' : σ) : Prop where
  sound : Sound sha3 db → Sound sha3 db'
  log : ∀ b ∈ NodeDB.inserted db, b ∈ NodeDB.inserted db'
  kept : Sound sha3 db → NoCollision sha3 db' → ∀ h, NodeDB.lookup db h ≠ [] →
    NodeDB.lookup db' h = NodeDB.lookup db h
  store : LawfulNodeDB.store db' = LawfulNodeDB.store db

variable {sha3}

theorem NoCollision.of_extends {db db' : σ} (h : NoCollision sha3 db') (he : Extends sha3 db db') :
    NoCollision sha3 db :=
  ⟨fun a ha b hb => h.injOn a (he.log a ha) b (he.log b hb), fun a ha => h.fits a (he.log a ha)⟩

theorem Extends.refl (db : σ) : Extends sha3 db db := ⟨id, fun _ h => h, fun _ _ _ _ => rfl, rfl⟩

theorem Extends.trans {a b c : σ} (hab : Extends sha3 a b) (hbc : Extends sha3 b c) :
    Extends sha3 a c where
  sound h := hbc.sound (hab.sound h)
  log x h := hbc.log x (hab.log x h)
  kept hs hn h hne := by
    have h₁ := hab.kept hs (hn.of_extends hbc) h hne
    rw [hbc.kept (hab.sound hs) hn h (h₁ ▸ hne), h₁]
  store := hbc.store.trans hab.store

theorem Extends.kill (db : σ) (h : H256) : Extends sha3 db (NodeDB.kill db h) where
  sound hs := by
    refine ⟨LawfulNodeDB.plain_kill h hs.plain, fun h' hne => ?_⟩
    rw [LawfulNodeDB.lookup_kill h h' hs.plain] at hne ⊢
    rw [LawfulNodeDB.inserted_kill]
    exact hs.held h' hne
  log b hb := by rwa [LawfulNodeDB.inserted_kill]
  kept hs _ h' _ := LawfulNodeDB.lookup_kill h h' hs.plain
  store := LawfulNodeDB.store_kill db h

theorem Extends.insert (db : σ) {v : Bytes} (hv : v ≠ []) :
    Extends sha3 db (NodeDB.insert db (sha3 v) v) where
  sound hs := by
    refine ⟨LawfulNodeDB.plain_insert _ hs.plain hv, fun h' hne => ?_⟩
    rw [LawfulNodeDB.lookup_insert h' hs.plain hv] at hne ⊢
    rw [LawfulNodeDB.inserted_insert]
    split
    case isTrue e => exact ⟨List.mem_cons_self .., e.symm⟩
    case isFalse e =>
      rw [if_neg e] at hne
      exact ⟨List.mem_cons_of_mem _ (hs.held h' hne).1, (hs.held h' hne).2⟩
  log b hb := by
    rw [LawfulNodeDB.inserted_insert]
    exact List.mem_cons_of_mem _ hb
  kept hs hn h' hne := by
    rw [LawfulNodeDB.lookup_insert h' hs.plain hv]
    split
    case isTrue e =>
      -- the hash was taken: by the same string, as there is no collision
      obtain ⟨hmem, hh⟩ := hs.held h' hne
      refine hn.injOn v ?_ _ ?_ (e ▸ hh.symm)
      · rw [LawfulNodeDB.inserted_insert]; exact List.mem_cons_self ..
      · rw [LawfulNodeDB.inserted_insert]; exact List.mem_cons_of_mem _ hmem
    case isFalse => rfl
  store := LawfulNodeDB.store_insert db _ v

theorem encode_ne_nil (r : RLP) : r.encode ≠ [] :=
  List.ne_nil_of_length_pos (RLP.encode_length_pos r)

theorem Extends.killed (db : σ) (r : RLP) : Extends sha3 db (killed sha3 db r) := by
  unfold Devcore.killed
  split
  · exact Extends.kill db _
  · exact Extends.refl db

theorem Extends.streamed (db : σ) (r : RLP) : Extends sha3 db (streamed sha3 db r) := by
  unfold Devcore.streamed
  split
  · exact Extends.refl db
  · exact Extends.insert db (encode_ne_nil r)

end Nodes
end Aleth.Devcore
