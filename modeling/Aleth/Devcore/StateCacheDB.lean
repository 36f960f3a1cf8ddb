import Aleth.Devcore.Bytes
import Mathlib.Data.List.AList

/-! The node stores behind a trie (`StateCacheDB.cpp`, `OverlayDB.cpp`).

Both keep strings by hash with a reference count; `kill` lowers the count and
never removes the string, so that a lookup only misses a killed string when
references are enforced. `OverlayDB` falls back on the database below it.
`inserted` is a ghost: every string ever inserted, read by no operation. It is
what "no collision among the strings of this run" is about.

Reference counts are natural numbers here; the code's `unsigned` counter only
differs after 2^32 references to one node. -/
namespace Aleth.Devcore

/-- What `GenericTrieDB<DB>` asks of its database. -/
class NodeDB (σ : Type) where
  lookup : σ → H256 → Bytes
  contains : σ → H256 → Bool
  insert : σ → H256 → Bytes → σ
  kill : σ → H256 → σ
  /-- Ghost: what has been inserted. -/
  inserted : σ → List Bytes

structure StateCacheDB where
  /-- Each string with its reference count. -/
  m_main : AList (fun _ : H256 => Bytes × Nat)
  m_enforceRefs : Bool
  inserted : List Bytes

namespace StateCacheDB

def empty : StateCacheDB := ⟨∅, false, []⟩

def lookup (db : StateCacheDB) (h : H256) : Bytes :=
  match db.m_main.lookup h with
  | some (s, refs) => if !db.m_enforceRefs || decide (0 < refs) then s else []
  | none => []

/-- `exists`. -/
def contains (db : StateCacheDB) (h : H256) : Bool :=
  match db.m_main.lookup h with
  | some (_, refs) => !db.m_enforceRefs || decide (0 < refs)
  | none => false

def insert (db : StateCacheDB) (h : H256) (v : Bytes) : StateCacheDB :=
  { db with
    m_main := db.m_main.insert h
      (match db.m_main.lookup h with
      | some (_, refs) => (v, refs + 1)
      | none => (v, 1))
    inserted := v :: db.inserted }

def kill (db : StateCacheDB) (h : H256) : StateCacheDB :=
  match db.m_main.lookup h with
  | some (s, refs + 1) => {db with m_main := db.m_main.insert h (s, refs)}
  | _ => db

/-- `EnforceRefs`. -/
def enforceRefs (db : StateCacheDB) (r : Bool) : StateCacheDB := {db with m_enforceRefs := r}

/-- `m_main.clear()`. -/
def clear (db : StateCacheDB) : StateCacheDB := {db with m_main := ∅}

/-- The reference count, zero for a hash that is not there. -/
def refs (db : StateCacheDB) (h : H256) : Nat :=
  match db.m_main.lookup h with
  | some (_, refs) => refs
  | none => 0

/-- The hashes with a positive count. -/
def keys (db : StateCacheDB) : List H256 := db.m_main.keys.filter fun h => decide (0 < db.refs h)

theorem mem_keys {db : StateCacheDB} {h : H256} : h ∈ db.keys ↔ 0 < db.refs h := by
  unfold keys
  rw [List.mem_filter, decide_eq_true_eq, and_iff_right_iff_imp]
  intro hpos
  by_contra hno
  have hnone : db.m_main.lookup h = none := AList.lookup_eq_none.mpr fun hm => hno (AList.mem_keys.mp hm)
  rw [refs, hnone] at hpos
  exact lt_irrefl 0 hpos

instance : NodeDB StateCacheDB where
  lookup := lookup
  contains := contains
  insert := insert
  kill := kill
  inserted := inserted

end StateCacheDB

/-- The cache over an optional database. -/
structure OverlayDB where
  cache : StateCacheDB
  m_db : Option (H256 → Bytes)

namespace OverlayDB

def lookup (db : OverlayDB) (h : H256) : Bytes :=
  let ret := db.cache.lookup h
  match db.m_db with
  | none => ret
  | some below => if ret ≠ [] then ret else below h

/-- `exists`. -/
def contains (db : OverlayDB) (h : H256) : Bool :=
  db.cache.contains h || (match db.m_db with
    | none => false
    | some below => below h ≠ [])

def insert (db : OverlayDB) (h : H256) (v : Bytes) : OverlayDB :=
  {db with cache := db.cache.insert h v}

/-- `kill`: what it does when the count is already zero is only to warn. -/
def kill (db : OverlayDB) (h : H256) : OverlayDB := {db with cache := db.cache.kill h}

/-- `commit`: a string whose count is zero is not written. -/
def commit (db : OverlayDB) : OverlayDB :=
  match db.m_db with
  | none => db
  | some below =>
    { cache := db.cache.clear
      m_db := some fun h => match db.cache.m_main.lookup h with
        | some (s, refs) => if refs ≠ 0 then s else below h
        | none => below h }

def rollback (db : OverlayDB) : OverlayDB := {db with cache := db.cache.clear}

instance : NodeDB OverlayDB where
  lookup := lookup
  contains := contains
  insert := insert
  kill := kill
  inserted := fun db => db.cache.inserted

end OverlayDB

/-! ### What the tries rely on

A store that is `Plain` (references not enforced) answers with what was last
inserted; kills do not show. -/

class LawfulNodeDB (σ : Type) [NodeDB σ] where
  Plain : σ → Prop
  plain_insert : ∀ {db : σ} (h : H256) {v : Bytes}, Plain db → v ≠ [] →
    Plain (NodeDB.insert db h v)
  plain_kill : ∀ {db : σ} (h : H256), Plain db → Plain (NodeDB.kill db h)
  lookup_insert : ∀ {db : σ} {h : H256} {v : Bytes} (h' : H256), Plain db → v ≠ [] →
    NodeDB.lookup (NodeDB.insert db h v) h' = if h' = h then v else NodeDB.lookup db h'
  lookup_kill : ∀ {db : σ} (h h' : H256), Plain db →
    NodeDB.lookup (NodeDB.kill db h) h' = NodeDB.lookup db h'
  inserted_insert : ∀ (db : σ) (h : H256) (v : Bytes),
    NodeDB.inserted (NodeDB.insert db h v) = v :: NodeDB.inserted db
  inserted_kill : ∀ (db : σ) (h : H256), NodeDB.inserted (NodeDB.kill db h) = NodeDB.inserted db
  /-- The reference count of the strings held in memory. -/
  refs : σ → H256 → Nat
  refs_insert : ∀ (db : σ) (h : H256) (v : Bytes) (h' : H256),
    refs (NodeDB.insert db h v) h' = refs db h' + if h' = h then 1 else 0
  refs_kill : ∀ (db : σ) (h h' : H256),
    refs (NodeDB.kill db h) h' = refs db h' - if h' = h then 1 else 0
  /-- The database below, which neither of the two writes. -/
  store : σ → Option (H256 → Bytes)
  store_insert : ∀ (db : σ) (h : H256) (v : Bytes), store (NodeDB.insert db h v) = store db
  store_kill : ∀ (db : σ) (h : H256), store (NodeDB.kill db h) = store db

namespace StateCacheDB

theorem refs_insert (db : StateCacheDB) (h : H256) (v : Bytes) (h' : H256) :
    (db.insert h v).refs h' = db.refs h' + if h' = h then 1 else 0 := by
  by_cases e : h' = h
  · subst e
    simp only [refs, insert, AList.lookup_insert, if_true]
    cases db.m_main.lookup h' <;> simp
  · simp [refs, insert, AList.lookup_insert_ne e, e]

theorem refs_kill (db : StateCacheDB) (h h' : H256) :
    (db.kill h).refs h' = db.refs h' - if h' = h then 1 else 0 := by
  unfold kill
  split
  case h_1 s refs hm =>
    by_cases e : h' = h
    · subst e; simp [StateCacheDB.refs, hm]
    · simp [StateCacheDB.refs, AList.lookup_insert_ne e, e]
  case h_2 hno =>
    by_cases e : h' = h
    · -- nothing to lower: no entry, or a count of zero
      subst e
      have hz : db.refs h' = 0 := by
        unfold StateCacheDB.refs
        cases hm : db.m_main.lookup h' with
        | none => rfl
        | some e =>
          cases hr : e.2 with
          | zero => exact hr
          | succ n => exact (hno e.1 n (by rw [hm, Nat.succ_eq_add_one, ← hr])).elim
      simp [hz]
    · simp [e]

theorem lookup_of_plain {db : StateCacheDB} (hp : db.m_enforceRefs = false) (h : H256) :
    db.lookup h = ((db.m_main.lookup h).map Prod.fst).getD [] := by
  unfold lookup
  cases db.m_main.lookup h with
  | none => rfl
  | some e => simp [hp]

@[simp] theorem kill_enforceRefs (db : StateCacheDB) (h : H256) :
    (db.kill h).m_enforceRefs = db.m_enforceRefs := by
  unfold kill
  split <;> rfl

@[simp] theorem kill_inserted (db : StateCacheDB) (h : H256) :
    (db.kill h).inserted = db.inserted := by
  unfold kill
  split <;> rfl

/-- A kill changes no string. -/
theorem kill_main_fst (db : StateCacheDB) (h h' : H256) :
    ((db.kill h).m_main.lookup h').map Prod.fst = (db.m_main.lookup h').map Prod.fst := by
  unfold kill
  split
  case h_1 s refs hm =>
    by_cases e : h' = h
    · subst e; simp [hm]
    · simp [AList.lookup_insert_ne e]
  case h_2 => rfl

/-- With a positive count a string is found also when references are enforced. -/
theorem lookup_enforceRefs {db : StateCacheDB} (hp : db.m_enforceRefs = false) {h : H256}
    (hpos : 0 < db.refs h) : (db.enforceRefs true).lookup h = db.lookup h := by
  unfold refs at hpos
  rw [lookup_of_plain hp]
  unfold lookup enforceRefs
  cases hm : db.m_main.lookup h with
  | none => rfl
  | some e =>
    rw [hm] at hpos
    simp [hpos]

/-- No empty string is kept: `OverlayDB` would take it for a missing one. -/
def Full (db : StateCacheDB) : Prop := ∀ h s refs, db.m_main.lookup h = some (s, refs) → s ≠ []

theorem Full.insert {db : StateCacheDB} (hf : db.Full) (h : H256) {v : Bytes} (hv : v ≠ []) :
    (db.insert h v).Full := by
  intro h' s refs hl
  by_cases e : h' = h
  · subst e
    simp only [StateCacheDB.insert, AList.lookup_insert] at hl
    split at hl
    · cases hl; exact hv
    · cases hl; exact hv
  · simp only [StateCacheDB.insert, AList.lookup_insert_ne e] at hl
    exact hf h' s refs hl

theorem Full.kill {db : StateCacheDB} (hf : db.Full) (h : H256) : (db.kill h).Full := by
  intro h' s refs hl
  have hfst := kill_main_fst db h h'
  rw [hl] at hfst
  cases hd : db.m_main.lookup h' with
  | none => rw [hd] at hfst; cases hfst
  | some e =>
    rw [hd] at hfst
    have hs : s = e.1 := Option.some.inj hfst
    exact hs ▸ hf h' e.1 e.2 hd

instance : LawfulNodeDB StateCacheDB where
  Plain db := db.m_enforceRefs = false
  plain_insert _ _ hp _ := hp
  plain_kill _ hp := (kill_enforceRefs _ _).trans hp
  lookup_insert {db h v} h' hp _ := by
    show (db.insert h v).lookup h' = if h' = h then v else db.lookup h'
    rw [lookup_of_plain hp, lookup_of_plain (show (db.insert h v).m_enforceRefs = false from hp)]
    by_cases e : h' = h
    · subst e
      simp only [insert, AList.lookup_insert, if_true]
      cases db.m_main.lookup h' <;> rfl
    · simp [insert, AList.lookup_insert_ne e, e]
  lookup_kill {db} h h' hp := by
    show (db.kill h).lookup h' = db.lookup h'
    rw [lookup_of_plain hp, lookup_of_plain ((kill_enforceRefs db h).trans hp), kill_main_fst]
  inserted_insert _ _ _ := rfl
  inserted_kill db h := kill_inserted db h
  refs := refs
  refs_insert := refs_insert
  refs_kill := refs_kill
  store _ := none
  store_insert _ _ _ := rfl
  store_kill _ _ := rfl

end StateCacheDB

instance : LawfulNodeDB OverlayDB where
  Plain db := db.cache.m_enforceRefs = false ∧ db.cache.Full
  plain_insert h _ hp hv := ⟨hp.1, hp.2.insert h hv⟩
  plain_kill h hp := ⟨(StateCacheDB.kill_enforceRefs _ _).trans hp.1, hp.2.kill h⟩
  lookup_insert {db h v} h' hp hv := by
    have hc : (db.cache.insert h v).lookup h' = if h' = h then v else db.cache.lookup h' :=
      @LawfulNodeDB.lookup_insert StateCacheDB _ _ db.cache h v h' hp.1 hv
    show (db.insert h v).lookup h' = if h' = h then v else db.lookup h'
    unfold OverlayDB.lookup OverlayDB.insert
    simp only
    rw [hc]
    by_cases e : h' = h
    · cases db.m_db <;> simp [e, hv]
    · simp only [e, if_false]
  lookup_kill {db} h h' hp := by
    have hc : (db.cache.kill h).lookup h' = db.cache.lookup h' :=
      @LawfulNodeDB.lookup_kill StateCacheDB _ _ db.cache h h' hp.1
    show (db.kill h).lookup h' = db.lookup h'
    unfold OverlayDB.lookup OverlayDB.kill
    simp only
    rw [hc]
  inserted_insert _ _ _ := rfl
  inserted_kill db h := StateCacheDB.kill_inserted db.cache h
  refs db := db.cache.refs
  refs_insert db := db.cache.refs_insert
  refs_kill db := db.cache.refs_kill
  store db := db.m_db
  store_insert _ _ _ := rfl
  store_kill _ _ := rfl

end Aleth.Devcore
