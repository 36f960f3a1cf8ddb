import Aleth.Devcore.TrieReach

/-! The overlay and the database below it (`OverlayDB.cpp`).

`rollback` leaves what is in the database: `db.rollback` is how the database
answers without the overlay. A string is in the database after `commit` when it
was there before or had a positive count (`lookup_commit`). `Grounded` is the
invariant on the store alone: overlay and database hold inserted strings, and
the tries of the committed roots are in the database. -/
namespace Aleth.Devcore
open Patricia Patricia.Tree Throwing GenericTrieDB Counting

namespace OverlayDB
variable {db db' : OverlayDB} {h : H256}

@[simp] theorem rollback_rollback (db : OverlayDB) : db.rollback.rollback = db.rollback := rfl

theorem clear_lookup (c : StateCacheDB) (h : H256) : c.clear.lookup h = [] := rfl

theorem lookup_rollback (db : OverlayDB) (h : H256) :
    NodeDB.lookup db.rollback h = (db.m_db.map fun below => below h).getD [] := by
  show db.rollback.lookup h = _
  unfold OverlayDB.lookup OverlayDB.rollback
  dsimp only
  rw [clear_lookup]
  cases db.m_db with
  | none => rfl
  | some below => rfl

theorem lookup_eq_or (db : OverlayDB) (h : H256) :
    NodeDB.lookup db h =
      if db.cache.lookup h ≠ [] then db.cache.lookup h else NodeDB.lookup db.rollback h := by
  rw [lookup_rollback]
  show db.lookup h = _
  unfold OverlayDB.lookup
  cases db.m_db with
  | none =>
    dsimp only
    split
    case isTrue => rfl
    case isFalse hc => exact not_not.mp hc
  | some below => rfl

/-- Strings with a positive count are found in the overlay. -/
theorem lookup_of_refs (hp : LawfulNodeDB.Plain db) (hr : db.cache.refs h ≠ 0) :
    ∃ n, db.cache.m_main.lookup h = some (NodeDB.lookup db h, n + 1) := by
  obtain ⟨hplain, hfull⟩ := hp
  unfold StateCacheDB.refs at hr
  cases hm : db.cache.m_main.lookup h with
  | none => rw [hm] at hr; exact (hr rfl).elim
  | some e =>
    rw [hm] at hr
    obtain ⟨n, hn⟩ := Nat.exists_eq_succ_of_ne_zero hr
    have hc : db.cache.lookup h = e.1 := by rw [StateCacheDB.lookup_of_plain hplain, hm]; rfl
    have hne : e.1 ≠ [] := hfull h e.1 e.2 hm
    refine ⟨n, ?_⟩
    rw [lookup_eq_or, hc, if_pos hne, ← Nat.succ_eq_add_one, ← hn]

theorem lookup_commit (hp : LawfulNodeDB.Plain db) (hs : db.m_db.isSome = true) (h : H256) :
    NodeDB.lookup db.commit h =
      if db.cache.refs h ≠ 0 then NodeDB.lookup db h else NodeDB.lookup db.rollback h := by
  obtain ⟨below, hbelow⟩ := Option.isSome_iff_exists.mp hs
  have hdb : db.commit = ⟨db.cache.clear, some fun h => (db.cache.m_main.lookup h).elim (below h)
      fun e => if e.2 ≠ 0 then e.1 else below h⟩ := by
    unfold OverlayDB.commit
    rw [hbelow]
    refine congrArg (fun f => OverlayDB.mk db.cache.clear (some f)) (funext fun h => ?_)
    cases db.cache.m_main.lookup h <;> rfl
  have hc : NodeDB.lookup db.commit h = (db.cache.m_main.lookup h).elim (below h) fun e =>
      if e.2 ≠ 0 then e.1 else below h := by
    rw [lookup_eq_or, lookup_rollback, hdb]
    rfl
  rw [hc]
  by_cases hr : db.cache.refs h = 0
  · rw [if_neg (not_not.mpr hr), lookup_rollback, hbelow]
    unfold StateCacheDB.refs at hr
    cases hm : db.cache.m_main.lookup h with
    | none => rfl
    | some e =>
      rw [hm] at hr
      exact if_neg (not_not.mpr hr)
  · obtain ⟨n, hm⟩ := lookup_of_refs hp hr
    rw [hm, if_pos hr, Option.elim_some]
    exact if_pos (Nat.succ_ne_zero n)

theorem commit_isSome (hs : db.m_db.isSome = true) : db.commit.m_db.isSome = true := by
  obtain ⟨below, hbelow⟩ := Option.isSome_iff_exists.mp hs
  unfold OverlayDB.commit
  rw [hbelow]
  rfl

theorem commit_inserted (db : OverlayDB) : NodeDB.inserted db.commit = NodeDB.inserted db := by
  show db.commit.cache.inserted = db.cache.inserted
  unfold OverlayDB.commit
  cases db.m_db with
  | none => rfl
  | some below => rfl

theorem commit_plain (hp : LawfulNodeDB.Plain db) (hs : db.m_db.isSome = true) :
    LawfulNodeDB.Plain db.commit ∧ db.commit.rollback = db.commit := by
  obtain ⟨below, hbelow⟩ := Option.isSome_iff_exists.mp hs
  have hplain : db.cache.clear.m_enforceRefs = false ∧ db.cache.clear.Full :=
    ⟨hp.1, fun h s refs hl => by cases hl⟩
  unfold OverlayDB.commit
  rw [hbelow]
  exact ⟨hplain, rfl⟩

/-! ### What is in the database -/

section Grounded
variable {sha3 : Bytes → H256} {len : ℕ} {committed : List H256}

theorem rollback_congr (hs : db'.m_db = db.m_db) (h : H256) :
    NodeDB.lookup db'.rollback h = NodeDB.lookup db.rollback h := by
  rw [lookup_rollback, lookup_rollback, hs]

variable (sha3) in
/-- The tries of the roots that were committed are in the database. -/
structure Grounded (len : ℕ) (db : OverlayDB) (committed : List H256) : Prop where
  store : db.m_db.isSome = true
  reliable : Reliable sha3 db
  below : Reliable sha3 db.rollback
  committed : ∀ root ∈ committed, ∃ t, Tracks sha3 len db.rollback root t

/-- The overlay answers as the database does, where that has an answer. -/
theorem Grounded.lookup_eq (hg : Grounded sha3 len db committed)
    (hne : NodeDB.lookup db.rollback h ≠ []) :
    NodeDB.lookup db h = NodeDB.lookup db.rollback h := by
  obtain ⟨hin, hh⟩ := hg.below.sound.held h hne
  refine hg.reliable.lookup_eq hin hh.symm ?_
  rw [lookup_eq_or]
  split
  case isTrue hc => exact hc
  case isFalse => exact hne

theorem Grounded.rollback (hg : Grounded sha3 len db committed) :
    Grounded sha3 len db.rollback committed where
  store := hg.store
  reliable := hg.below
  below := hg.below
  committed := hg.committed

/-- What tries do to the overlay does not touch the database. -/
theorem Grounded.extend (hg : Grounded sha3 len db committed) (he : Extends sha3 db db')
    (hn : NoCollision sha3 db') : Grounded sha3 len db' committed where
  store := by rw [show db'.m_db = db.m_db from he.store]; exact hg.store
  reliable := ⟨he.sound hg.reliable.sound, hn, he.log _ hg.reliable.null⟩
  below := by
    have hplain := (he.sound hg.reliable.sound).plain
    refine ⟨⟨⟨hplain.1, fun h s refs hl => by cases hl⟩, fun h hne => ?_⟩, ⟨hn.injOn, hn.fits⟩,
      he.log _ hg.reliable.null⟩
    rw [rollback_congr he.store] at hne ⊢
    exact ⟨he.log _ (hg.below.sound.held h hne).1, (hg.below.sound.held h hne).2⟩
  committed root hroot := by
    obtain ⟨t, ht⟩ := hg.committed root hroot
    exact ⟨t, ht.congr hg.below fun x _ _ => rollback_congr he.store x⟩

/-- Nothing in the database is lost or changed by a commit. -/
theorem Grounded.lookup_commit (hg : Grounded sha3 len db committed)
    (hne : NodeDB.lookup db.rollback h ≠ []) :
    NodeDB.lookup db.commit h = NodeDB.lookup db.rollback h := by
  rw [OverlayDB.lookup_commit hg.reliable.sound.plain hg.store]
  split
  case isTrue => exact hg.lookup_eq hne
  case isFalse => rfl

/-- A trie whose references are in the database or counted is in the database after a commit. -/
theorem Grounded.tracks_commit (hg : Grounded sha3 len db committed) {root : H256}
    {t : NodeTree} (ht : Tracks sha3 len db root t)
    (hc : ∀ h, h ≠ EmptyTrie sha3 → NodeDB.lookup db.rollback h = [] →
      refsFrom sha3 root t h ≤ db.cache.refs h) : Tracks sha3 len db.commit root t := by
  refine ht.congr hg.reliable fun x hx hpos => ?_
  by_cases hne : NodeDB.lookup db.rollback x = []
  · have hcount := hc x hx hne
    rw [OverlayDB.lookup_commit hg.reliable.sound.plain hg.store, if_pos (by omega)]
  · rw [hg.lookup_commit hne, hg.lookup_eq hne]

theorem Grounded.commit (hg : Grounded sha3 len db committed) {roots : List H256}
    (hroots : ∀ root ∈ roots, ∃ t, Tracks sha3 len db.commit root t) :
    Grounded sha3 len db.commit (roots ++ committed) := by
  obtain ⟨hplain, hback⟩ := commit_plain hg.reliable.sound.plain hg.store
  have hreliable : Reliable sha3 db.commit := by
    refine ⟨⟨hplain, fun h hne => ?_⟩, ⟨?_, ?_⟩, ?_⟩
    · rw [commit_inserted]
      rw [OverlayDB.lookup_commit hg.reliable.sound.plain hg.store] at hne ⊢
      split
      case isTrue hr =>
        rw [if_pos hr] at hne
        exact hg.reliable.sound.held h hne
      case isFalse hr =>
        rw [if_neg hr] at hne
        exact hg.below.sound.held h hne
    · rw [commit_inserted]
      exact hg.reliable.noCollision.injOn
    · rw [commit_inserted]
      exact hg.reliable.noCollision.fits
    · rw [commit_inserted]
      exact hg.reliable.null
  refine ⟨commit_isSome hg.store, hreliable, by rwa [hback], fun root hroot => ?_⟩
  rw [hback]
  rcases List.mem_append.mp hroot with hnew | hold
  · exact hroots root hnew
  · obtain ⟨t, ht⟩ := hg.committed root hold
    exact ⟨t, ht.congr hg.below fun x hx hpos => hg.lookup_commit (ht.lookup hx hpos)⟩

end Grounded
end OverlayDB
end Aleth.Devcore
