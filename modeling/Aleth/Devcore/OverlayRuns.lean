import Aleth.Devcore.OverlayDB

/-! Tries over an overlay, committed and rolled back.

A `Session` has any number of tries in use over one `OverlayDB`: the state trie
and the storage tries whose roots its accounts hold. A trie is opened at the
root of the empty trie or at a root that was committed, and from then on its own
calls lead it on. After a rollback the tries have to be opened again. Keys are
hashed before they reach the trie (`HashedGenericTrieDB`), and contract code is
stored beside the nodes.

`Keeps` is the invariant: what a trie in use refers to is in the database or
counted in the overlay. The node of the empty trie is the exception, since a
trie opened at it takes no reference; `setRoot` makes it again where it is
missing. -/
namespace Aleth.Devcore
open Patricia Patricia.Tree Throwing GenericTrieDB Counting

/-- `sha3(_key)` in place of the key. -/
def TrieOp.hashed (sha3 : Bytes → H256) : TrieOp → TrieOp
  | .insert key value => .insert (sha3 key).bytes value
  | .remove key => .remove (sha3 key).bytes

structure Session where
  db : OverlayDB
  /-- `m_root` of each trie in use. -/
  roots : List H256
  /-- Ghost: the roots that the tries had at the commits so far. -/
  committed : List H256

inductive Request where
  | openAt (root : H256)
  | change (trie : ℕ) (op : TrieOp)
  | close (trie : ℕ)
  | insertCode (code : Value)
  | commit
  | rollback

namespace Session
variable (sha3 : Bytes → H256) (fuel : ℕ)

/-- An empty database, with a state trie that has been initialised. -/
def initial : Session where
  db := ((init sha3).run ⟨StateCacheDB.empty, some fun _ => []⟩).2
  roots := [EmptyTrie sha3]
  committed := []

/-- What has been done before an exception stays done. -/
def step (s : Session) : Request → Session
  | .openAt root =>
    if root = EmptyTrie sha3 ∨ root ∈ s.committed then
      match (setRoot sha3 root).run s.db with
      | (.ok m_root, db) => {s with db, roots := s.roots ++ [m_root]}
      | (.error _, db) => {s with db}
    else s
  | .change i op =>
    match s.roots[i]? with
    | none => s
    | some root =>
      match ((op.hashed sha3).run sha3 fuel root).run s.db with
      | (.ok m_root, db) => {s with db, roots := s.roots.set i m_root}
      | (.error _, db) => {s with db}
  | .close i => {s with roots := s.roots.eraseIdx i}
  | .insertCode code => {s with db := s.db.insert (sha3 code.1) code.1}
  | .commit => {s with db := s.db.commit, committed := s.roots ++ s.committed}
  | .rollback => {s with db := s.db.rollback, roots := []}

def run (l : List Request) : Session := l.foldl (step sha3 fuel) (initial sha3)

/-- `m_db->lookup`: what the database answers, apart from the overlay. -/
def inDatabase (s : Session) (h : H256) : Bytes := (s.db.m_db.map fun below => below h).getD []

end Session

section Sessions
variable {sha3 : Bytes → H256} {fuel : ℕ} {s : Session}

/-! ### The calls -/

theorem grows_setRoot {σ : Type} [NodeDB σ] [LawfulNodeDB σ] (root : H256) :
    Grows (Extends sha3) (setRoot sha3 root : TrieM σ H256) := by
  unfold setRoot
  refine grows_bind (Grows.get Extends.refl) fun db => ?_
  split
  · refine grows_bind (grows_forceInsertNode RLPNull) fun r => grows_bind (grows_node r) fun v => ?_
    split
    · exact grows_throw _
    · exact grows_pure _
  · refine grows_bind (grows_pure root) fun r => grows_bind (grows_node r) fun v => ?_
    split
    · exact grows_throw _
    · exact grows_pure _

/-- Opening a trie inserts the empty trie's node, or nothing. -/
theorem run_setRoot (root : H256) (db : OverlayDB) :
    ∃ r db', (setRoot sha3 root).run db = (r, db') ∧ (∀ m_root, r = .ok m_root → m_root = root) ∧
      ∀ h, db.cache.refs h ≤ db'.cache.refs h := by
  have hlast : ∀ (x : H256) (db₁ : OverlayDB), ∃ r, (node x >>= fun rv =>
      if rv = [] then throw .rootNotFound else pure x : TrieM OverlayDB H256).run db₁ = (r, db₁) ∧
        ∀ m_root, r = .ok m_root → m_root = x := by
    intro x db₁
    have hnode : (node x : TrieM OverlayDB Bytes).run db₁ = (.ok (NodeDB.lookup db₁ x), db₁) := rfl
    rw [run_bind_ok hnode]
    split
    case isTrue => exact ⟨_, rfl, fun m_root hm => by cases hm⟩
    case isFalse => exact ⟨_, rfl, fun m_root hm => (Except.ok.inj hm).symm⟩
  unfold setRoot
  rw [run_bind_ok (run_get db)]
  split
  case isTrue hroot =>
    have hinit : (init sha3 : TrieM OverlayDB H256).run db =
        (.ok (EmptyTrie sha3), NodeDB.insert db (EmptyTrie sha3) RLPNull.encode) := rfl
    rw [run_bind_ok hinit]
    obtain ⟨r, hrun, hr⟩ := hlast (EmptyTrie sha3)
      (NodeDB.insert db (EmptyTrie sha3) RLPNull.encode)
    refine ⟨r, _, hrun, fun m_root hm => (hr m_root hm).trans hroot.1.symm, fun h => ?_⟩
    have hrefs := LawfulNodeDB.refs_insert db (EmptyTrie sha3) RLPNull.encode h
    change StateCacheDB.refs _ h = db.cache.refs h + _ at hrefs
    omega
  case isFalse =>
    rw [run_bind_ok (run_pure root db)]
    obtain ⟨r, hrun, hr⟩ := hlast root db
    exact ⟨r, db, hrun, hr, fun h => le_rfl⟩

/-- A trie whose root node is missing throws, and changes nothing. -/
theorem run_op_missing {db : OverlayDB} {root : H256} (h : NodeDB.lookup db root = [])
    (op : TrieOp) : (op.run sha3 fuel root).run db = (.error .assertion, db) := by
  have hnode : (node root : TrieM OverlayDB Bytes).run db = (.ok [], db) := by
    show (Except.ok (NodeDB.lookup db root), db) = _
    rw [h]
  have hnone : (lift (RLP.ofString []) : TrieM OverlayDB (Option RLP)).run db = (.ok none, db) := rfl
  cases op with
  | insert key v =>
    unfold TrieOp.run GenericTrieDB.insert
    dsimp only
    rw [run_bind_ok hnode, run_bind_ok hnone]
    rfl
  | remove key =>
    unfold TrieOp.run GenericTrieDB.remove
    dsimp only
    rw [run_bind_ok hnode, run_bind_ok hnone]
    rfl

/-! ### The invariant -/

variable (sha3) in
/-- How often the tries refer to a hash, the references to their roots included. -/
def held (tries : List (H256 × NodeTree)) (h : H256) : ℕ :=
  (tries.map fun e => refsFrom sha3 e.1 e.2 h).sum

theorem held_append (l₁ l₂ : List (H256 × NodeTree)) (h : H256) :
    held sha3 (l₁ ++ l₂) h = held sha3 l₁ h + held sha3 l₂ h := by
  rw [held, List.map_append, List.sum_append]
  rfl

theorem held_cons (e : H256 × NodeTree) (l : List (H256 × NodeTree)) (h : H256) :
    held sha3 (e :: l) h = refsFrom sha3 e.1 e.2 h + held sha3 l h := by
  rw [held, List.map_cons, List.sum_cons]
  rfl

theorem le_held {tries : List (H256 × NodeTree)} {e : H256 × NodeTree} (he : e ∈ tries)
    (h : H256) : refsFrom sha3 e.1 e.2 h ≤ held sha3 tries h :=
  List.single_le_sum (fun _ _ => Nat.zero_le _) _ (List.mem_map_of_mem he)

variable (sha3) in
structure Session.Keeps (s : Session) (tries : List (H256 × NodeTree)) : Prop where
  grounded : s.db.Grounded sha3 64 s.committed
  roots : s.roots = tries.map Prod.fst
  tracks : ∀ e ∈ tries, Tracks sha3 64 s.db e.1 e.2
  /-- What is not in the database is counted for every trie. -/
  covered : ∀ h, h ≠ EmptyTrie sha3 → NodeDB.lookup s.db.rollback h = [] →
    held sha3 tries h ≤ s.db.cache.refs h

variable {tries : List (H256 × NodeTree)}

/-- Where the overlay is extended and no count falls. -/
theorem Session.Keeps.extend (hk : s.Keeps sha3 tries) {db : OverlayDB}
    (he : Extends sha3 s.db db) (hn : NoCollision sha3 db)
    (hr : ∀ h, s.db.cache.refs h ≤ db.cache.refs h) : ({s with db} : Session).Keeps sha3 tries where
  grounded := hk.grounded.extend he hn
  roots := hk.roots
  tracks e hmem := (hk.tracks e hmem).congr hk.grounded.reliable fun x hx hpos =>
    he.kept hk.grounded.reliable.sound hn x ((hk.tracks e hmem).lookup hx hpos)
  covered h hne hdb := le_trans (hk.covered h hne
    ((OverlayDB.rollback_congr he.store h).symm.trans hdb)) (hr h)

/-- A trie more, whose references are in the database. -/
theorem Session.Keeps.opened (hk : s.Keeps sha3 tries) {root : H256} {t : NodeTree}
    (ht : Tracks sha3 64 s.db root t)
    (hin : ∀ h, h ≠ EmptyTrie sha3 → NodeDB.lookup s.db.rollback h = [] →
      refsFrom sha3 root t h = 0) :
    ({s with roots := s.roots ++ [root]} : Session).Keeps sha3 (tries ++ [(root, t)]) where
  grounded := hk.grounded
  roots := by rw [hk.roots, List.map_append]; rfl
  tracks e he := by
    rcases List.mem_append.mp he with hold | hnew
    · exact hk.tracks e hold
    · rw [List.mem_singleton.mp hnew]
      exact ht
  covered h hne hdb := by
    rw [held_append, held_cons, hin h hne hdb]
    have := hk.covered h hne hdb
    simpa [held] using this

theorem Session.Keeps.openAt (hk : s.Keeps sha3 tries) (root : H256)
    (hn : NoCollision sha3 (s.step sha3 fuel (.openAt root)).db) :
    ∃ tries', (s.step sha3 fuel (.openAt root)).Keeps sha3 tries' := by
  rw [Session.step] at hn ⊢
  split at hn
  case isFalse hno =>
    rw [if_neg hno]
    exact ⟨tries, hk⟩
  case isTrue hok =>
    rw [if_pos hok]
    obtain ⟨r, db, hrun, hr, hrefs⟩ := @run_setRoot sha3 root s.db
    have he : Extends sha3 s.db db := by
      have hgrow : Extends sha3 s.db ((setRoot sha3 root).run s.db).2 := grows_setRoot root s.db
      rwa [hrun] at hgrow
    rw [hrun] at hn ⊢
    cases r with
    | error e => exact ⟨tries, hk.extend he hn hrefs⟩
    | ok m_root =>
      have hm := hr m_root rfl
      subst hm
      have hk' := hk.extend he hn hrefs
      rcases hok with hempty | hcomm
      · subst hempty
        refine ⟨_, hk'.opened (tracks_empty 64 db) fun h hne _ => ?_⟩
        rw [refsFrom, if_neg hne]
        rfl
      · obtain ⟨t, ht⟩ := hk'.grounded.committed _ hcomm
        refine ⟨_, hk'.opened (ht.congr hk'.grounded.below fun x hx hpos =>
          hk'.grounded.lookup_eq (ht.lookup hx hpos)) fun h hne hdb => ?_⟩
        by_contra hpos
        exact ht.lookup hne (Nat.pos_of_ne_zero hpos) hdb

theorem hashed_key_length (op : TrieOp) : 2 * (op.hashed sha3).key.length = 64 := by
  cases op with
  | insert key v => exact congrArg (2 * ·) (sha3 key).size
  | remove key => exact congrArg (2 * ·) (sha3 key).size

/-- The trie that is called gives up its references for those of the new tree. -/
theorem Session.Keeps.change (hf : 69 ≤ fuel) (hk : s.Keeps sha3 tries) (i : ℕ) (op : TrieOp)
    (hn : NoCollision sha3 (s.step sha3 fuel (.change i op)).db) :
    ∃ tries', (s.step sha3 fuel (.change i op)).Keeps sha3 tries' := by
  rw [Session.step] at hn ⊢
  cases hi : tries[i]? with
  | none =>
    have hroot : s.roots[i]? = none := by rw [hk.roots, List.getElem?_map, hi]; rfl
    rw [hroot]
    exact ⟨tries, hk⟩
  | some e =>
    obtain ⟨root, t⟩ := e
    have hroot : s.roots[i]? = some root := by rw [hk.roots, List.getElem?_map, hi]; rfl
    rw [hroot] at hn ⊢
    dsimp only at hn ⊢
    have ht := hk.tracks (root, t) (List.mem_of_getElem? hi)
    by_cases hmiss : NodeDB.lookup s.db root = []
    · rw [run_op_missing hmiss]
      exact ⟨tries, hk⟩
    · have hlen : 2 * (op.hashed sha3).key.length = 64 := hashed_key_length op
      have heven : Even t (asNibbles (op.hashed sha3).key) := ht.uniform.evenKey hlen
      have hgrow : Extends sha3 s.db (((op.hashed sha3).run sha3 fuel root).run s.db).2 :=
        grows_op fuel root (op.hashed sha3) s.db
      have hn' : NoCollision sha3 (((op.hashed sha3).run sha3 fuel root).run s.db).2 := by
        cases hr : ((op.hashed sha3).run sha3 fuel root).run s.db with
        | mk r db =>
          rw [hr] at hn
          cases r with
          | ok m_root => exact hn
          | error e => exact hn
      obtain ⟨root', db', hrun, hholds, hx⟩ := run_op (ht.holds hk.grounded.reliable hmiss)
        (op.hashed sha3) (fun key hkey => by
          rw [show key = (op.hashed sha3).key by rw [hkey]; rfl]
          exact heven.clear ht.canonical) (by omega) hn'
      rw [hrun] at hn' hgrow ⊢
      dsimp only at hn' hgrow ⊢
      obtain ⟨l₁, l₂, hsplit, hl₁⟩ : ∃ l₁ l₂, tries = l₁ ++ (root, t) :: l₂ ∧ l₁.length = i := by
        obtain ⟨hlt, hget⟩ := List.getElem?_eq_some_iff.mp hi
        refine ⟨tries.take i, tries.drop (i + 1), ?_, by rw [List.length_take]; omega⟩
        rw [← hget, ← List.drop_eq_getElem_cons hlt, List.take_append_drop]
      refine ⟨l₁ ++ (root', (op.hashed sha3).onTree t) :: l₂, hk.grounded.extend hgrow hn', ?_,
        fun e he => ?_, fun h hne hdb => ?_⟩
      · show s.roots.set i root' = _
        rw [hk.roots, hsplit, List.map_append, List.map_append, List.map_cons, List.map_cons,
          List.set_append_right _ _ (by rw [List.length_map]; omega), List.length_map, hl₁,
          Nat.sub_self, List.set_cons_zero]
      · have hold : e ∈ tries → Tracks sha3 64 db' e.1 e.2 := fun hmem =>
          (hk.tracks e hmem).congr hk.grounded.reliable fun x hx hpos =>
            hgrow.kept hk.grounded.reliable.sound hn' x ((hk.tracks e hmem).lookup hx hpos)
        rcases List.mem_append.mp he with h₁ | h₂
        · exact hold (by rw [hsplit]; exact List.mem_append_left _ h₁)
        · rcases List.mem_cons.mp h₂ with rfl | h₂
          · exact Tracks.of_holds hholds (ht.uniform.onTree ht.canonical hlen)
          · exact hold (by rw [hsplit]; exact List.mem_append_right _ (List.mem_cons_of_mem _ h₂))
      · have hcov := hk.covered h hne ((OverlayDB.rollback_congr hgrow.store h).symm.trans hdb)
        rw [hsplit, held_append, held_cons] at hcov
        dsimp only at hcov
        have hex := hx heven h (by
          show refsFrom sha3 root t h ≤ s.db.cache.refs h
          omega)
        change db'.cache.refs h + refsFrom sha3 root t h =
          s.db.cache.refs h + refsFrom sha3 root' ((op.hashed sha3).onTree t) h at hex
        rw [held_append, held_cons]
        show held sha3 l₁ h + (refsFrom sha3 root' ((op.hashed sha3).onTree t) h +
          held sha3 l₂ h) ≤ db'.cache.refs h
        omega

theorem Session.Keeps.close (hk : s.Keeps sha3 tries) (i : ℕ) :
    (s.step sha3 fuel (.close i)).Keeps sha3 (tries.eraseIdx i) where
  grounded := hk.grounded
  roots := by
    show s.roots.eraseIdx i = _
    rw [hk.roots, List.eraseIdx_map]
  tracks e he := hk.tracks e ((List.eraseIdx_sublist tries i).subset he)
  covered h hne hdb := le_trans (List.Sublist.sum_le_sum
    ((List.eraseIdx_sublist tries i).map _) fun _ _ => Nat.zero_le _) (hk.covered h hne hdb)

theorem Session.Keeps.insertCode (hk : s.Keeps sha3 tries) (code : Value)
    (hn : NoCollision sha3 (s.step sha3 fuel (.insertCode code)).db) :
    (s.step sha3 fuel (.insertCode code)).Keeps sha3 tries := by
  refine hk.extend (Extends.insert s.db code.2) hn fun h => ?_
  show s.db.cache.refs h ≤ (s.db.cache.insert (sha3 code.1) code.1).refs h
  rw [StateCacheDB.refs_insert]
  exact Nat.le_add_right _ _

/-- The references of a trie in use are in the database after a commit. -/
theorem Session.Keeps.tracks_commit (hk : s.Keeps sha3 tries) {e : H256 × NodeTree}
    (he : e ∈ tries) : Tracks sha3 64 s.db.commit e.1 e.2 :=
  hk.grounded.tracks_commit (hk.tracks e he) fun h hne hdb =>
    le_trans (le_held he h) (hk.covered h hne hdb)

theorem Session.Keeps.commit (hk : s.Keeps sha3 tries) :
    (s.step sha3 fuel .commit).Keeps sha3 tries where
  grounded := by
    refine hk.grounded.commit fun root hroot => ?_
    rw [hk.roots] at hroot
    obtain ⟨e, he, rfl⟩ := List.mem_map.mp hroot
    exact ⟨e.2, hk.tracks_commit he⟩
  roots := hk.roots
  tracks e he := hk.tracks_commit he
  covered h hne hdb := by
    have hback := (OverlayDB.commit_plain hk.grounded.reliable.sound.plain hk.grounded.store).2
    change NodeDB.lookup s.db.commit.rollback h = [] at hdb
    rw [hback] at hdb
    -- what a trie refers to is in the database now
    refine le_trans (le_of_eq (List.sum_eq_zero fun n hmem => ?_)) (Nat.zero_le _)
    obtain ⟨e, he, rfl⟩ := List.mem_map.mp hmem
    by_contra hpos
    exact (hk.tracks_commit he).lookup hne (Nat.pos_of_ne_zero hpos) hdb

theorem Session.Keeps.rollback (hk : s.Keeps sha3 tries) :
    (s.step sha3 fuel .rollback).Keeps sha3 [] where
  grounded := hk.grounded.rollback
  roots := rfl
  tracks e he := by cases he
  covered _ _ _ := Nat.zero_le _

/-- What a request preserves. -/
theorem Session.Keeps.step (hf : 69 ≤ fuel) (hk : s.Keeps sha3 tries) (r : Request)
    (hn : NoCollision sha3 (s.step sha3 fuel r).db) :
    ∃ tries', (s.step sha3 fuel r).Keeps sha3 tries' := by
  cases r with
  | openAt root => exact hk.openAt root hn
  | change i op => exact hk.change hf i op hn
  | close i => exact ⟨_, hk.close i⟩
  | insertCode code => exact ⟨_, hk.insertCode code hn⟩
  | commit => exact ⟨_, hk.commit⟩
  | rollback => exact ⟨_, hk.rollback⟩

/-! ### Runs -/

/-- Apart from `commit` and `rollback`, requests extend the overlay. -/
theorem extends_step (s : Session) (r : Request) :
    r = .commit ∨ r = .rollback ∨ Extends sha3 s.db (s.step sha3 fuel r).db := by
  cases r with
  | openAt root =>
    refine Or.inr (Or.inr ?_)
    have he : Extends sha3 s.db ((setRoot sha3 root).run s.db).2 := grows_setRoot root s.db
    rw [Session.step]
    split
    case isTrue =>
      cases hr : (setRoot sha3 root).run s.db with
      | mk r db =>
        rw [hr] at he
        cases r with
        | ok m_root => exact he
        | error e => exact he
    case isFalse => exact Extends.refl _
  | change i op =>
    refine Or.inr (Or.inr ?_)
    rw [Session.step]
    cases hi : s.roots[i]? with
    | none => exact Extends.refl _
    | some root =>
      have he : Extends sha3 s.db (((op.hashed sha3).run sha3 fuel root).run s.db).2 :=
        grows_op fuel root (op.hashed sha3) s.db
      dsimp only
      cases hr : ((op.hashed sha3).run sha3 fuel root).run s.db with
      | mk r db =>
        rw [hr] at he
        cases r with
        | ok m_root => exact he
        | error e => exact he
  | close i => exact Or.inr (Or.inr (Extends.refl _))
  | insertCode code => exact Or.inr (Or.inr (Extends.insert s.db code.2))
  | commit => exact Or.inl rfl
  | rollback => exact Or.inr (Or.inl rfl)

/-- Nothing is forgotten of what was inserted. -/
theorem step_inserted (s : Session) (r : Request) {b : Bytes} (hb : b ∈ NodeDB.inserted s.db) :
    b ∈ NodeDB.inserted (s.step sha3 fuel r).db := by
  rcases extends_step s r with rfl | rfl | he
  · show b ∈ NodeDB.inserted s.db.commit
    rwa [OverlayDB.commit_inserted]
  · exact hb
  · exact he.log b hb

theorem foldl_inserted (l : List Request) (s : Session) {b : Bytes}
    (hb : b ∈ NodeDB.inserted s.db) :
    b ∈ NodeDB.inserted (l.foldl (Session.step sha3 fuel) s).db := by
  induction l generalizing s with
  | nil => exact hb
  | cons r l ih => exact ih _ (step_inserted s r hb)

theorem noCollision_of_foldl {l : List Request}
    (hn : NoCollision sha3 (l.foldl (Session.step sha3 fuel) s).db) : NoCollision sha3 s.db :=
  ⟨fun a ha b hb => hn.injOn a (foldl_inserted l s ha) b (foldl_inserted l s hb),
    fun a ha => hn.fits a (foldl_inserted l s ha)⟩

/-- What every request preserves, the run preserves. -/
theorem Session.Keeps.foldl (hf : 69 ≤ fuel) (hk : s.Keeps sha3 tries) (l : List Request)
    (hn : NoCollision sha3 (l.foldl (Session.step sha3 fuel) s).db) :
    ∃ tries', (l.foldl (Session.step sha3 fuel) s).Keeps sha3 tries' := by
  induction l generalizing s tries with
  | nil => exact ⟨tries, hk⟩
  | cons r l ih =>
    obtain ⟨tries₁, hk₁⟩ := hk.step hf r (noCollision_of_foldl (l := l) hn)
    exact ih hk₁ hn

theorem keeps_initial (hn : NoCollision sha3 (Session.initial sha3).db) :
    (Session.initial sha3).Keeps sha3 [(EmptyTrie sha3, .empty)] := by
  have hin : NodeDB.inserted (Session.initial sha3).db = [RLPNull.encode] := rfl
  have hrollback : ∀ h, NodeDB.lookup (Session.initial sha3).db.rollback h = [] := fun h => rfl
  have hnone : Sound sha3 (⟨StateCacheDB.empty, some fun _ => []⟩ : OverlayDB) := by
    refine ⟨⟨rfl, fun h s refs hl => by cases hl⟩, fun h hne => ?_⟩
    exact (hne rfl).elim
  refine ⟨⟨rfl, ⟨?_, hn, ?_⟩, ⟨⟨⟨rfl, fun h s refs hl => by cases hl⟩, fun h hne => ?_⟩,
    ⟨hn.injOn, hn.fits⟩, ?_⟩, fun root hroot => by cases hroot⟩, rfl, fun e he => ?_,
    fun h hne _ => ?_⟩
  · exact (Extends.insert _ (encode_ne_nil RLPNull)).sound hnone
  · rw [hin]
    exact List.mem_singleton_self _
  · exact (hne (hrollback h)).elim
  · exact List.mem_singleton_self _
  · rw [List.mem_singleton.mp he]
    exact tracks_empty 64 _
  · refine le_trans (le_of_eq ?_) (Nat.zero_le _)
    rw [held_cons, refsFrom, if_neg hne]
    rfl

/-- What is in the database stays there. -/
theorem Session.Keeps.inDatabase_step (hk : s.Keeps sha3 tries) (r : Request) {h : H256}
    (hne : NodeDB.lookup s.db.rollback h ≠ []) :
    NodeDB.lookup (s.step sha3 fuel r).db.rollback h = NodeDB.lookup s.db.rollback h := by
  rcases @extends_step sha3 fuel s r with rfl | rfl | he
  · have hback := (OverlayDB.commit_plain hk.grounded.reliable.sound.plain hk.grounded.store).2
    show NodeDB.lookup s.db.commit.rollback h = _
    rw [hback]
    exact hk.grounded.lookup_commit hne
  · rfl
  · exact OverlayDB.rollback_congr he.store h

theorem Session.Keeps.inDatabase_foldl (hf : 69 ≤ fuel) (hk : s.Keeps sha3 tries)
    {l : List Request} (hn : NoCollision sha3 (l.foldl (Session.step sha3 fuel) s).db) {h : H256}
    (hne : NodeDB.lookup s.db.rollback h ≠ []) :
    NodeDB.lookup (l.foldl (Session.step sha3 fuel) s).db.rollback h =
      NodeDB.lookup s.db.rollback h := by
  induction l generalizing s tries with
  | nil => rfl
  | cons r l ih =>
    have hstep : NodeDB.lookup (s.step sha3 fuel r).db.rollback h =
        NodeDB.lookup s.db.rollback h := hk.inDatabase_step r hne
    obtain ⟨tries₁, hk₁⟩ := hk.step hf r (noCollision_of_foldl (l := l) hn)
    exact (ih hk₁ hn (by rw [hstep]; exact hne)).trans hstep

end Sessions

/-! ### Sessions with real hashes -/

/-- The keys and nodes of the sessions below, with their Keccak-256 hashes. -/
def overlaySamples : List (ℕ × ℕ × ℕ) :=
  [(1, 0x01, 0x5fe7f977e71dba2ea1a68e21057beebb9be2ac30c6410aa38d4f3fbe41dcffd2),
   (1, 0x02, 0xf2ee15ea639b73fa3db9b34a245bdfa015c260c598b211bf05a1ecc4b3e3b4f2),
   (1, 0x03, 0x69c322e3248a5dfc29d73c5b0553b0185a35cd5bb6386747517ef7e53b15e287),
   (1, 0x80, 0x56e81f171bcc55a6ff8345e692c0f86e5b48e01b996cadc001622fb5e363b421),
   (36, 0xe3a1205fe7f977e71dba2ea1a68e21057beebb9be2ac30c6410aa38d4f3fbe41dcffd261,
    0x2c6db26c7fd029aaff75fe6cf73de53020a5d3f7fd0589b6e11b5a5eb6ebd532),
   (35, 0xe2a03fe7f977e71dba2ea1a68e21057beebb9be2ac30c6410aa38d4f3fbe41dcffd261,
    0x586e06bf12cfb9062de9367950a417eaa486d21e3552ac43044869156ed55036),
   (35, 0xe2a032ee15ea639b73fa3db9b34a245bdfa015c260c598b211bf05a1ecc4b3e3b4f262,
    0x2bb61f7e6a9b990262729b04f314e89d7380d357493c339afab8fdb3a8fa606b),
   (83, (0xf8518080808080a0586e06bf12cfb9062de9367950a417 * 2 ^ 240 +
     0xeaa486d21e3552ac43044869156ed55036808080808080808080a02bb61f) * 2 ^ 240 +
     0x7e6a9b990262729b04f314e89d7380d357493c339afab8fdb3a8fa606b80,
    0x2b069e2e23c1d8ea9fcc111545b9a3f3dc76db0648df1b02b2062868ac5e99a4),
   (36, 0xe3a12069c322e3248a5dfc29d73c5b0553b0185a35cd5bb6386747517ef7e53b15e28763,
    0x9757343aa36610ea5dc1afc47365186d512368b0d736a580befae2ad5bff842e),
   (36, 0xe3a120f2ee15ea639b73fa3db9b34a245bdfa015c260c598b211bf05a1ecc4b3e3b4f262,
    0xb56731c149b646fb687c6a751f3e1cff15b6dfe23421c63497faa0ba7e355b38)]

/-- Keccak-256 on the sample strings. -/
def overlaySha3 (b : Bytes) : H256 :=
  H256.alignRight (toBigEndian 32
    (((overlaySamples.find? fun e => toBigEndian e.1 e.2.1 = b).map fun e => e.2.2).getD 0))

def oneByte (x : UInt8) : Value := ⟨[x], List.cons_ne_nil x []⟩

/-- A storage trie of two keys, and an account. -/
def beforeCommit : List Request :=
  [.openAt (EmptyTrie overlaySha3), .change 1 (.insert [1] shortValue),
    .change 1 (.insert [2] (oneByte 0x62)), .change 0 (.insert [3] (oneByte 0x63))]

/-- A key is removed from the storage trie; then everything is rolled back. -/
def afterCommit : List Request := [.change 1 (.remove [1]), .rollback]

/-- The root of the storage trie. -/
def storageRoot : H256 :=
  H256.alignRight (toBigEndian 32 0x2b069e2e23c1d8ea9fcc111545b9a3f3dc76db0648df1b02b2062868ac5e99a4)

/-- An account with empty storage: the storage trie is opened at the empty trie's root, whose only
reference the state trie gives up. -/
def emptyStorage : List Request :=
  [.openAt (EmptyTrie overlaySha3), .change 0 (.insert [3] (oneByte 0x63))]

end Aleth.Devcore
