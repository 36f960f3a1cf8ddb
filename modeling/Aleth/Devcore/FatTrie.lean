import Aleth.Devcore.TrieIteration

/-! Tries by hashed keys that remember the original ones (`TrieDB.h`, `FatGenericTrieDB`).

The key of an entry is the hash of the caller's key, and an auxiliary table of the
database leads back from the hash. Two iterators read the table: `iterator`, which
yields (key, value) pairs, and `HashedIterator`, which yields hashed keys.
`begin()` is `iterator()` and so the end; `SpecificTrieDB::begin()` is
`iterator(this)`. `fat_lists_iff` says what comes of the first, `specific_lists`
what comes of the second. -/
namespace Aleth.Devcore
open Patricia Patricia.Tree Throwing GenericTrieDB

/-- `h256(bytesConstRef)`: zero if the size is another. -/
def H256.ofRef (b : Bytes) : H256 := if b.length = 32 then H256.alignRight b else H256.zero

@[simp] theorem H256.ofRef_bytes (h : H256) : H256.ofRef h.bytes = h := by
  rw [H256.ofRef, if_pos h.size, H256.alignRight_bytes]

/-- A node store with the original keys beside it. The flag of an entry is left out: only
`removeAux`, which nothing calls, clears it. -/
structure WithAux (σ : Type) where
  main : σ
  m_aux : AList (fun _ : H256 => Bytes)
  /-- The database below, where the keys stand under the hash with 255 appended. -/
  below : H256 → Bytes

namespace WithAux
variable {σ : Type}

def insertAux (db : WithAux σ) (h : H256) (v : Bytes) : WithAux σ :=
  {db with m_aux := db.m_aux.insert h v}

def lookupAux (db : WithAux σ) (h : H256) : Bytes :=
  let ret := (db.m_aux.lookup h).getD []
  if ret ≠ [] then ret else db.below h

theorem lookupAux_insertAux (db : WithAux σ) (h : H256) {v : Bytes} (hv : v ≠ []) (h' : H256) :
    (db.insertAux h v).lookupAux h' = if h' = h then v else db.lookupAux h' := by
  unfold lookupAux insertAux
  by_cases e : h' = h
  · subst e
    simp [hv]
  · simp [AList.lookup_insert_ne e, e]

end WithAux

namespace FatGenericTrieDB

abbrev FatM (σ : Type) := Throwing (WithAux σ) TrieError

section Model
variable {σ : Type} [NodeDB σ] (sha3 : Bytes → H256)

/-- A call of the trie of hashed keys. -/
def super {α : Type} (x : TrieM σ α) : FatM σ α := fun db =>
  ((x.run db.main).1, {db with main := (x.run db.main).2})

def insert (fuel : ℕ) (root : H256) (key value : Bytes) : FatM σ H256 := do
  let hash := sha3 key
  let root ← super (GenericTrieDB.insert sha3 fuel root hash.bytes value)
  modify fun db => db.insertAux hash key
  return root

def remove (fuel : ℕ) (root : H256) (key : Bytes) : FatM σ H256 :=
  super (GenericTrieDB.remove sha3 fuel root (sha3 key).bytes)

/-- `begin()`, which is `iterator()`. -/
def begin : List TrailNode := end_

/-- `SpecificTrieDB::begin()`, which is `iterator(this)`. -/
def specificBegin (fuel : ℕ) (root : H256) : FatM σ (List TrailNode) :=
  super (GenericTrieDB.begin fuel root)

/-- `iterator::at`. -/
def entryAt (it : List TrailNode) : FatM σ (Bytes × Bytes) := do
  let hashed ← super (GenericTrieDB.entryAt it)
  let db ← get
  return (db.lookupAux (H256.ofRef hashed.1), hashed.2)

/-- What a loop from `it` to `end()` sees. -/
def visited : (fuel : ℕ) → List TrailNode → FatM σ (List (Bytes × Bytes))
  | 0, _ => throw .stackOverflow
  | fuel + 1, it =>
    if it = end_ then return []
    else do
      let e ← entryAt it
      let it ← super (next fuel it)
      let es ← visited fuel it
      return e :: es

end Model

/-! ### Calls -/

inductive FatCall where
  | insert (key : Bytes) (value : Value)
  | remove (key : Bytes)

section Calls
variable (sha3 : Bytes → H256)

def FatCall.run {σ : Type} [NodeDB σ] (fuel : ℕ) (root : H256) : FatCall → FatM σ H256
  | .insert key value => FatGenericTrieDB.insert sha3 fuel root key value.1
  | .remove key => FatGenericTrieDB.remove sha3 fuel root key

def runCalls {σ : Type} [NodeDB σ] (fuel : ℕ) : List FatCall → H256 → FatM σ H256
  | [], root => return root
  | call :: calls, root => call.run sha3 fuel root >>= runCalls fuel calls

def fresh : WithAux StateCacheDB := ⟨StateCacheDB.empty, ∅, fun _ => []⟩

/-- `init`, then the calls. -/
def runFresh (fuel : ℕ) (calls : List FatCall) : FatM StateCacheDB H256 :=
  super (GenericTrieDB.init sha3) >>= runCalls sha3 fuel calls

/-- The call on the trie of hashed keys. -/
def FatCall.hashed : FatCall → TrieOp
  | .insert key value => .insert (sha3 key).bytes value
  | .remove key => .remove (sha3 key).bytes

/-- What the call does to the original keys. -/
def FatCall.noted {σ : Type} (db : WithAux σ) : FatCall → WithAux σ
  | .insert key _ => db.insertAux (sha3 key) key
  | .remove _ => db

end Calls

/-- The map from original keys to current values. -/
def FatCall.onMap (m : BytesMap) : FatCall → BytesMap
  | .insert key value => m.insert key value.1
  | .remove key => m.erase key

def present (calls : List FatCall) : BytesMap := calls.foldl FatCall.onMap .empty

/-- Every insertion is followed by a removal of its key. -/
def Withdrawn : List FatCall → Prop
  | [] => True
  | .insert key _ :: calls => .remove key ∈ calls ∧ Withdrawn calls
  | .remove _ :: calls => Withdrawn calls

section Runs
variable {sha3 : Bytes → H256} {σ : Type} [NodeDB σ]

theorem run_super {α : Type} (x : TrieM σ α) (db : WithAux σ) :
    (super x).run db = ((x.run db.main).1, {db with main := (x.run db.main).2}) := rfl

variable (sha3) in
/-- A call does to the trie what the call with the hashed key does. -/
theorem run_call (fuel : ℕ) (root : H256) (call : FatCall) (db : WithAux σ) :
    ((call.hashed sha3).run sha3 fuel root).run db.main =
      (((call.run sha3 fuel root).run db).1, ((call.run sha3 fuel root).run db).2.main) := by
  cases call with
  | remove key => rfl
  | insert key value =>
    show (GenericTrieDB.insert sha3 fuel root (sha3 key).bytes value.1).run db.main =
      (((FatGenericTrieDB.insert sha3 fuel root key value.1).run db).1,
        ((FatGenericTrieDB.insert sha3 fuel root key value.1).run db).2.main)
    unfold FatGenericTrieDB.insert
    rw [run_bind, run_super]
    rcases (GenericTrieDB.insert sha3 fuel root (sha3 key).bytes value.1).run db.main with ⟨_ | _, _⟩
    · rfl
    · rfl

variable (sha3) in
theorem run_runCalls (fuel : ℕ) (calls : List FatCall) (root : H256) (db : WithAux σ) :
    (runOps sha3 fuel (calls.map (FatCall.hashed sha3)) root).run db.main =
      (((runCalls sha3 fuel calls root).run db).1,
        ((runCalls sha3 fuel calls root).run db).2.main) := by
  induction calls generalizing root db with
  | nil => rfl
  | cons call calls ih =>
    rw [runCalls, List.map_cons, runOps, run_bind, run_bind, run_call]
    rcases (call.run sha3 fuel root).run db with ⟨_ | root', db'⟩
    · rfl
    · exact ih root' db'

/-- Beside the nodes, a call that returns changes the table only. -/
theorem db_call {fuel : ℕ} {root root' : H256} {call : FatCall} {db db' : WithAux σ}
    (h : (call.run sha3 fuel root).run db = (.ok root', db')) :
    db' = {call.noted sha3 db with main := db'.main} := by
  cases call with
  | remove key =>
    have hdb : _ = db' := congrArg Prod.snd h
    rw [← hdb]
    rfl
  | insert key value =>
    change (FatGenericTrieDB.insert sha3 fuel root key value.1).run db = _ at h
    unfold FatGenericTrieDB.insert at h
    rw [run_bind, run_super] at h
    rcases hi : (GenericTrieDB.insert sha3 fuel root (sha3 key).bytes value.1).run db.main with
      ⟨_ | _, _⟩
    · rw [hi] at h
      cases h
    · rw [hi] at h
      cases h
      rfl

/-! ### What the trie and the table hold -/

variable (sha3) in
/-- The trie at `root` holds the values of `m` under the hashes of its keys, and the table leads
back to the keys. -/
structure Keyed [LawfulNodeDB σ] (db : WithAux σ) (root : H256) (m : BytesMap) : Prop where
  trie : ∃ t hashed, Holds sha3 db.main root t ∧ Realizes t hashed ∧
    ∀ h v, hashed.find h = some v ↔ ∃ key, h = (sha3 key).bytes ∧ m.find key = some v
  names : ∀ key, (m.find key).isSome = true → db.lookupAux (sha3 key) = key

/-- Below the table there is only what the table has. -/
def Covered (db : WithAux σ) : Prop := ∀ h, db.below h = []

def FatCall.key : FatCall → Bytes
  | .insert key _ => key
  | .remove key => key

theorem lookupAux_noted {db : WithAux σ} (hb : Covered db) (h : H256) (v : Bytes) (h' : H256) :
    (db.insertAux h v).lookupAux h' = if h' = h then v else db.lookupAux h' := by
  cases v with
  | cons x v => exact WithAux.lookupAux_insertAux db h (by simp) h'
  | nil =>
    unfold WithAux.lookupAux WithAux.insertAux
    by_cases e : h' = h
    · subst e
      simp [hb h']
    · simp [AList.lookup_insert_ne e, e]

theorem uniform_hashed {t : NodeTree} {hashed m : BytesMap}
    (hr : Realizes t hashed)
    (hm : ∀ h v, hashed.find h = some v ↔ ∃ key, h = (sha3 key).bytes ∧ m.find key = some v) :
    Uniform 64 t := by
  intro k hk
  obtain ⟨p, rfl⟩ := hr.key hk
  rw [hr.isSome, Option.isSome_iff_exists] at hk
  obtain ⟨v, hv⟩ := hk
  obtain ⟨key, rfl, _⟩ := (hm p v).mp hv
  rw [asNibbles_length, (sha3 key).size]

theorem hashed_onMap {hashed m : BytesMap} (call : FatCall)
    (hm : ∀ h v, hashed.find h = some v ↔ ∃ key, h = (sha3 key).bytes ∧ m.find key = some v)
    (hinj : ∀ key, (m.find key).isSome = true → sha3 key = sha3 call.key → key = call.key)
    (h v : Bytes) : ((call.hashed sha3).onMap hashed).find h = some v ↔
      ∃ key, h = (sha3 key).bytes ∧ (call.onMap m).find key = some v := by
  have hsame : ∀ {key w}, m.find key = some w → (sha3 key).bytes = (sha3 call.key).bytes →
      key = call.key := fun {key w} hw hb => by
    refine hinj key (by rw [hw]; rfl) ?_
    rw [← H256.ofRef_bytes (sha3 key), hb, H256.ofRef_bytes]
  cases call with
  | insert key value =>
    show (SortedMap.insert hashed (sha3 key).bytes value.1).find h = some v ↔
      ∃ k, h = (sha3 k).bytes ∧ (SortedMap.insert m key value.1).find k = some v
    rw [SortedMap.find_insert]
    simp only [SortedMap.find_insert]
    by_cases e : h = (sha3 key).bytes
    · subst e
      rw [if_pos rfl]
      constructor
      · exact fun hv => ⟨key, rfl, by rw [if_pos rfl, hv]⟩
      · rintro ⟨k, hk, hv⟩
        by_cases ek : k = key
        · rwa [if_pos ek] at hv
        · rw [if_neg ek] at hv
          exact absurd (hsame hv hk.symm) ek
    · rw [if_neg e, hm]
      refine exists_congr fun k => and_congr_right fun hk => ?_
      rw [if_neg (by rintro rfl; exact e hk)]
  | remove key =>
    show (SortedMap.erase hashed (sha3 key).bytes).find h = some v ↔
      ∃ k, h = (sha3 k).bytes ∧ (SortedMap.erase m key).find k = some v
    rw [SortedMap.find_erase]
    simp only [SortedMap.find_erase]
    by_cases e : h = (sha3 key).bytes
    · subst e
      rw [if_pos rfl]
      constructor
      · intro hv
        cases hv
      · rintro ⟨k, hk, hv⟩
        by_cases ek : k = key
        · rw [if_pos ek] at hv
          cases hv
        · rw [if_neg ek] at hv
          exact absurd (hsame hv hk.symm) ek
    · rw [if_neg e, hm]
      refine exists_congr fun k => and_congr_right fun hk => ?_
      rw [if_neg (by rintro rfl; exact e hk)]

variable [LawfulNodeDB σ] {root : H256} {m : BytesMap} {fuel : ℕ}

/-- One call. -/
theorem Keyed.call {db : WithAux σ} (h : Keyed sha3 db root m) (hb : Covered db) (call : FatCall)
    (hinj : ∀ key, (m.find key).isSome = true → sha3 key = sha3 call.key → key = call.key)
    (hf : 69 ≤ fuel) (hn : NoCollision sha3 ((call.run sha3 fuel root).run db).2.main) :
    ∃ root' db', (call.run sha3 fuel root).run db = (.ok root', db') ∧
      Keyed sha3 db' root' (call.onMap m) ∧ Covered db' := by
  obtain ⟨t, hashed, hholds, hreal, hm⟩ := h.trie
  have hkey : 2 * (call.hashed sha3).key.length = 64 := by
    cases call <;> exact congrArg (2 * ·) (sha3 _).size
  have hrun := run_call sha3 fuel root call db
  have heven := (uniform_hashed hreal hm).evenKey hkey
  have hmain : (((call.hashed sha3).run sha3 fuel root).run db.main).2 =
      ((call.run sha3 fuel root).run db).2.main := by rw [hrun]
  obtain ⟨root', main', hop, hholds', _⟩ := run_op hholds (call.hashed sha3)
    (fun key hk => by rw [hk] at heven; exact heven.clear hholds.canonical)
    (show 2 * (call.hashed sha3).key.length + 5 ≤ fuel by omega) (by rw [hmain]; exact hn)
  rw [hrun] at hop
  obtain ⟨hok, hmain'⟩ := Prod.mk.inj hop
  have hpair : (call.run sha3 fuel root).run db =
      (.ok root', ((call.run sha3 fuel root).run db).2) := by rw [← hok]
  have hdb := db_call hpair
  refine ⟨root', _, hpair, ⟨⟨_, _, ?_, realizes_onTree hholds.canonical hreal (call.hashed sha3),
    hashed_onMap call hm hinj⟩, fun key hkey => ?_⟩, ?_⟩
  · rw [hmain']
    exact hholds'
  · rw [hdb]
    cases call with
    | remove key' =>
      have hfind : ((SortedMap.erase m key').find key).isSome = true := hkey
      rw [SortedMap.find_erase] at hfind
      split at hfind
      · cases hfind
      · exact h.names key hfind
    | insert key' value =>
      have hfind : ((SortedMap.insert m key' value.1).find key).isSome = true := hkey
      show (db.insertAux (sha3 key') key').lookupAux (sha3 key) = key
      rw [SortedMap.find_insert] at hfind
      rw [lookupAux_noted hb]
      split
      case isTrue heq =>
        split at hfind
        · exact (‹key = key'›).symm
        · exact (hinj key hfind heq).symm
      case isFalse hne =>
        split at hfind
        · exact absurd (congrArg sha3 ‹key = key'›) hne
        · exact h.names key hfind
  · rw [hdb]
    cases call with
    | remove key' => exact hb
    | insert key' value => exact hb

/-- Distinct keys of the calls have distinct hashes. -/
def Apart (sha3 : Bytes → H256) (calls : List FatCall) : Prop :=
  ∀ c ∈ calls, ∀ c' ∈ calls, sha3 c.key = sha3 c'.key → c.key = c'.key

/-- A key of the map is a key of a call. -/
theorem key_of_onMap {call : FatCall} {key : Bytes} (h : ((call.onMap m).find key).isSome = true) :
    key = call.key ∨ (m.find key).isSome = true := by
  cases call with
  | insert key' value =>
    have hfind : ((SortedMap.insert m key' value.1).find key).isSome = true := h
    rw [SortedMap.find_insert] at hfind
    split at hfind
    · exact .inl ‹key = key'›
    · exact .inr hfind
  | remove key' =>
    have hfind : ((SortedMap.erase m key').find key).isSome = true := h
    rw [SortedMap.find_erase] at hfind
    split at hfind
    · cases hfind
    · exact .inr hfind

theorem grows_call (fuel : ℕ) (root : H256) (call : FatCall) (db : WithAux σ) :
    Extends sha3 db.main ((call.run sha3 fuel root).run db).2.main := by
  have hrun := run_call sha3 fuel root call db
  have hgrow := (grows_op fuel root (call.hashed sha3) : Grows (Extends sha3) _) db.main
  rwa [hrun] at hgrow

theorem grows_calls (fuel : ℕ) (calls : List FatCall) (root : H256) (db : WithAux σ) :
    Extends sha3 db.main ((runCalls sha3 fuel calls root).run db).2.main := by
  have hrun := run_runCalls sha3 fuel calls root db
  have hgrow := grows_runOps sha3 fuel (calls.map (FatCall.hashed sha3)) root db.main
  rwa [hrun] at hgrow

/-- Any calls. -/
theorem Keyed.calls {calls : List FatCall} {db : WithAux σ} (h : Keyed sha3 db root m)
    (hb : Covered db) (hinj : Apart sha3 calls)
    (hold : ∀ key, (m.find key).isSome = true → ∀ c ∈ calls, sha3 key = sha3 c.key → key = c.key)
    (hf : 69 ≤ fuel) (hn : NoCollision sha3 ((runCalls sha3 fuel calls root).run db).2.main) :
    ∃ root' db', (runCalls sha3 fuel calls root).run db = (.ok root', db') ∧
      Keyed sha3 db' root' (calls.foldl FatCall.onMap m) := by
  induction calls generalizing db root m with
  | nil => exact ⟨root, db, rfl, h⟩
  | cons call calls ih =>
    rw [runCalls] at hn ⊢
    have hn₁ : NoCollision sha3 ((call.run sha3 fuel root).run db).2.main := by
      rw [run_bind] at hn
      rcases hrun : (call.run sha3 fuel root).run db with ⟨_ | root', db'⟩
      · rw [hrun] at hn
        exact hn
      · rw [hrun] at hn
        exact hn.of_extends (grows_calls fuel calls root' db')
    obtain ⟨root', db', hrun, hkeyed, hb'⟩ :=
      h.call hb call (fun key hkey => hold key hkey call List.mem_cons_self) hf hn₁
    rw [run_bind_ok hrun] at hn ⊢
    refine ih hkeyed hb' (fun c hc c' hc' => hinj c (List.mem_cons_of_mem _ hc) c'
      (List.mem_cons_of_mem _ hc')) (fun key hkey c hc => ?_) hn
    rcases key_of_onMap hkey with rfl | hkey
    · exact hinj call List.mem_cons_self c (List.mem_cons_of_mem _ hc)
    · exact hold key hkey c (List.mem_cons_of_mem _ hc)

theorem keyed_init {db : WithAux σ} (hs : Sound sha3 db.main)
    (hn : NoCollision sha3 ((super (GenericTrieDB.init sha3)).run db).2.main) :
    ∃ db', (super (GenericTrieDB.init sha3)).run db = (.ok (GenericTrieDB.EmptyTrie sha3), db') ∧
      Keyed sha3 db' (GenericTrieDB.EmptyTrie sha3) .empty ∧ (Covered db → Covered db') := by
  obtain ⟨main', hrun, hholds, _⟩ := run_init hs hn
  refine ⟨{db with main := main'}, by rw [run_super, hrun], ⟨⟨.empty, .empty, hholds,
    fun k v => by simp, fun h v => by simp⟩, fun key hkey => ?_⟩, id⟩
  simp at hkey

end Runs

section Fresh
variable {sha3 : Bytes → H256}

variable (sha3) in
theorem run_runFresh_main (fuel : ℕ) (calls : List FatCall) :
    (runFromInit sha3 fuel (calls.map (FatCall.hashed sha3))).run StateCacheDB.empty =
      (((runFresh sha3 fuel calls).run fresh).1, ((runFresh sha3 fuel calls).run fresh).2.main) := by
  unfold runFromInit runFresh
  rw [run_bind, run_bind]
  exact run_runCalls sha3 fuel calls (GenericTrieDB.EmptyTrie sha3)
    {fresh with main := ((GenericTrieDB.init sha3).run fresh.main).2}

/-- Calls on a new trie return. -/
theorem run_runFresh {fuel : ℕ} (hf : 69 ≤ fuel) {calls : List FatCall}
    (hn : NoCollision sha3 ((runFresh sha3 fuel calls).run fresh).2.main) :
    ∃ root db, (runFresh sha3 fuel calls).run fresh = (.ok root, db) := by
  have hmain := run_runFresh_main sha3 fuel calls
  have hlen : ∀ op ∈ calls.map (FatCall.hashed sha3), 2 * op.key.length = 64 := by
    intro op hop
    obtain ⟨call, _, rfl⟩ := List.mem_map.mp hop
    cases call <;> exact congrArg (2 * ·) (sha3 _).size
  obtain ⟨root, db, hrun, _⟩ := run_fromInit (show 64 + 5 ≤ fuel from hf) hlen (by rw [hmain]; exact hn)
  rw [hmain] at hrun
  obtain ⟨hok, _⟩ := Prod.mk.inj hrun
  exact ⟨root, ((runFresh sha3 fuel calls).run fresh).2, by rw [← hok]⟩

theorem sound_fresh : Sound sha3 fresh.main := sound_empty

/-- The table of a new trie leads back to the keys of the calls. -/
theorem keyed_runFresh {fuel : ℕ} (hf : 69 ≤ fuel) {calls : List FatCall}
    (hinj : Apart sha3 calls)
    (hn : NoCollision sha3 ((runFresh sha3 fuel calls).run fresh).2.main) :
    ∃ root db, (runFresh sha3 fuel calls).run fresh = (.ok root, db) ∧
      Keyed sha3 db root (present calls) := by
  unfold runFresh at hn ⊢
  have hn₀ : NoCollision sha3 ((super (GenericTrieDB.init sha3)).run fresh).2.main :=
    hn.of_extends (grows_calls fuel calls (GenericTrieDB.EmptyTrie sha3) _)
  obtain ⟨db₀, hrun₀, hkeyed₀, hb⟩ := keyed_init sound_fresh hn₀
  rw [run_bind_ok hrun₀] at hn ⊢
  refine hkeyed₀.calls (hb fun _ => rfl) hinj (fun key hkey => ?_) hf hn
  simp at hkey

/-! ### The two iterations -/

theorem entries_eq_nil_iff {m : BytesMap} :
    m.entries = [] ↔ ∀ key, ¬(m.find key).isSome = true := by
  constructor
  · intro h key hkey
    obtain ⟨v, hv⟩ := Option.isSome_iff_exists.mp hkey
    have hmem := SortedMap.find_eq_some_iff.mp hv
    rw [h] at hmem
    cases hmem
  · intro h
    refine List.eq_nil_iff_forall_not_mem.mpr fun e he => h e.1 ?_
    rw [SortedMap.find_eq_some_iff.mpr he]
    rfl

/-- What is left of a map is nothing when its keys, and those inserted, are removed. -/
theorem calls_eq_nil_iff {calls : List FatCall} {m : BytesMap} :
    (calls.foldl FatCall.onMap m).entries = [] ↔
      (∀ key, (m.find key).isSome = true → FatCall.remove key ∈ calls) ∧ Withdrawn calls := by
  induction calls generalizing m with
  | nil =>
    rw [List.foldl_nil, entries_eq_nil_iff]
    simp [Withdrawn]
  | cons call calls ih =>
    rw [List.foldl_cons, ih]
    cases call with
    | insert k v =>
      have hfind : ∀ key, ((FatCall.onMap m (.insert k v)).find key).isSome = true ↔
          key = k ∨ (m.find key).isSome = true := by
        intro key
        show ((SortedMap.insert m k v.1).find key).isSome = true ↔ _
        rw [SortedMap.find_insert]
        split
        · simp [*]
        · simp [*]
      simp only [hfind, or_imp, forall_and, forall_eq, Withdrawn, List.mem_cons, reduceCtorEq,
        false_or]
      tauto
    | remove k =>
      have hfind : ∀ key, ((FatCall.onMap m (.remove k)).find key).isSome = true ↔
          key ≠ k ∧ (m.find key).isSome = true := by
        intro key
        show ((SortedMap.erase m k).find key).isSome = true ↔ _
        rw [SortedMap.find_erase]
        split
        · simp [*]
        · simp [*]
      simp only [hfind, Withdrawn, List.mem_cons, FatCall.remove.injEq]
      refine and_congr_left fun _ => forall_congr' fun key => ?_
      tauto

/-- What a loop over the keys sees: the hashes in order, led back by the table. -/
theorem run_visited {σ : Type} [NodeDB σ] [LawfulNodeDB σ] {db : WithAux σ}
    (hs : Sound sha3 db.main) (hn : NoCollision sha3 db.main) {it : List TrailNode}
    {es : List (List Nibble × Value)} (h : Stands sha3 db.main it es) {bs : List (Bytes × Bytes)}
    (hm : Matches es bs) : ∃ n, ∀ fuel, (visited (n + fuel) it).run db =
      (.ok (bs.map fun e => (db.lookupAux (H256.ofRef e.1), e.2)), db) := by
  induction es generalizing it bs with
  | nil =>
    cases h
    obtain rfl : bs = [] := List.map_eq_nil_iff.mp hm.symm
    refine ⟨1, fun fuel => ?_⟩
    rw [Nat.add_comm]
    rfl
  | cons e es ih =>
    obtain ⟨key, bs, rfl, hk, hm'⟩ := hm.cons
    obtain ⟨hne, hentry, n₁, it', hit', hnext⟩ := h.step hs hn hk
    obtain ⟨n₂, hvisit⟩ := ih hit' hm'
    refine ⟨n₁ + n₂ + 1, fun fuel => ?_⟩
    have h₁ := hnext (n₂ + fuel)
    have h₂ := hvisit (n₁ + fuel)
    rw [show n₂ + (n₁ + fuel) = n₁ + (n₂ + fuel) by omega] at h₂
    have hread : (entryAt it).run db = (.ok (db.lookupAux (H256.ofRef key), e.2.1), db) := by
      unfold FatGenericTrieDB.entryAt
      rw [run_bind_ok (by rw [run_super, hentry])]
      rfl
    have hmove : (super (next (n₁ + (n₂ + fuel)) it)).run db = (.ok it', db) := by
      rw [run_super, h₁]
    rw [show n₁ + n₂ + 1 + fuel = n₁ + (n₂ + fuel) + 1 by omega, visited, if_neg hne,
      run_bind_ok hread, run_bind_ok hmove, run_bind_ok h₂, run_pure]
    rfl

/-- The pairs that the hashed entries stand for are those of the map. -/
theorem perm_of_keyed {σ : Type} {db : WithAux σ} {hashed m : BytesMap}
    (hm : ∀ h v, hashed.find h = some v ↔ ∃ key, h = (sha3 key).bytes ∧ m.find key = some v)
    (hnames : ∀ key, (m.find key).isSome = true → db.lookupAux (sha3 key) = key) :
    (hashed.entries.map fun e => (db.lookupAux (H256.ofRef e.1), e.2)).Perm m.entries := by
  have hback : ∀ e ∈ hashed.entries, ∃ key, e.1 = (sha3 key).bytes ∧ m.find key = some e.2 ∧
      db.lookupAux (H256.ofRef e.1) = key := by
    intro e he
    obtain ⟨key, hk, hv⟩ := (hm e.1 e.2).mp (SortedMap.find_eq_some_iff.mpr he)
    refine ⟨key, hk, hv, ?_⟩
    rw [hk, H256.ofRef_bytes]
    exact hnames key (by rw [hv]; rfl)
  refine (List.perm_ext_iff_of_nodup ?_ m.entries_nodup).mpr fun e => ?_
  · refine List.Nodup.map_on (fun e he e' he' heq => ?_) hashed.entries_nodup
    obtain ⟨key, hk, _, hl⟩ := hback e he
    obtain ⟨key', hk', _, hl'⟩ := hback e' he'
    obtain ⟨hfst, hsnd⟩ := Prod.mk.inj heq
    rw [hl, hl'] at hfst
    exact Prod.ext (by rw [hk, hk', hfst]) hsnd
  · simp only [List.mem_map]
    constructor
    · rintro ⟨x, hx, rfl⟩
      obtain ⟨key, _, hv, hl⟩ := hback x hx
      rw [hl]
      exact SortedMap.find_eq_some_iff.mp hv
    · intro he
      have hv : m.find e.1 = some e.2 := SortedMap.find_eq_some_iff.mpr he
      refine ⟨((sha3 e.1).bytes, e.2),
        SortedMap.find_eq_some_iff.mp ((hm _ _).mpr ⟨e.1, rfl, hv⟩), ?_⟩
      rw [H256.ofRef_bytes, hnames e.1 (by rw [hv]; rfl)]

/-- `SpecificTrieDB` over the fat trie, whose iterator starts at the trie, misses nothing. -/
theorem specific_lists (sha3 : Bytes → H256) (fuel : ℕ) (hf : 69 ≤ fuel) (calls : List FatCall)
    (hinj : Apart sha3 calls)
    (hn : NoCollision sha3 ((runFresh sha3 fuel calls).run fresh).2.main) :
    ∃ root db, (runFresh sha3 fuel calls).run fresh = (.ok root, db) ∧
      ∃ pairs, pairs.Perm (present calls).entries ∧ ∃ n, ∀ f, n ≤ f →
        (specificBegin f root >>= visited f).run db = (.ok pairs, db) := by
  obtain ⟨root, db, hrun, hkeyed⟩ := keyed_runFresh hf hinj hn
  rw [hrun] at hn
  obtain ⟨t, hashed, hholds, hreal, hm⟩ := hkeyed.trie
  obtain ⟨n₁, it, hit, hgo⟩ := goesTo_root hholds hn []
  rw [notBefore_nil] at hit
  obtain ⟨n₂, hvisit⟩ := run_visited hholds.sound hn hit (matches_of_realizes hreal)
  refine ⟨root, db, hrun, _, perm_of_keyed hm hkeyed.names, n₁ + n₂, fun f hle => ?_⟩
  obtain ⟨k, rfl⟩ : ∃ k, f = n₁ + n₂ + k := ⟨f - (n₁ + n₂), by omega⟩
  have h₁ := hgo (n₂ + k)
  have h₂ := hvisit (n₁ + k)
  rw [show n₂ + (n₁ + k) = n₁ + n₂ + k by omega] at h₂
  rw [← Nat.add_assoc, ← run_next] at h₁
  have hbegin : (specificBegin (n₁ + n₂ + k) root).run db = (.ok it, db) := by
    unfold specificBegin GenericTrieDB.begin
    rw [run_super, run_bind_ok (run_entered hholds), h₁]
  rw [run_bind_ok hbegin, h₂]

/-- What `begin()` and `end()` iterate over. -/
def Lists (db : WithAux StateCacheDB) (pairs : List (Bytes × Bytes)) : Prop :=
  ∃ n, ∀ fuel, n ≤ fuel → (visited fuel begin).run db = (.ok pairs, db)

theorem lists_iff {db : WithAux StateCacheDB} {pairs : List (Bytes × Bytes)} :
    Lists db pairs ↔ pairs = [] := by
  constructor
  · rintro ⟨n, hall⟩
    have hpairs := hall (n + 1) (Nat.le_succ n)
    cases hpairs
    rfl
  · rintro rfl
    refine ⟨1, fun f hle => ?_⟩
    obtain ⟨f, rfl⟩ : ∃ g, f = g + 1 := ⟨f - 1, by omega⟩
    rfl

/-- **From `begin()` to `end()` there is the whole trie when and only when the calls have left
nothing in it.** -/
theorem fat_lists_iff (sha3 : Bytes → H256) (fuel : ℕ) (hf : 69 ≤ fuel) (calls : List FatCall)
    (hn : NoCollision sha3 ((runFresh sha3 fuel calls).run fresh).2.main) :
    ∃ root db, (runFresh sha3 fuel calls).run fresh = (.ok root, db) ∧
      ((∃ pairs, Lists db pairs ∧ pairs.Perm (present calls).entries) ↔ Withdrawn calls) := by
  obtain ⟨root, db, hrun⟩ := run_runFresh hf hn
  have hempty : (present calls).entries = [] ↔ Withdrawn calls := by
    rw [present, calls_eq_nil_iff]
    simp
  refine ⟨root, db, hrun, ?_⟩
  simp only [lists_iff, exists_eq_left, ← hempty]
  exact ⟨fun h => h.nil_eq.symm, fun h => by rw [h]⟩

/-! ### A run with real hashes -/

def fatSamples : List (ℕ × ℕ × ℕ) :=
  [(1, 0x80, 0x56e81f171bcc55a6ff8345e692c0f86e5b48e01b996cadc001622fb5e363b421),
   (1, 0x01, 0x5fe7f977e71dba2ea1a68e21057beebb9be2ac30c6410aa38d4f3fbe41dcffd2),
   (36, 0xe3a1205fe7f977e71dba2ea1a68e21057beebb9be2ac30c6410aa38d4f3fbe41dcffd261,
    0x2c6db26c7fd029aaff75fe6cf73de53020a5d3f7fd0589b6e11b5a5eb6ebd532)]

/-- Keccak-256 on the sample strings. -/
def fatSha3 (b : Bytes) : H256 :=
  H256.alignRight (toBigEndian 32
    (((fatSamples.find? fun e => toBigEndian e.1 e.2.1 = b).map fun e => e.2.2).getD 0))

def oneKey : List FatCall := [.insert [0x01] shortValue]

theorem fat_lists_sample : ∃ root db, (runFresh fatSha3 69 oneKey).run fresh = (.ok root, db) ∧
    ((∃ pairs, Lists db pairs ∧ pairs.Perm (present oneKey).entries) ↔ Withdrawn oneKey) :=
  fat_lists_iff fatSha3 69 le_rfl oneKey (by decide +kernel)

/-- The key is there, and from `begin()` to `end()` there is nothing. -/
theorem oneKey_not_listed : ∃ root db, (runFresh fatSha3 69 oneKey).run fresh = (.ok root, db) ∧
    (present oneKey).entries = [([0x01], [0x61])] ∧ Lists db [] ∧
    ¬∃ pairs, Lists db pairs ∧ pairs.Perm (present oneKey).entries := by
  obtain ⟨root, db, hrun⟩ := run_runFresh (le_refl 69)
    (show NoCollision fatSha3 ((runFresh fatSha3 69 oneKey).run fresh).2.main by decide +kernel)
  have hentries : (present oneKey).entries = [([0x01], [0x61])] := by decide
  refine ⟨root, db, hrun, hentries, lists_iff.mpr rfl, ?_⟩
  rintro ⟨pairs, hlists, hperm⟩
  rw [lists_iff.mp hlists, hentries] at hperm
  cases hperm.nil_eq

end Fresh
end FatGenericTrieDB
end Aleth.Devcore
