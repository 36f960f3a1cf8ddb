import Aleth.Devcore.Bytes
import Aleth.Structure.Runs
import Aleth.Structure.SortedMap
import Mathlib

/-! The database back ends (`db.h`, `MemoryDB.cpp`, `LevelDB.cpp`, `RocksDB.cpp`).

The libraries below `LevelDB` and `RocksDB` are ordered maps whose write batches
are lists of puts and deletes. The batch of `MemoryDB` is a map of what is to be
written, so a key that is killed in it is only forgotten: what the database has
under the key stays (`interchangeable_iff`). -/
namespace Aleth.Devcore

/-! ### The code -/

/-- What a back end has to offer; `entries` is the order in which it is iterated. -/
structure DatabaseFace (Db Batch : Type) where
  opened : Db
  lookup : Db → Bytes → Bytes
  /-- `exists`. -/
  contains : Db → Bytes → Bool
  insert : Db → Bytes → Bytes → Db
  kill : Db → Bytes → Db
  createWriteBatch : Batch
  batchInsert : Batch → Bytes → Bytes → Batch
  batchKill : Batch → Bytes → Batch
  commit : Db → Batch → Db
  entries : Db → List (Bytes × Bytes)

/-- The calls of `f`: its answer says whether to go on. -/
def visits (f : Bytes → Bytes → Bool) : List (Bytes × Bytes) → List (Bytes × Bytes)
  | [] => []
  | (key, value) :: l => (key, value) :: if f key value then visits f l else []

def DatabaseFace.forEach {Db Batch : Type} (face : DatabaseFace Db Batch) (db : Db)
    (f : Bytes → Bytes → Bool) : List (Bytes × Bytes) := visits f (face.entries db)

/-- An `unordered_map`: the order of its entries means nothing. -/
abbrev UnorderedMap := AList fun _ : Bytes => Bytes

def memoryDB : DatabaseFace UnorderedMap UnorderedMap where
  opened := ∅
  lookup db key := (db.lookup key).getD []
  contains db key := (db.lookup key).isSome
  insert db key value := db.insert key value
  kill db key := db.erase key
  createWriteBatch := ∅
  batchInsert batch key value := batch.insert key value
  batchKill batch key := batch.erase key
  commit db batch := batch.entries.foldl (fun db e => db.insert e.1 e.2) db
  entries db := db.entries.map fun e => (e.1, e.2)

/-- What `leveldb::WriteBatch` and `rocksdb::WriteBatch` collect. -/
inductive Action where
  | put (key value : Bytes)
  | delete (key : Bytes)
deriving DecidableEq

abbrev Store := SortedMap Bytes Bytes

def Store.apply (db : Store) : Action → Store
  | .put key value => db.insert key value
  | .delete key => db.erase key

def levelDB : DatabaseFace Store (List Action) where
  opened := .empty
  lookup db key := (db.find key).getD []
  contains db key := (db.find key).isSome
  insert db key value := db.insert key value
  kill db key := db.erase key
  createWriteBatch := []
  batchInsert batch key value := batch ++ [.put key value]
  batchKill batch key := batch ++ [.delete key]
  commit db batch := batch.foldl Store.apply db
  entries db := db.entries

/-- `rocksdb::DB::KeyMayExist`: it answers `false` only for keys that are not there. -/
structure KeyMayExist where
  test : Store → Bytes → Bool
  sound : ∀ db key, (db.find key).isSome = true → test db key = true

def rocksDB (mayExist : KeyMayExist) : DatabaseFace Store (List Action) where
  opened := .empty
  lookup db key := (db.find key).getD []
  contains db key := if mayExist.test db key then (db.find key).isSome else false
  insert db key value := db.insert key value
  kill db key := db.erase key
  createWriteBatch := []
  batchInsert batch key value := batch ++ [.put key value]
  batchKill batch key := batch ++ [.delete key]
  commit db batch := batch.foldl Store.apply db
  entries db := db.entries

/-! ### Runs -/

/-- What changes a database or a batch; batches are numbered as they are created. -/
inductive DatabaseRequest where
  | insert (key value : Bytes)
  | kill (key : Bytes)
  | createWriteBatch
  | batchInsert (batch : ℕ) (key value : Bytes)
  | batchKill (batch : ℕ) (key : Bytes)
  | commit (batch : ℕ)

/-- A database and the batches made for it; a batch is gone once it is committed. -/
structure Client (Db Batch : Type) where
  db : Db
  batches : List (Option Batch)

section
variable {Db Batch : Type} (face : DatabaseFace Db Batch)

def Client.step (s : Client Db Batch) : DatabaseRequest → Client Db Batch
  | .insert key value => {s with db := face.insert s.db key value}
  | .kill key => {s with db := face.kill s.db key}
  | .createWriteBatch => {s with batches := s.batches ++ [some face.createWriteBatch]}
  | .batchInsert n key value =>
    {s with batches := s.batches.modify n (Option.map (face.batchInsert · key value))}
  | .batchKill n key =>
    {s with batches := s.batches.modify n (Option.map (face.batchKill · key))}
  | .commit n =>
    match s.batches[n]? with
    | some (some batch) => ⟨face.commit s.db batch, s.batches.modify n fun _ => none⟩
    -- a null batch: `DatabaseError`
    | _ => s

end

/-- The same requests go to all three. -/
structure BackEnds where
  memory : Client UnorderedMap UnorderedMap
  level : Client Store (List Action)
  rocks : Client Store (List Action)

namespace BackEnds
variable (mayExist : KeyMayExist)

def opened : BackEnds where
  memory := ⟨memoryDB.opened, []⟩
  level := ⟨levelDB.opened, []⟩
  rocks := ⟨(rocksDB mayExist).opened, []⟩

def step (s : BackEnds) (r : DatabaseRequest) : BackEnds where
  memory := s.memory.step memoryDB r
  level := s.level.step levelDB r
  rocks := s.rocks.step (rocksDB mayExist) r

/-! ### The specification -/

/-- They answer alike, and iterate over the same entries. -/
structure Interchangeable (s : BackEnds) : Prop where
  lookup : ∀ key, memoryDB.lookup s.memory.db key = levelDB.lookup s.level.db key ∧
    levelDB.lookup s.level.db key = (rocksDB mayExist).lookup s.rocks.db key
  contains : ∀ key, memoryDB.contains s.memory.db key = levelDB.contains s.level.db key ∧
    levelDB.contains s.level.db key = (rocksDB mayExist).contains s.rocks.db key
  forEach : (memoryDB.forEach s.memory.db fun _ _ => true).Perm
      (levelDB.forEach s.level.db fun _ _ => true) ∧
    levelDB.forEach s.level.db = (rocksDB mayExist).forEach s.rocks.db

end BackEnds

/-- What the last action on a key leaves, if there is one. -/
def lastAction (batch : List Action) (key : Bytes) : Option (Option Bytes) :=
  batch.foldl (fun last action => match action with
    | .put k value => if key = k then some (some value) else last
    | .delete k => if key = k then some none else last) none

/-- No batch is committed that in the end deletes a key of the database. -/
def BackEnds.Deletes (s : BackEnds) : DatabaseRequest → Prop
  | .commit n => ∃ batch, s.level.batches[n]? = some (some batch) ∧
    ∃ key, lastAction batch key = some none ∧ (s.level.db.find key).isSome = true
  | _ => False

/-! ### Maps -/

theorem lookup_insert_ite (m : UnorderedMap) (key value key' : Bytes) :
    (m.insert key value).lookup key' = if key' = key then some value else m.lookup key' := by
  by_cases h : key' = key
  · subst h
    rw [AList.lookup_insert, if_pos rfl]
  · rw [AList.lookup_insert_ne h, if_neg h]

theorem lookup_erase_ite (m : UnorderedMap) (key key' : Bytes) :
    (m.erase key).lookup key' = if key' = key then none else m.lookup key' := by
  by_cases h : key' = key
  · subst h
    rw [AList.lookup_erase, if_pos rfl]
  · rw [AList.lookup_erase_ne h, if_neg h]

theorem lookup_insertAll {l : List (Σ _ : Bytes, Bytes)} (hl : l.NodupKeys) (m : UnorderedMap)
    (key : Bytes) : (l.foldl (fun m e => m.insert e.1 e.2) m).lookup key =
      (l.dlookup key).or (m.lookup key) := by
  induction l generalizing m with
  | nil => rfl
  | cons e l ih =>
    obtain ⟨k, v⟩ := e
    obtain ⟨hk, hl⟩ := List.nodupKeys_cons.mp hl
    rw [List.foldl_cons, ih hl, lookup_insert_ite]
    by_cases h : key = k
    · subst h
      rw [List.dlookup_eq_none.mpr hk, if_pos rfl, List.dlookup_cons_eq]
      rfl
    · rw [if_neg h, List.dlookup_cons_ne _ _ h]

/-- A committed batch goes over what the database has. -/
theorem lookup_commit (db batch : UnorderedMap) (key : Bytes) :
    (memoryDB.commit db batch).lookup key = (batch.lookup key).or (db.lookup key) :=
  lookup_insertAll batch.nodupKeys db key

theorem lastAction_put (l : List Action) (k value key : Bytes) :
    lastAction (l ++ [.put k value]) key =
      if key = k then some (some value) else lastAction l key := List.foldl_concat ..

theorem lastAction_delete (l : List Action) (k key : Bytes) :
    lastAction (l ++ [.delete k]) key = if key = k then some none else lastAction l key :=
  List.foldl_concat ..

theorem find_commit (db : Store) (batch : List Action) (key : Bytes) :
    (levelDB.commit db batch).find key = (lastAction batch key).getD (db.find key) := by
  induction batch using List.reverseRecOn with
  | nil => rfl
  | append_singleton batch a ih =>
    have hstep : levelDB.commit db (batch ++ [a]) = (levelDB.commit db batch).apply a :=
      List.foldl_concat ..
    rw [hstep]
    cases a with
    | put k value =>
      rw [Store.apply, SortedMap.find_insert, ih, lastAction_put]
      split <;> rfl
    | delete k =>
      rw [Store.apply, SortedMap.find_erase, ih, lastAction_delete]
      split <;> rfl

/-! ### What the three have in common -/

/-- The two maps hold the same. -/
def Mirrors (memory : UnorderedMap) (level : Store) : Prop :=
  ∀ key, memory.lookup key = level.find key

/-- The map of a batch holds what the list of actions leaves to be written. -/
def Pending (batch : UnorderedMap) (actions : List Action) : Prop :=
  ∀ key, batch.lookup key = (lastAction actions key).join

theorem Mirrors.perm {memory : UnorderedMap} {level : Store} (h : Mirrors memory level) :
    (memoryDB.entries memory).Perm (levelDB.entries level) := by
  have hinj : Function.Injective fun e : Σ _ : Bytes, Bytes => (e.1, e.2) := by
    rintro ⟨k, v⟩ ⟨k', v'⟩ heq
    cases heq
    rfl
  have hnodup : (memoryDB.entries memory).Nodup :=
    (List.NodupKeys.nodup memory.nodupKeys).map hinj
  refine (List.perm_ext_iff_of_nodup hnodup level.entries_nodup).mpr ?_
  rintro ⟨key, value⟩
  have hmem : (key, value) ∈ memoryDB.entries memory ↔ memory.lookup key = some value := by
    rw [← Option.mem_def, AList.mem_lookup_iff]
    constructor
    · intro he
      obtain ⟨⟨k, v⟩, hm, heq⟩ := List.mem_map.mp he
      cases heq
      exact hm
    · exact fun hm => List.mem_map.mpr ⟨⟨key, value⟩, hm, rfl⟩
  rw [hmem, h key, SortedMap.find_eq_some_iff]

theorem visits_all (l : List (Bytes × Bytes)) : visits (fun _ _ => true) l = l := by
  induction l with
  | nil => rfl
  | cons e l ih =>
    rw [visits, if_pos rfl, ih]

theorem Pending.insert {batch : UnorderedMap} {actions : List Action} (h : Pending batch actions)
    (key value : Bytes) : Pending (memoryDB.batchInsert batch key value)
      (levelDB.batchInsert actions key value) := by
  intro k
  have hk := h k
  simp only [memoryDB, levelDB, lookup_insert_ite, lastAction_put]
  split
  · rfl
  · exact hk

theorem Pending.kill {batch : UnorderedMap} {actions : List Action} (h : Pending batch actions)
    (key : Bytes) : Pending (memoryDB.batchKill batch key) (levelDB.batchKill actions key) := by
  intro k
  have hk := h k
  simp only [memoryDB, levelDB, lookup_erase_ite, lastAction_delete]
  split
  · rfl
  · exact hk

/-- The commit keeps the two alike exactly when the batch deletes nothing. -/
theorem Mirrors.commit {memory batch : UnorderedMap} {level : Store} {actions : List Action}
    (h : Mirrors memory level) (hb : Pending batch actions) :
    Mirrors (memoryDB.commit memory batch) (levelDB.commit level actions) ↔
      ∀ key, lastAction actions key = some none → level.find key = none := by
  refine forall_congr' fun key => ?_
  rw [lookup_commit, find_commit, hb key, h key]
  rcases lastAction actions key with _ | (_ | value)
  · simp
  · simp
  · simp

section
variable {Db Batch : Type} {face : DatabaseFace Db Batch} {s : Client Db Batch} {n : ℕ}

theorem Client.step_commit {batch : Batch} (h : s.batches[n]? = some (some batch)) :
    s.step face (.commit n) = ⟨face.commit s.db batch, s.batches.modify n fun _ => none⟩ := by
  simp only [Client.step, h]

theorem Client.step_commit_null (h : ∀ batch, s.batches[n]? ≠ some (some batch)) :
    s.step face (.commit n) = s := by
  simp only [Client.step]

end

section
variable {α β : Type} {R : α → β → Prop} {l : List α} {l' : List β}

theorem getElem?_rel (h : List.Forall₂ R l l') (n : ℕ) : Option.Rel R l[n]? l'[n]? := by
  induction h generalizing n with
  | nil => exact .none
  | cons hr _ ih =>
    cases n with
    | zero => exact .some hr
    | succ n => exact ih n

theorem modify_rel {f : α → α} {g : β → β} (hfg : ∀ {a b}, R a b → R (f a) (g b))
    (h : List.Forall₂ R l l') (n : ℕ) : List.Forall₂ R (l.modify n f) (l'.modify n g) := by
  induction h generalizing n with
  | nil =>
    rw [List.modify_nil, List.modify_nil]
    exact .nil
  | cons hr hrest ih =>
    cases n with
    | zero => exact .cons (hfg hr) hrest
    | succ n => exact .cons hr (ih n)

theorem map_rel {f : α → α} {g : β → β} (hfg : ∀ {a b}, R a b → R (f a) (g b)) {a : Option α}
    {b : Option β} (h : Option.Rel R a b) : Option.Rel R (a.map f) (b.map g) := by
  cases h with
  | some hr => exact .some (hfg hr)
  | none => exact .none

end

namespace BackEnds
variable {mayExist : KeyMayExist} {s : BackEnds}

/-- What every run keeps, apart from what the databases hold. -/
structure Linked (s : BackEnds) : Prop where
  rocks : s.rocks = s.level
  batches : List.Forall₂ (Option.Rel Pending) s.memory.batches s.level.batches

theorem interchangeable_iff_mirrors (h : s.Linked) :
    s.Interchangeable mayExist ↔ Mirrors s.memory.db s.level.db := by
  constructor
  · intro hi key
    have hlookup := (hi.lookup key).1
    have hcontains := (hi.contains key).1
    simp only [memoryDB, levelDB] at hlookup hcontains
    cases hm : s.memory.db.lookup key with
    | none =>
      rw [hm] at hcontains
      exact (Option.isNone_iff_eq_none.mp (by simpa using hcontains.symm)).symm
    | some v =>
      rw [hm] at hcontains hlookup
      obtain ⟨w, hw⟩ := Option.isSome_iff_exists.mp hcontains.symm
      rw [hw] at hlookup ⊢
      exact congrArg some hlookup
  · intro hm
    refine ⟨fun key => ?_, fun key => ?_, ?_⟩
    · simp only [memoryDB, levelDB, rocksDB, hm key, h.rocks, and_self]
    · have hsound := mayExist.sound s.level.db key
      simp only [memoryDB, levelDB, rocksDB, hm key, h.rocks, true_and]
      cases hf : (s.level.db.find key).isSome with
      | false => simp
      | true => rw [if_pos (hsound hf)]
    · refine ⟨?_, by rw [h.rocks]; rfl⟩
      rw [DatabaseFace.forEach, DatabaseFace.forEach, visits_all, visits_all]
      exact hm.perm

/-! ### Steps -/

theorem linked_opened : (opened mayExist).Linked := ⟨rfl, .nil⟩

/-- A batch is there for all of them or for none. -/
theorem Linked.batch (h : s.Linked) (n : ℕ) :
    (∃ batch actions, s.memory.batches[n]? = some (some batch) ∧
      s.level.batches[n]? = some (some actions) ∧ Pending batch actions) ∨
    ((∀ batch, s.memory.batches[n]? ≠ some (some batch)) ∧
      ∀ actions, s.level.batches[n]? ≠ some (some actions)) := by
  have hn := getElem?_rel h.batches n
  generalize s.memory.batches[n]? = a at hn ⊢
  generalize s.level.batches[n]? = b at hn ⊢
  cases hn with
  | none => exact .inr ⟨fun _ => nofun, fun _ => nofun⟩
  | some hr =>
    cases hr with
    | none => exact .inr ⟨fun _ => nofun, fun _ => nofun⟩
    | some hp => exact .inl ⟨_, _, rfl, rfl, hp⟩

theorem Linked.rocks_step (h : s.Linked) (r : DatabaseRequest) :
    (s.step mayExist r).rocks = (s.step mayExist r).level := by
  simp only [step, h.rocks]
  cases r <;> rfl

theorem Linked.step (h : s.Linked) (r : DatabaseRequest) : (s.step mayExist r).Linked where
  rocks := h.rocks_step r
  batches := by
    cases r with
    | insert key value => exact h.batches
    | kill key => exact h.batches
    | createWriteBatch => exact List.rel_append h.batches (.cons (.some fun _ => rfl) .nil)
    | batchInsert n key value =>
      exact modify_rel (map_rel fun hp => hp.insert key value) h.batches n
    | batchKill n key => exact modify_rel (map_rel fun hp => hp.kill key) h.batches n
    | commit n =>
      obtain ⟨batch, actions, hm, hl, -⟩ | ⟨hm, hl⟩ := h.batch n
      · simp only [BackEnds.step, Client.step_commit hm, Client.step_commit hl]
        exact modify_rel (fun _ => .none) h.batches n
      · simp only [BackEnds.step, Client.step_commit_null hm, Client.step_commit_null hl]
        exact h.batches

/-- A request keeps the two alike exactly when it commits no batch that deletes. -/
theorem mirrors_step_iff (h : s.Linked) (hm : Mirrors s.memory.db s.level.db) (r : DatabaseRequest) :
    Mirrors (s.step mayExist r).memory.db (s.step mayExist r).level.db ↔ ¬s.Deletes r := by
  cases r with
  | insert key value =>
    refine iff_of_true (fun k => ?_) id
    simp only [step, Client.step, memoryDB, levelDB, lookup_insert_ite, SortedMap.find_insert, hm k]
    by_cases hk : k = key
    · rw [if_pos hk, if_pos hk]
    · rw [if_neg hk, if_neg hk]
  | kill key =>
    refine iff_of_true (fun k => ?_) id
    simp only [step, Client.step, memoryDB, levelDB, lookup_erase_ite, SortedMap.find_erase, hm k]
    by_cases hk : k = key
    · rw [if_pos hk, if_pos hk]
    · rw [if_neg hk, if_neg hk]
  | createWriteBatch => exact iff_of_true hm id
  | batchInsert n key value => exact iff_of_true hm id
  | batchKill n key => exact iff_of_true hm id
  | commit n =>
    obtain ⟨batch, actions, hb, hl, hp⟩ | ⟨hb, hl⟩ := h.batch n
    · simp only [step, Client.step_commit hb, Client.step_commit hl, hm.commit hp, Deletes, hl,
        Option.some.injEq, exists_eq_left', not_exists, not_and, Bool.not_eq_true,
        Option.isSome_eq_false_iff, Option.isNone_iff_eq_none]
    · simp only [step, Client.step_commit_null hb, Client.step_commit_null hl]
      exact iff_of_true hm fun ⟨actions, hn, _⟩ => hl actions hn

end BackEnds

/-- **The back ends stay interchangeable throughout a run exactly when no batch of it is committed
that in the end deletes a key the database has.** -/
theorem interchangeable_iff (mayExist : KeyMayExist) (requests : List DatabaseRequest) :
    (∀ pre, pre <+: requests →
      (pre.foldl (BackEnds.step mayExist) (BackEnds.opened mayExist)).Interchangeable mayExist) ↔
    Runs.Along (BackEnds.step mayExist) (fun s r => ¬s.Deletes r) (BackEnds.opened mayExist)
      requests := by
  refine Runs.Along.iff_good (P := fun s : BackEnds => s.Linked ∧ Mirrors s.memory.db s.level.db)
    (fun h => (BackEnds.interchangeable_iff_mirrors h.1).mpr h.2) (fun h => ?_)
    (fun h hr => ⟨h.1.step _, (BackEnds.mirrors_step_iff h.1 h.2 _).mpr hr⟩)
    ⟨BackEnds.linked_opened, fun _ => rfl⟩
  rw [BackEnds.interchangeable_iff_mirrors (h.1.step _), BackEnds.mirrors_step_iff h.1 h.2]

/-- A test that reads the store. -/
def KeyMayExist.exact : KeyMayExist := ⟨fun db key => (db.find key).isSome, fun _ _ h => h⟩

/-- The entry is written, and a batch deletes it. -/
def deletedInBatch : List DatabaseRequest :=
  [.insert [1] [2], .createWriteBatch, .batchKill 0 [1], .commit 0]

theorem deletedInBatch_stays : ¬(deletedInBatch.foldl (BackEnds.step .exact)
    (BackEnds.opened .exact)).Interchangeable .exact := by
  intro h
  exact absurd (h.contains [1]).1 (by decide)

end Aleth.Devcore
