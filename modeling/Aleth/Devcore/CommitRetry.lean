import Aleth.Devcore.StateCacheDB

/-! `OverlayDB::commit` over a database that fails (`OverlayDB.cpp`, `LevelDB.cpp`).

The batch is moved into every attempt: `LevelDB::commit` takes it by value and
destroys it when it throws, so that the second attempt has no batch to commit
and throws whatever the database would do by then. `commit_stores_iff` says
what is left of the ten attempts: the first one. -/
namespace Aleth.Devcore

/-- The puts of a batch. -/
abbrev WriteBatch := List (Bytes × Bytes)

inductive DatabaseError where
  | nullBatch
  | writeFailed
deriving DecidableEq

/-- What is stored, and how many of the next writes fail. -/
structure LevelDB where
  stored : Bytes → Option Bytes
  failures : ℕ

namespace LevelDB

def put (stored : Bytes → Option Bytes) (e : Bytes × Bytes) : Bytes → Option Bytes :=
  Function.update stored e.1 (some e.2)

/-- `leveldb::DB::Write`: all of the batch or nothing. -/
def write (db : LevelDB) (batch : WriteBatch) : Bool × LevelDB :=
  match db.failures with
  | 0 => (true, {db with stored := batch.foldl put db.stored})
  | failures + 1 => (false, {db with failures := failures})

/-- The batch is `none` when the pointer is null. -/
def commit (db : LevelDB) (batch : Option WriteBatch) : Except DatabaseError Unit × LevelDB :=
  match batch with
  | none => (.error .nullBatch, db)
  | some batch =>
    let (ok, db) := db.write batch
    (if ok then .ok () else .error .writeFailed, db)

theorem put_self (stored : Bytes → Option Bytes) (e : Bytes × Bytes) :
    put stored e e.1 = some e.2 := Function.update_self ..

theorem put_of_ne {stored : Bytes → Option Bytes} {e : Bytes × Bytes} {key : Bytes}
    (h : key ≠ e.1) : put stored e key = stored key := Function.update_of_ne h ..

/-- A value that the batch has alone for its key is stored. -/
theorem foldl_put {key value : Bytes} {batch : WriteBatch} {stored : Bytes → Option Bytes}
    (hkey : ∀ e ∈ batch, e.1 = key → e.2 = value)
    (hmem : (key, value) ∈ batch ∨ stored key = some value) :
    batch.foldl put stored key = some value := by
  induction batch generalizing stored with
  | nil => exact hmem.resolve_left List.not_mem_nil
  | cons e batch ih =>
    rw [List.foldl_cons]
    refine ih (fun e' he' => hkey e' (List.mem_cons_of_mem e he')) ?_
    by_cases he : key = e.1
    · refine .inr ?_
      rw [he, put_self, hkey e List.mem_cons_self he.symm]
    · rw [put_of_ne he]
      refine hmem.imp_left fun h => (List.mem_cons.mp h).resolve_left ?_
      rintro rfl
      exact he rfl

theorem foldl_put_of_ne {batch : WriteBatch} {stored : Bytes → Option Bytes} {key : Bytes}
    (h : ∀ e ∈ batch, e.1 ≠ key) : batch.foldl put stored key = stored key := by
  induction batch generalizing stored with
  | nil => rfl
  | cons e batch ih =>
    rw [List.foldl_cons, ih fun e' he' => h e' (List.mem_cons_of_mem e he'),
      put_of_ne (h e List.mem_cons_self).symm]

end LevelDB

/-- The overlay over a `LevelDB`, with the auxiliary entries and their flags. -/
structure BackedOverlay where
  m_main : AList (fun _ : H256 => Bytes × ℕ)
  m_aux : AList (fun _ : H256 => Bytes × Bool)
  m_db : LevelDB

namespace BackedOverlay

/-- Appends 255, for aux. -/
def auxKey (h : H256) : Bytes := h.bytes ++ [255]

def writeBatch (overlay : BackedOverlay) : WriteBatch :=
  ((overlay.m_main.entries.filter fun i => i.2.2 ≠ 0).map fun i => (i.1.bytes, i.2.1)) ++
    (overlay.m_aux.entries.filter fun i => i.2.2).map fun i => (auxKey i.1, i.2.1)

/-- The `i` of the code is `10 - attempts`. The batch has been moved from after the call, also when
that throws. `none` is `exit(-1)`. -/
def attempt : (attempts : ℕ) → Option WriteBatch → LevelDB → Option LevelDB
  | 0, _, db => some db
  | attempts + 1, batch, db =>
    match db.commit batch with
    | (.ok (), db) => some db
    | (.error _, db) => if attempts = 0 then none else attempt attempts none db

def commit (overlay : BackedOverlay) : Option BackedOverlay := do
  let db ← attempt 10 (some overlay.writeBatch) overlay.m_db
  return ⟨∅, ∅, db⟩

variable {overlay : BackedOverlay} {h : H256} {s : Bytes}

theorem auxKey_ne (h h' : H256) : auxKey h ≠ h'.bytes := by
  intro heq
  have hlen := congrArg List.length heq
  rw [auxKey, List.length_append, h.size, h'.size] at hlen
  simp at hlen

theorem auxKey_injective {h h' : H256} (heq : auxKey h = auxKey h') : h = h' :=
  H256.ext (List.append_cancel_right heq)

theorem mem_writeBatch {e : Bytes × Bytes} : e ∈ overlay.writeBatch ↔
    (∃ h refs, overlay.m_main.lookup h = some (e.2, refs) ∧ refs ≠ 0 ∧ h.bytes = e.1) ∨
      ∃ h, overlay.m_aux.lookup h = some (e.2, true) ∧ auxKey h = e.1 := by
  obtain ⟨key, value⟩ := e
  unfold writeBatch
  simp only [List.mem_append, List.mem_map, List.mem_filter, Sigma.exists, Prod.exists,
    ← AList.mem_lookup_iff, Option.mem_def, Prod.mk.injEq, decide_eq_true_eq]
  refine or_congr ?_ ?_
  · constructor
    · rintro ⟨h, s, refs, ⟨hl, hr⟩, hkey, rfl⟩
      exact ⟨h, refs, hl, hr, hkey⟩
    · rintro ⟨h, refs, hl, hr, hkey⟩
      exact ⟨h, value, refs, ⟨hl, hr⟩, hkey, rfl⟩
  · constructor
    · rintro ⟨h, b, flag, ⟨hl, rfl⟩, hkey, rfl⟩
      exact ⟨h, hl, hkey⟩
    · rintro ⟨h, hl, hkey⟩
      exact ⟨h, value, true, ⟨hl, rfl⟩, hkey, rfl⟩

/-- What a commit is to leave in the database. -/
structure Stored (overlay : BackedOverlay) (stored : Bytes → Option Bytes) : Prop where
  main : ∀ h s refs, overlay.m_main.lookup h = some (s, refs) → refs ≠ 0 →
    stored h.bytes = some s
  aux : ∀ h b, overlay.m_aux.lookup h = some (b, true) → stored (auxKey h) = some b
  /-- What is under other keys stays. -/
  others : ∀ key, (∀ h s refs, overlay.m_main.lookup h = some (s, refs) → refs ≠ 0 →
    key ≠ h.bytes) → (∀ h b, overlay.m_aux.lookup h = some (b, true) → key ≠ auxKey h) →
      stored key = overlay.m_db.stored key

theorem stored_batch (overlay : BackedOverlay) :
    overlay.Stored (overlay.writeBatch.foldl LevelDB.put overlay.m_db.stored) where
  main h s refs hl hr := by
    refine LevelDB.foldl_put (fun e he hkey => ?_)
      (.inl (mem_writeBatch.mpr (.inl ⟨h, refs, hl, hr, rfl⟩)))
    rcases mem_writeBatch.mp he with ⟨h', refs', hl', _, hkey'⟩ | ⟨h', _, hkey'⟩
    · obtain rfl : h' = h := H256.ext (hkey'.trans hkey)
      rw [hl] at hl'
      cases hl'
      rfl
    · exact absurd (hkey'.trans hkey) (auxKey_ne h' h)
  aux h b hl := by
    refine LevelDB.foldl_put (fun e he hkey => ?_)
      (.inl (mem_writeBatch.mpr (.inr ⟨h, hl, rfl⟩)))
    rcases mem_writeBatch.mp he with ⟨h', _, _, _, hkey'⟩ | ⟨h', hl', hkey'⟩
    · exact absurd (hkey'.trans hkey).symm (auxKey_ne h h')
    · obtain rfl : h' = h := auxKey_injective (hkey'.trans hkey)
      rw [hl] at hl'
      cases hl'
      rfl
  others key hmain haux := by
    refine LevelDB.foldl_put_of_ne fun e he hkey => ?_
    rcases mem_writeBatch.mp he with ⟨h, refs, hl, hr, hkey'⟩ | ⟨h, hl, hkey'⟩
    · exact hmain h e.2 refs hl hr (hkey'.trans hkey).symm
    · exact haux h e.2 hl (hkey'.trans hkey).symm

/-- Without the batch every attempt throws. -/
theorem attempt_null (attempts : ℕ) (db : LevelDB) : attempt (attempts + 1) none db = none := by
  induction attempts with
  | zero => rfl
  | succ attempts ih =>
    show (if attempts + 1 = 0 then none else attempt (attempts + 1) none db) = none
    rw [if_neg (Nat.succ_ne_zero attempts), ih]

theorem attempt_of_no_failure {db : LevelDB} (h : db.failures = 0) (attempts : ℕ)
    (batch : WriteBatch) :
    attempt (attempts + 1) (some batch) db = some ⟨batch.foldl LevelDB.put db.stored, 0⟩ := by
  obtain ⟨stored, failures⟩ := db
  subst h
  rfl

theorem attempt_of_failure {db : LevelDB} (h : db.failures ≠ 0) (attempts : ℕ)
    (batch : WriteBatch) : attempt (attempts + 1) (some batch) db = none := by
  obtain ⟨stored, failures⟩ := db
  obtain ⟨failures, rfl⟩ := Nat.exists_eq_succ_of_ne_zero h
  show (if attempts = 0 then none else attempt attempts none ⟨stored, failures⟩) = none
  cases attempts with
  | zero => rfl
  | succ attempts => rw [if_neg (Nat.succ_ne_zero attempts), attempt_null]

theorem commit_of_no_failure (h : overlay.m_db.failures = 0) : overlay.commit =
    some ⟨∅, ∅, overlay.writeBatch.foldl LevelDB.put overlay.m_db.stored, 0⟩ := by
  rw [commit, attempt_of_no_failure h]
  rfl

theorem commit_of_failure (h : overlay.m_db.failures ≠ 0) : overlay.commit = none := by
  rw [commit, attempt_of_failure h]
  rfl

/-- **A commit returns with everything stored and the overlay empty when and only when the first
write succeeds.** -/
theorem commit_stores_iff (overlay : BackedOverlay) :
    (∃ overlay', overlay.commit = some overlay' ∧ overlay.Stored overlay'.m_db.stored ∧
      overlay'.m_main = ∅ ∧ overlay'.m_aux = ∅) ↔ overlay.m_db.failures = 0 := by
  constructor
  · rintro ⟨overlay', hcommit, _⟩
    by_contra hne
    rw [commit_of_failure hne] at hcommit
    cases hcommit
  · exact fun h => ⟨_, commit_of_no_failure h, overlay.stored_batch, rfl, rfl⟩

/-- One node, and a database that fails once. -/
def failsOnce : BackedOverlay := ⟨AList.singleton H256.zero ([1], 1), ∅, fun _ => none, 1⟩

/-- The second attempt would find the database in order, and has nothing to write. -/
theorem failsOnce_lost : failsOnce.m_db.failures < 10 ∧
    (failsOnce.m_db.write failsOnce.writeBatch).2.failures = 0 ∧
    ¬∃ overlay', failsOnce.commit = some overlay' ∧ failsOnce.Stored overlay'.m_db.stored ∧
      overlay'.m_main = ∅ ∧ overlay'.m_aux = ∅ := by
  have hcommit : failsOnce.commit = none := commit_of_failure Nat.one_ne_zero
  refine ⟨by decide, rfl, ?_⟩
  rintro ⟨overlay', h, _⟩
  rw [hcommit] at h
  cases h

end BackedOverlay
end Aleth.Devcore
