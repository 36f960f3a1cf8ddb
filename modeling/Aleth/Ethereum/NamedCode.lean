import Aleth.Ethereum.StateRollback

/-! States whose code is named.

`Codes` names the codes in play by their hashes: no two of them have the same
one. What a thread does with a state, and what commits leave, keeps the state
`Named`: its code is in play, and `code` answers it (`keepsNamed_use`,
`Named.code`). -/
namespace Aleth.Ethereum
open Devcore Throwing
variable [Sha3]

/-! ### The code -/

/-- What else a thread does with its state. -/
inductive Use where
  | account (a : Address)
  | storage (a : Address) (key : U256)
  | originalStorageValue (a : Address) (key : U256)
  | mutation (m : Mutation)
  | kill (a : Address)
  | rollback (savepoint : ℕ)

namespace State

def removeEmptyAccounts (s : State) : State :=
  {s with m_cache := s.m_cache.mapVals fun _ account =>
    if account.isDirty && account.isEmpty then account.kill else account}

/-- What `commit` stores in the cache of sizes. -/
def newCodes (s : State) : List (H256 × ℕ) :=
  s.m_cache.entries.filterMap fun (_, account) =>
    if account.isDirty && account.m_isAlive && account.m_hasNewCode then
      some (account.m_codeHash, account.m_codeCache.length)
    else none

/-- After `commit` the database is another one. -/
def committed (s : State) (db : StateDB) : State :=
  {s with m_db := db, m_changeLog := [], m_cache := .empty, m_unchangedCacheEntries := []}

end State

def Use.call : Use → StateM Unit
  | .account a => do
    let _ ← State.account a
    return ()
  | .storage a key => do
    let _ ← State.storage a key
    return ()
  | .originalStorageValue a key => do
    let _ ← State.originalStorageValue a key
    return ()
  | .mutation m => m.call
  | .kill a => State.kill a
  | .rollback savepoint => modify (State.rollback savepoint)

/-! ### The codes in play -/

/-- The codes in play, by their hashes. -/
structure Codes where
  code : H256 → Bytes
  empty : code EmptySHA3 = []

namespace Codes
variable (codes : Codes)

def Names (code : Bytes) : Prop := codes.code (sha3 code) = code

def NamesAll (db : StateDB) : Prop := ∀ a stored, db.account a = some stored →
  codes.code stored.codeHash = (Account.ofStored stored).codeIn db

/-- The codes that undoing a change brings into play. -/
def NamesOld : Change → Prop
  | .code _ oldCode => codes.Names oldCode
  | _ => True

end Codes

/-! ### Accounts and their code -/

/-- New code is there, unless the account has been killed. -/
structure Account.Coded (codes : Codes) (db : StateDB) (account : Account) : Prop where
  hash : sha3 (account.codeIn db) = account.m_codeHash
  named : codes.code account.m_codeHash = account.codeIn db
  fresh : account.m_hasNewCode = true → codes.code account.m_codeHash = account.m_codeCache ∨
    account.m_isAlive = false ∧ account.m_codeHash = EmptySHA3

namespace Account
variable {codes : Codes} {db : StateDB} {account account' : Account}

theorem Coded.same (h : account.Coded codes db) (hhash : account'.m_codeHash = account.m_codeHash)
    (hcache : account'.m_codeCache = account.m_codeCache)
    (hnew : account'.m_hasNewCode = account.m_hasNewCode)
    (halive : account'.m_isAlive = account.m_isAlive) : account'.Coded codes db := by
  have hcode : account'.codeIn db = account.codeIn db := by
    unfold codeIn
    rw [hhash, hcache]
  exact {
    hash := by rw [hcode, hhash, h.hash]
    named := by rw [hcode, hhash, h.named]
    fresh := by rw [hhash, hcache, hnew, halive]; exact h.fresh }

/-- An account without code. -/
theorem coded_empty (hhash : account.m_codeHash = EmptySHA3)
    (hnew : account.m_hasNewCode = true → account.m_isAlive = false) :
    account.Coded codes db := by
  have hcode : account.codeIn db = [] := if_pos hhash
  exact {
    hash := by rw [hcode, hhash]; rfl
    named := by rw [hcode, hhash, codes.empty]
    fresh := fun h => .inr ⟨hnew h, hhash⟩ }

theorem coded_ofStored (hdb : codes.NamesAll db) {a : Address} {stored : StoredAccount}
    (h : db.account a = some stored) : (ofStored stored).Coded codes db where
  hash := (State.coherent_ofStored db h).code
  named := hdb a stored h
  fresh := nofun

theorem coded_setCode {code : Bytes} (h : codes.Names code) :
    (account.setCode code).Coded codes db := by
  have hcode : (account.setCode code).codeIn db = code := by
    unfold codeIn
    by_cases hempty : sha3 code = EmptySHA3
    · have hnil : codes.code EmptySHA3 = code := hempty ▸ h
      exact (if_pos hempty).trans (codes.empty.symm.trans hnil)
    · have hne : code ≠ [] := fun hnil => hempty (congrArg sha3 hnil)
      exact (if_neg hempty).trans (if_neg hne)
  exact {
    hash := congrArg sha3 hcode
    named := h.trans hcode.symm
    fresh := fun _ => .inl h }

theorem Coded.noteCode (h : account.Coded codes db) (hhash : account.m_codeHash ≠ EmptySHA3)
    (hcache : account.m_codeCache = []) :
    (account.noteCode (db.code account.m_codeHash)).Coded codes db := by
  have hcode : (account.noteCode (db.code account.m_codeHash)).codeIn db = account.codeIn db :=
    State.codeIn_noteCode hcache
  have hold : account.codeIn db = db.code account.m_codeHash := by
    rw [codeIn, if_neg hhash, if_pos hcache]
  exact {
    hash := by rw [hcode]; exact h.hash
    named := by rw [hcode]; exact h.named
    fresh := fun _ => .inl (h.named.trans hold) }

theorem Coded.originalStorageValue (h : account.Coded codes db) (key : U256) :
    (account.originalStorageValue key db).2.Coded codes db := by
  unfold Account.originalStorageValue
  split
  · exact h
  · exact h.same rfl rfl rfl rfl

theorem Coded.storageValue (h : account.Coded codes db) (key : U256) :
    (account.storageValue key db).2.Coded codes db := by
  unfold Account.storageValue
  split
  · exact h
  · exact h.originalStorageValue key

/-- The size of new code is that of the code, unless the account has been killed. -/
theorem Coded.length_iff (h : account.Coded codes db) (hnew : account.m_hasNewCode = true) :
    account.m_codeCache.length = (account.codeIn db).length ↔
      (account.m_codeHash = EmptySHA3 → account.m_codeCache = []) := by
  constructor
  · intro hlen hempty
    rw [codeIn, if_pos hempty] at hlen
    exact List.eq_nil_of_length_eq_zero hlen
  · intro hkilled
    rcases h.fresh hnew with hcode | ⟨-, hempty⟩
    · rw [← hcode, h.named]
    · rw [hkilled hempty, codeIn, if_pos hempty]

end Account

/-! ### States whose code is named -/

namespace State

/-- The codes of the database, of the accounts in the cache and of the log are in play. -/
structure Named (codes : Codes) (s : State) : Prop where
  db : codes.NamesAll s.m_db
  cached : ∀ a account, s.m_cache.find a = some account → account.Coded codes s.m_db
  logged : ∀ c ∈ s.m_changeLog, codes.NamesOld c

variable {codes : Codes} {s : State} {a : Address}

theorem Named.entry (h : s.Named codes) (a : Address) : (s.entry a).Coded codes s.m_db := by
  unfold State.entry
  cases hf : s.m_cache.find a with
  | none => exact Account.coded_empty rfl nofun
  | some account => exact h.cached a account hf

theorem Named.modifyAccount (h : s.Named codes) {f : Account → Account}
    (hf : (f (s.entry a)).Coded codes s.m_db) : (s.modifyAccount a f).Named codes where
  db := h.db
  cached b account hb := by
    rw [find_modifyAccount] at hb
    split at hb
    · cases hb
      exact hf
    · exact h.cached b account hb
  logged := h.logged

theorem Named.log (h : s.Named codes) {c : Change} (hc : codes.NamesOld c) :
    (s.log c).Named codes where
  db := h.db
  cached := h.cached
  logged := List.forall_mem_cons.mpr ⟨hc, h.logged⟩

theorem Named.evict (h : s.Named codes) : s.evict.Named codes := by
  unfold State.evict
  dsimp only
  split
  case h_2 => exact ⟨h.db, h.cached, h.logged⟩
  case h_1 =>
    split
    case isFalse => exact ⟨h.db, h.cached, h.logged⟩
    case isTrue =>
      refine ⟨h.db, fun b account hb => ?_, h.logged⟩
      rw [SortedMap.find_erase] at hb
      split at hb
      · cases hb
      · exact h.cached b account hb

theorem Named.clearCacheIfTooLarge (h : s.Named codes) : s.clearCacheIfTooLarge.Named codes := by
  unfold State.clearCacheIfTooLarge
  generalize s.m_unchangedCacheEntries.length - 1000 = n
  induction n generalizing s with
  | zero => exact h
  | succ n ih =>
    rw [Function.iterate_succ_apply]
    exact ih h.evict

theorem Named.noteCreated (h : s.Named codes) {account : Account}
    (hc : account.Coded codes s.m_db) : (s.noteCreated a account).Named codes where
  db := h.db
  cached b account' hb := by
    rw [find_noteCreated] at hb
    split at hb
    · cases hb
      exact hc
    · exact h.cached b account' hb
  logged := List.forall_mem_cons.mpr ⟨trivial, h.logged⟩

theorem db_clearCacheIfTooLarge (s : State) : s.clearCacheIfTooLarge.m_db = s.m_db := by
  unfold clearCacheIfTooLarge
  generalize s.m_unchangedCacheEntries.length - 1000 = n
  induction n generalizing s with
  | zero => rfl
  | succ n ih =>
    rw [Function.iterate_succ_apply, ih]
    unfold evict
    dsimp only
    split
    · split <;> rfl
    · rfl

theorem Named.load (h : s.Named codes) (a : Address) : (s.load a).Named codes := by
  unfold State.load account
  rw [run_bind_ok (run_get s)]
  cases hf : s.m_cache.find a with
  | some account => exact h
  | none =>
    dsimp only
    split
    case isTrue => exact h
    case isFalse =>
      cases hdb : s.m_db.account a with
      | none => exact ⟨h.db, h.cached, h.logged⟩
      | some stored =>
        have hc : s.clearCacheIfTooLarge.Named codes := h.clearCacheIfTooLarge
        have hnew : (Account.ofStored stored).Coded codes s.clearCacheIfTooLarge.m_db := by
          rw [db_clearCacheIfTooLarge]
          exact Account.coded_ofStored h.db hdb
        have hput := hc.modifyAccount (a := a) (f := fun _ => .ofStored stored) hnew
        exact ⟨hput.db, hput.cached, hput.logged⟩

/-- The account is in the cache after it has been read. -/
theorem find_load (s : State) (a : Address) : (s.load a).m_cache.find a = s.peek a := by
  unfold load account peek
  rw [run_bind_ok (run_get s)]
  cases hf : s.m_cache.find a with
  | some account => exact hf
  | none =>
    dsimp only
    split
    case isTrue => exact hf
    case isFalse =>
      cases hdb : s.m_db.account a with
      | none => exact hf
      | some stored => exact (SortedMap.find_insert ..).trans (if_pos rfl)

theorem db_noteStored (s : State) (a : Address) (stored : StoredAccount) :
    (s.noteStored a stored).m_db = s.m_db := rfl

theorem db_load (s : State) (a : Address) : (s.load a).m_db = s.m_db := by
  unfold load account
  rw [run_bind_ok (run_get s)]
  cases s.m_cache.find a with
  | some account => rfl
  | none =>
    dsimp only
    split
    case isTrue => rfl
    case isFalse =>
      cases s.m_db.account a with
      | none => rfl
      | some stored => exact (db_noteStored ..).trans (db_clearCacheIfTooLarge s)

theorem peek_load (s : State) (a : Address) : (s.load a).peek a = s.peek a := by
  cases hp : s.peek a with
  | some account => exact peek_of_find ((find_load s a).trans hp)
  | none =>
    have hf : s.m_cache.find a = none := by
      cases hf : s.m_cache.find a with
      | none => rfl
      | some account => exact nomatch (peek_of_find hf).symm.trans hp
    have hload : s.load a = s ∨ s.load a = s.noteNonExisting a := by
      unfold load account
      rw [run_bind_ok (run_get s), hf]
      dsimp only
      split
      case isTrue => exact .inl rfl
      case isFalse hno =>
        have hdb : s.m_db.account a = none := by
          unfold peek at hp
          rw [hf] at hp
          dsimp only at hp
          rw [if_neg hno] at hp
          exact Option.map_eq_none_iff.mp hp
        rw [hdb]
        exact .inr rfl
    rcases hload with heq | heq
    · rw [heq, hp]
    · rw [heq]
      unfold peek noteNonExisting
      rw [hf]
      exact if_pos List.mem_cons_self

/-- The account that is read has its code. -/
theorem Named.peek (h : s.Named codes) {account : Account} (hp : s.peek a = some account) :
    account.Coded codes s.m_db := by
  have hc := (h.load a).cached a account ((find_load s a).trans hp)
  rwa [db_load] at hc

/-- What `code` answers. -/
def codeAt (s : State) (a : Address) : Bytes := (s.peek a).elim [] (·.codeIn s.m_db)

/-- `code` keeps what it has loaded, and answers what it would have. -/
theorem Named.code (h : s.Named codes) (a : Address) :
    ((State.code a).run s).1 = .ok (s.codeAt a) ∧ ((State.code a).run s).2.Named codes ∧
      ∀ account, s.peek a = some account → ∃ account', ((State.code a).run s).2.peek a =
        some account' ∧ account'.m_codeHash = account.m_codeHash := by
  unfold State.code codeAt
  rw [run_bind_ok (run_account s a)]
  have hload := h.load a
  have hfind := find_load s a
  cases hp : s.peek a with
  | none => exact ⟨rfl, hload, nofun⟩
  | some account =>
    rw [hp] at hfind
    have hc := h.peek hp
    have hpeek : (s.load a).peek a = some account := peek_of_find hfind
    dsimp only [Option.elim_some, Account.codeIn]
    by_cases hempty : account.m_codeHash = EmptySHA3
    · rw [if_pos hempty, if_pos hempty]
      exact ⟨rfl, hload, fun _ heq => ⟨account, hpeek, by cases heq; rfl⟩⟩
    · rw [if_neg hempty, if_neg hempty]
      by_cases hcache : account.m_codeCache = []
      · have hhash : sha3 (s.m_db.code account.m_codeHash) = account.m_codeHash := by
          have hin := hc.hash
          rwa [Account.codeIn, if_neg hempty, if_pos hcache] at hin
        rw [if_pos hcache, if_pos hcache, run_bind_ok (run_get _), db_load,
          if_neg (not_not.mpr hhash)]
        have hentry : (s.load a).entry a = account := entry_of_find hfind
        have hnote : ((s.load a).modifyAccount a
            (·.noteCode (s.m_db.code account.m_codeHash))).Named codes := by
          refine hload.modifyAccount ?_
          rw [hentry, db_load]
          exact hc.noteCode hempty hcache
        refine ⟨rfl, hnote, fun _ heq => ?_⟩
        cases heq
        refine ⟨_, peek_of_find ((find_modifyAccount _).trans (if_pos rfl)), ?_⟩
        rw [hentry]
        rfl
      · rw [if_neg hcache, if_neg hcache]
        exact ⟨rfl, hload, fun _ heq => ⟨account, hpeek, by cases heq; rfl⟩⟩

/-! ### What a thread does with its state -/

variable {α β : Type}

/-- The computation brings no code into play, whether it returns or throws. -/
def KeepsNamed (codes : Codes) (x : StateM α) : Prop :=
  Grows (fun s s' => s.Named codes → s'.Named codes) x

theorem KeepsNamed.pure (v : α) : KeepsNamed codes (pure v : StateM α) :=
  Grows.pure (fun _ h => h) v

theorem KeepsNamed.throw (e : StateError) : KeepsNamed codes (throw e : StateM α) :=
  Grows.throw (fun _ h => h) e

theorem KeepsNamed.get : KeepsNamed codes (get : StateM State) := Grows.get fun _ h => h

theorem KeepsNamed.modify {f : State → State} (hf : ∀ s, s.Named codes → (f s).Named codes) :
    KeepsNamed codes (modify f : StateM Unit) := hf

theorem KeepsNamed.bind {x : StateM α} {f : α → StateM β} (hx : KeepsNamed codes x)
    (hf : ∀ v, KeepsNamed codes (f v)) : KeepsNamed codes (x >>= f) :=
  Grows.bind (fun hab hbc h => hbc (hab h)) hx hf

theorem keepsNamed_account (a : Address) : KeepsNamed codes (account a) := by
  intro s h
  rw [run_account]
  exact h.load a

/-- A change of an account that leaves its code as it is. -/
theorem Named.recode (h : s.Named codes) {f : Account → Account}
    (hf : ∀ account, (f account).m_codeHash = account.m_codeHash ∧
      (f account).m_codeCache = account.m_codeCache ∧
      (f account).m_hasNewCode = account.m_hasNewCode ∧
      (f account).m_isAlive = account.m_isAlive) : (s.modifyAccount a f).Named codes := by
  obtain ⟨hhash, hcache, hnew, halive⟩ := hf (s.entry a)
  exact h.modifyAccount ((h.entry a).same hhash hcache hnew halive)

/-- A computation that goes on with the account that is read. -/
theorem KeepsNamed.of_account {f : Option Account → StateM α} {a : Address}
    (hnone : KeepsNamed codes (f none))
    (hsome : ∀ s account, s.Named codes → account.Coded codes s.m_db →
      ((f (some account)).run s).2.Named codes) : KeepsNamed codes (account a >>= f) := by
  intro s h
  rw [run_bind_ok (run_account s a)]
  cases hp : s.peek a with
  | none => exact hnone _ (h.load a)
  | some account => exact hsome _ account (h.load a) (by rw [db_load]; exact h.peek hp)

theorem keepsNamed_originalStorageValue (a : Address) (key : U256) :
    KeepsNamed codes (originalStorageValue a key) := by
  refine .of_account (.pure _) fun s account h hc => ?_
  show (s.modifyAccount a fun _ => (account.originalStorageValue key s.m_db).2).Named codes
  exact h.modifyAccount (hc.originalStorageValue key)

theorem keepsNamed_storage (a : Address) (key : U256) : KeepsNamed codes (storage a key) := by
  refine .of_account (.pure _) fun s account h hc => ?_
  show (s.modifyAccount a fun _ => (account.storageValue key s.m_db).2).Named codes
  exact h.modifyAccount (hc.storageValue key)

theorem keepsNamed_requireAccountStartNonce :
    KeepsNamed codes requireAccountStartNonce := by
  refine KeepsNamed.get.bind fun s => ?_
  split
  · exact .throw _
  · exact .pure _

theorem keepsNamed_createAccount (a : Address) (nonce balance : U256) :
    KeepsNamed codes (createAccount a (.ofBalance nonce balance)) := by
  refine KeepsNamed.bind ((keepsNamed_account a).bind fun _ => .pure _) fun used => ?_
  cases used with
  | true => exact .throw _
  | false => exact .modify fun s h => h.noteCreated (Account.coded_empty rfl nofun)

theorem keepsNamed_balance (a : Address) : KeepsNamed codes (balance a) :=
  (keepsNamed_account a).bind fun o => by cases o <;> exact .pure _

theorem Named.touchAndAdd (h : s.Named codes) (amount : U256) (account : Account) :
    (State.touchAndAdd a amount account s).Named codes := by
  unfold State.touchAndAdd
  split
  · refine Named.recode ?_ fun _ => ⟨rfl, rfl, rfl, rfl⟩
    exact Named.log h trivial
  · exact h.recode fun _ => ⟨rfl, rfl, rfl, rfl⟩

theorem keepsNamed_addBalance (a : Address) (amount : U256) :
    KeepsNamed codes (addBalance a amount) := by
  refine (keepsNamed_account a).bind fun o => ?_
  cases o with
  | some account =>
    refine .modify fun s h => ?_
    split
    · exact (h.touchAndAdd amount account).log trivial
    · exact h.touchAndAdd amount account
  | none =>
    refine keepsNamed_requireAccountStartNonce.bind fun nonce =>
      (keepsNamed_createAccount a nonce amount).bind fun _ => .modify fun s h => ?_
    split
    · exact h.log trivial
    · exact h

theorem keepsNamed_subBalance (a : Address) (value : U256) :
    KeepsNamed codes (subBalance a value) := by
  unfold subBalance
  split
  · exact .pure _
  · refine (keepsNamed_account a).bind fun o => ?_
    cases o with
    | none => exact .throw _
    | some account =>
      dsimp only
      split
      · exact .throw _
      · exact keepsNamed_addBalance a _

theorem keepsNamed_incNonce (a : Address) : KeepsNamed codes (incNonce a) := by
  refine (keepsNamed_account a).bind fun o => ?_
  cases o with
  | some account =>
    refine .modify fun s h => Named.log ?_ trivial
    exact h.recode fun _ => ⟨rfl, rfl, rfl, rfl⟩
  | none =>
    exact keepsNamed_requireAccountStartNonce.bind fun nonce =>
      keepsNamed_createAccount a (nonce + 1) 0

theorem keepsNamed_setNonce (a : Address) (newNonce : U256) :
    KeepsNamed codes (setNonce a newNonce) := by
  refine (keepsNamed_account a).bind fun o => ?_
  cases o with
  | some account =>
    refine .modify fun s h => Named.log ?_ trivial
    exact h.recode fun _ => ⟨rfl, rfl, rfl, rfl⟩
  | none => exact keepsNamed_createAccount a newNonce 0

theorem keepsNamed_clearStorage (a : Address) : KeepsNamed codes (clearStorage a) := by
  refine .modify fun s h => ?_
  have hid : (s.modifyAccount a id).Named codes := h.recode fun _ => ⟨rfl, rfl, rfl, rfl⟩
  dsimp only
  split
  · exact hid
  · refine Named.recode ?_ fun _ => ⟨rfl, rfl, rfl, rfl⟩
    exact Named.log hid trivial

/-- The code that was there is in play, so it can be noted in the log. -/
theorem keepsNamed_setCode (a : Address) {code : Bytes} (hcode : codes.Names code) :
    KeepsNamed codes (setCode a code) := by
  intro s h
  obtain ⟨hrun, hnamed, -⟩ := h.code a
  have hold : codes.Names (s.codeAt a) := by
    unfold codeAt
    cases hp : s.peek a with
    | none => exact codes.empty
    | some account =>
      have hc := h.peek hp
      exact (congrArg codes.code hc.hash).trans hc.named
  rw [setCode, run_bind_ok (Prod.ext hrun rfl : (State.code a).run s = (.ok (s.codeAt a), _))]
  have hlog := hnamed.log (c := .code a (s.codeAt a)) hold
  exact hlog.modifyAccount (f := (·.setCode code)) (Account.coded_setCode hcode)

theorem keepsNamed_kill (a : Address) : KeepsNamed codes (kill a) := by
  refine (keepsNamed_account a).bind fun o => ?_
  cases o with
  | none => exact .pure _
  | some account =>
    refine .modify fun s h => ?_
    exact h.modifyAccount (f := Account.kill) (Account.coded_empty rfl fun _ => rfl)

theorem Named.undo (h : s.Named codes) {c : Change} (hc : codes.NamesOld c) :
    (s.undo c).Named codes := by
  cases c with
  | storage a key value =>
    exact h.recode (f := (·.setStorage key value)) fun _ => ⟨rfl, rfl, rfl, rfl⟩
  | storageRoot a root =>
    exact h.recode (f := (·.setStorageRoot root)) fun _ => ⟨rfl, rfl, rfl, rfl⟩
  | balance a value =>
    exact h.recode (f := (·.addBalance (0 - value))) fun _ => ⟨rfl, rfl, rfl, rfl⟩
  | nonce a value =>
    exact h.recode (f := (·.setNonce value)) fun _ => ⟨rfl, rfl, rfl, rfl⟩
  | create a =>
    refine ⟨h.db, fun b account hb => ?_, h.logged⟩
    rw [State.undo, SortedMap.find_erase] at hb
    split at hb
    · cases hb
    · exact h.cached b account hb
  | code a code => exact h.modifyAccount (f := (·.setCode code)) (Account.coded_setCode hc)
  | touch a =>
    have htouch : (s.modifyAccount a Account.untouch).Named codes :=
      h.recode fun _ => ⟨rfl, rfl, rfl, rfl⟩
    exact ⟨htouch.db, htouch.cached, htouch.logged⟩

theorem Named.undoAll (h : s.Named codes) {changes : List Change}
    (hc : ∀ c ∈ changes, codes.NamesOld c) : (s.undoAll changes).Named codes := by
  induction changes generalizing s with
  | nil => exact h
  | cons c changes ih =>
    obtain ⟨hhead, htail⟩ := List.forall_mem_cons.mp hc
    exact ih (h.undo hhead) htail

theorem Named.rollback (h : s.Named codes) (savepoint : ℕ) :
    (s.rollback savepoint).Named codes := by
  have hback : (s.undoAll (s.m_changeLog.take (s.m_changeLog.length - savepoint))).Named codes :=
    h.undoAll fun c hc => h.logged c (List.mem_of_mem_take hc)
  exact ⟨hback.db, hback.cached, fun c hmem => h.logged c (List.mem_of_mem_drop hmem)⟩

/-- **Whatever a thread does with its state, its code is named if what it sets is.** -/
theorem keepsNamed_use {u : Use}
    (hu : ∀ a code, u = .mutation (.setCode a code) → codes.Names code) :
    KeepsNamed codes u.call := by
  cases u with
  | account a => exact (keepsNamed_account a).bind fun _ => .pure _
  | storage a key => exact (keepsNamed_storage a key).bind fun _ => .pure _
  | originalStorageValue a key =>
    exact (keepsNamed_originalStorageValue a key).bind fun _ => .pure _
  | kill a => exact keepsNamed_kill a
  | rollback savepoint => exact .modify fun s h => h.rollback savepoint
  | mutation m =>
    cases m with
    | addBalance id amount => exact keepsNamed_addBalance id amount
    | subBalance a value => exact keepsNamed_subBalance a value
    | setBalance a value =>
      exact (keepsNamed_balance a).bind fun _ => keepsNamed_addBalance a _
    | transferBalance sender receiver value =>
      exact (keepsNamed_subBalance sender value).bind fun _ => keepsNamed_addBalance receiver value
    | incNonce a => exact keepsNamed_incNonce a
    | setNonce a newNonce => exact keepsNamed_setNonce a newNonce
    | setStorage contract key value =>
      refine (keepsNamed_storage contract key).bind fun old => .modify fun s h => ?_
      refine Named.recode ?_ fun _ => ⟨rfl, rfl, rfl, rfl⟩
      exact Named.log h trivial
    | clearStorage contract => exact keepsNamed_clearStorage contract
    | setCode a code => exact keepsNamed_setCode a (hu a code rfl)
    | createContract a =>
      exact keepsNamed_requireAccountStartNonce.bind fun nonce =>
        keepsNamed_createAccount a nonce 0

theorem Named.removeEmptyAccounts (h : s.Named codes) : s.removeEmptyAccounts.Named codes where
  db := h.db
  cached a account ha := by
    rw [State.removeEmptyAccounts, SortedMap.find_mapVals] at ha
    obtain ⟨old, hold, rfl⟩ := Option.map_eq_some_iff.mp ha
    split
    · exact Account.coded_empty rfl fun _ => rfl
    · exact h.cached a old hold
  logged := h.logged

theorem named_committed (s : State) {db : StateDB} (hdb : codes.NamesAll db) :
    (s.committed db).Named codes where
  db := hdb
  cached _ _ := nofun
  logged _ hc := nomatch hc

/-- An account that is committed has not been killed, so the size is that of its code. -/
theorem Named.newCodes (h : s.Named codes) {hash : H256} {size : ℕ}
    (hmem : (hash, size) ∈ s.newCodes) : size = (codes.code hash).length := by
  obtain ⟨⟨a, account⟩, hentry, hsome⟩ := List.mem_filterMap.mp hmem
  dsimp only at hsome
  split at hsome
  case isFalse => cases hsome
  case isTrue hnew =>
    cases hsome
    simp only [Bool.and_eq_true] at hnew
    have hc := h.cached a account (SortedMap.find_eq_some_iff.mpr hentry)
    rcases hc.fresh hnew.2 with hcode | ⟨hdead, -⟩
    · rw [hcode]
    · rw [hdead] at hnew
      cases hnew.1.2

theorem Named.codeAt (h : s.Named codes) {account : Account} (hp : s.peek a = some account) :
    s.codeAt a = codes.code account.m_codeHash := by
  rw [State.codeAt, hp]
  exact (h.peek hp).named.symm

end State

end Aleth.Ethereum
