import Aleth.Devcore.TrieDB
import Aleth.Devcore.Sha3
import Aleth.Structure.SortedMap

/-! Accounts in the cache of a state (`Account.h`, `Account.cpp`).

`StateDB` is what is in the database: the accounts of the state trie at its
root, the contents of the storage tries by root, and code by hash. A trie
answers as a map (`run_contents`), so it is one here.

An account keeps what was written over its storage trie (`m_storageOverlay`) and
what was read from it (`m_storageOriginal`). `Account.view` is what can be
observed of an account. -/
namespace Aleth.Ethereum
open Devcore

variable [Sha3]

def EmptyTrie : H256 := GenericTrieDB.EmptyTrie sha3

/-- The items of the RLP list that is stored for an account. -/
structure StoredAccount where
  nonce : U256
  balance : U256
  storageRoot : H256
  codeHash : H256

structure StateDB where
  account : Address → Option StoredAccount
  /-- The storage trie of a root, zero where it has nothing. -/
  storage : H256 → U256 → U256
  code : H256 → Bytes
  storage_empty : ∀ k, storage EmptyTrie k = 0
  code_hash : ∀ a s, account a = some s → s.codeHash ≠ EmptySHA3 →
    sha3 (code s.codeHash) = s.codeHash

/-- The fields are initialised as those of a dead account. -/
structure Account where
  m_isAlive : Bool := false
  m_isUnchanged : Bool := false
  m_hasNewCode : Bool := false
  m_nonce : U256 := 0
  m_balance : U256 := 0
  m_storageRoot : H256 := EmptyTrie
  m_codeHash : H256 := EmptySHA3
  m_storageOverlay : SortedMap U256 U256 := .empty
  m_storageOriginal : SortedMap U256 U256 := .empty
  m_codeCache : Bytes := []
deriving DecidableEq

namespace Account

/-- `Account()`. -/
def dead : Account := {}

/-- `Account(_nonce, _balance)`. -/
def ofBalance (nonce balance : U256) : Account :=
  {m_isAlive := true, m_nonce := nonce, m_balance := balance}

/-- An account read from the trie, `Unchanged`. -/
def ofStored (s : StoredAccount) : Account :=
  { m_isAlive := true, m_isUnchanged := true, m_nonce := s.nonce, m_balance := s.balance
    m_storageRoot := s.storageRoot, m_codeHash := s.codeHash }

def isDirty (a : Account) : Bool := !a.m_isUnchanged

def isEmpty (a : Account) : Bool := a.m_nonce = 0 ∧ a.m_balance = 0 ∧ a.m_codeHash = EmptySHA3

def changed (a : Account) : Account := {a with m_isUnchanged := false}

def untouch (a : Account) : Account := {a with m_isUnchanged := true}

def kill (a : Account) : Account :=
  changed { a with
    m_isAlive := false
    m_storageOverlay := .empty
    m_storageOriginal := .empty
    m_codeHash := EmptySHA3
    m_storageRoot := EmptyTrie
    m_balance := 0
    m_nonce := 0 }

def addBalance (a : Account) (value : U256) : Account :=
  changed {a with m_balance := a.m_balance + value}

def setNonce (a : Account) (nonce : U256) : Account := changed {a with m_nonce := nonce}

def incNonce (a : Account) : Account := changed {a with m_nonce := a.m_nonce + 1}

/-- What is read is kept. -/
def originalStorageValue (a : Account) (key : U256) (db : StateDB) : U256 × Account :=
  match a.m_storageOriginal.find key with
  | some value => (value, a)
  | none =>
    let value := db.storage a.m_storageRoot key
    (value, {a with m_storageOriginal := a.m_storageOriginal.insert key value})

def storageValue (a : Account) (key : U256) (db : StateDB) : U256 × Account :=
  match a.m_storageOverlay.find key with
  | some value => (value, a)
  | none => a.originalStorageValue key db

def setStorage (a : Account) (p v : U256) : Account :=
  changed {a with m_storageOverlay := a.m_storageOverlay.insert p v}

def setStorageRoot (a : Account) (root : H256) : Account :=
  changed {a with m_storageOverlay := .empty, m_storageOriginal := .empty, m_storageRoot := root}

def clearStorage (a : Account) : Account := a.setStorageRoot EmptyTrie

/-- `setCode` does not note a change. -/
def setCode (a : Account) (code : Bytes) : Account :=
  {a with m_codeCache := code, m_hasNewCode := true, m_codeHash := sha3 code}

def noteCode (a : Account) (code : Bytes) : Account := {a with m_codeCache := code}

end Account

/-! ### What can be observed -/

@[ext]
structure AccountView where
  alive : Bool
  nonce : U256
  balance : U256
  root : H256
  codeHash : H256
  code : Bytes
  storage : U256 → U256

namespace Account
variable (db : StateDB)

/-- What `code` answers: an empty cache is filled from the database. -/
def codeIn (a : Account) : Bytes :=
  if a.m_codeHash = EmptySHA3 then [] else if a.m_codeCache = [] then db.code a.m_codeHash
  else a.m_codeCache

/-- The storage as it is without the writes of the account's life in the cache. -/
def original (a : Account) (k : U256) : U256 := db.storage a.m_storageRoot k

def storageIn (a : Account) (k : U256) : U256 := (a.m_storageOverlay.find k).getD (a.original db k)

def view (a : Account) : AccountView where
  alive := a.m_isAlive
  nonce := a.m_nonce
  balance := a.m_balance
  root := a.m_storageRoot
  codeHash := a.m_codeHash
  code := a.codeIn db
  storage := a.storageIn db

/-- What is kept of the database is what it holds. -/
structure Coherent (a : Account) : Prop where
  original : ∀ k v, a.m_storageOriginal.find k = some v → v = a.original db k
  code : sha3 (a.codeIn db) = a.m_codeHash

variable {db} {a : Account}

theorem originalStorageValue_fst (h : a.Coherent db) (k : U256) :
    (a.originalStorageValue k db).1 = a.original db k := by
  unfold originalStorageValue
  cases ho : a.m_storageOriginal.find k with
  | some v => exact h.original k v ho
  | none => rfl

theorem storageValue_fst (h : a.Coherent db) (k : U256) :
    (a.storageValue k db).1 = a.storageIn db k := by
  unfold storageValue storageIn
  cases a.m_storageOverlay.find k with
  | some v => rfl
  | none => exact originalStorageValue_fst h k

end Account
end Aleth.Ethereum
