import Aleth.Ethereum.Account
import Aleth.Structure.Throwing

/-! The state of all accounts (`State.h`, `State.cpp`).

Accounts are read through `m_cache`; a read may evict accounts of the cache that
have not been changed, chosen by a random engine. Every mutator notes in
`m_changeLog` how to undo what it does, and `rollback` undoes the changes since
a savepoint. The log is kept with the newest change first. Accounts in the cache
are reached through a pointer or by `m_cache[address]`, which makes a dead
account where there is none: both are `modifyAccount`. -/
namespace Aleth.Ethereum
open Devcore Throwing
variable [Sha3]

inductive StateError where
  | notEnoughCash
  | invalidAccountStartNonce
  | assertion
deriving DecidableEq

/-- An atomic entry of the changelog. -/
inductive Change where
  | storage (address : Address) (key value : U256)
  | storageRoot (address : Address) (value : H256)
  | balance (address : Address) (value : U256)
  | nonce (address : Address) (value : U256)
  | create (address : Address)
  | code (address : Address) (oldCode : Bytes)
  | touch (address : Address)
deriving DecidableEq

def Change.address : Change → Address
  | .storage a _ _ => a
  | .storageRoot a _ => a
  | .balance a _ => a
  | .nonce a _ => a
  | .create a => a
  | .code a _ => a
  | .touch a => a

structure State where
  m_db : StateDB
  m_cache : SortedMap Address Account
  m_unchangedCacheEntries : List Address
  m_nonExistingAccountsCache : List Address
  m_accountStartNonce : U256
  m_changeLog : List Change
  /-- What `s_fixedHashEngine` will draw. -/
  engine : ℕ → ℕ

abbrev StateM := Throwing State StateError

namespace State

/-- `Invalid256`: the start nonce is not known. -/
def Invalid256 : U256 := BitVec.allOnes 256

/-- `m_cache[address]`, or what a pointer to the account refers to. -/
def entry (s : State) (a : Address) : Account := (s.m_cache.find a).getD .dead

def modifyAccount (a : Address) (f : Account → Account) (s : State) : State :=
  {s with m_cache := s.m_cache.insert a (f (s.entry a))}

def log (c : Change) (s : State) : State := {s with m_changeLog := c :: s.m_changeLog}

/-! ### The cache -/

/-- One turn of the loop of `clearCacheIfTooLarge`: a random entry is taken out of the list, and
its account out of the cache unless it has been changed. -/
def evict (s : State) : State :=
  let randomIndex := s.engine 0 % s.m_unchangedCacheEntries.length
  let addr := s.m_unchangedCacheEntries.getD randomIndex 0
  let back := s.m_unchangedCacheEntries.getLastD 0
  let s := { s with
    m_unchangedCacheEntries := (s.m_unchangedCacheEntries.set randomIndex back).dropLast
    engine := fun n => s.engine (n + 1) }
  match s.m_cache.find addr with
  | some account => if !account.isDirty then {s with m_cache := s.m_cache.erase addr} else s
  | none => s

def clearCacheIfTooLarge (s : State) : State := evict^[s.m_unchangedCacheEntries.length - 1000] s

def noteNonExisting (a : Address) (s : State) : State :=
  {s with m_nonExistingAccountsCache := a :: s.m_nonExistingAccountsCache}

def noteStored (a : Address) (stateBack : StoredAccount) (s : State) : State := { s with
  m_cache := s.m_cache.insert a (.ofStored stateBack)
  m_unchangedCacheEntries := s.m_unchangedCacheEntries ++ [a] }

def account (a : Address) : StateM (Option Account) := do
  let s ← get
  match s.m_cache.find a with
  | some account => return some account
  | none =>
    if a ∈ s.m_nonExistingAccountsCache then return none
    else match s.m_db.account a with
      | none => do
        modify (noteNonExisting a)
        return none
      | some stateBack => do
        modify clearCacheIfTooLarge
        modify (noteStored a stateBack)
        return some (.ofStored stateBack)

/-- The account that `account` answers with. -/
def peek (s : State) (a : Address) : Option Account :=
  match s.m_cache.find a with
  | some account => some account
  | none =>
    if a ∈ s.m_nonExistingAccountsCache then none else (s.m_db.account a).map .ofStored

/-! ### Observers -/

def addressInUse (a : Address) : StateM Bool := do
  return (← account a).isSome

def accountNonemptyAndExisting (a : Address) : StateM Bool := do
  match ← account a with
  | some account => return !account.isEmpty
  | none => return false

def addressHasCode (a : Address) : StateM Bool := do
  match ← account a with
  | some account => return account.m_codeHash ≠ EmptySHA3
  | none => return false

def balance (a : Address) : StateM U256 := do
  match ← account a with
  | some account => return account.m_balance
  | none => return 0

def getNonce (a : Address) : StateM U256 := do
  match ← account a with
  | some account => return account.m_nonce
  | none => do
    let s ← get
    return s.m_accountStartNonce

def storage (a : Address) (key : U256) : StateM U256 := do
  match ← account a with
  | some account => do
    let s ← get
    let (value, account) := account.storageValue key s.m_db
    modify (modifyAccount a fun _ => account)
    return value
  | none => return 0

def originalStorageValue (a : Address) (key : U256) : StateM U256 := do
  match ← account a with
  | some account => do
    let s ← get
    let (value, account) := account.originalStorageValue key s.m_db
    modify (modifyAccount a fun _ => account)
    return value
  | none => return 0

def code (a : Address) : StateM Bytes := do
  match ← account a with
  | none => return []
  | some account =>
    if account.m_codeHash = EmptySHA3 then return []
    else if account.m_codeCache = [] then do
      let s ← get
      let code := s.m_db.code account.m_codeHash
      if sha3 code ≠ account.m_codeHash then throw .assertion
      else do
        modify (modifyAccount a (·.noteCode code))
        return code
    else return account.m_codeCache

def codeHash (a : Address) : StateM H256 := do
  match ← account a with
  | some account => return account.m_codeHash
  | none => return EmptySHA3

/-! ### Mutators -/

def requireAccountStartNonce : StateM U256 := do
  let s ← get
  if s.m_accountStartNonce = Invalid256 then throw .invalidAccountStartNonce
  else return s.m_accountStartNonce

def noteCreated (a : Address) (account : Account) (s : State) : State := { s with
  m_cache := s.m_cache.insert a account
  m_nonExistingAccountsCache := s.m_nonExistingAccountsCache.filter (· ≠ a)
  m_changeLog := .create a :: s.m_changeLog }

def createAccount (a : Address) (account : Account) : StateM Unit := do
  let used ← addressInUse a
  if used then throw .assertion else modify (noteCreated a account)

def createContract (a : Address) : StateM Unit := do
  let nonce ← requireAccountStartNonce
  createAccount a (.ofBalance nonce 0)

def incNonce (a : Address) : StateM Unit := do
  match ← account a with
  | some account => modify fun s =>
    (s.modifyAccount a Account.incNonce).log (.nonce a account.m_nonce)
  | none => do
    let nonce ← requireAccountStartNonce
    createAccount a (.ofBalance (nonce + 1) 0)

def setNonce (a : Address) (newNonce : U256) : StateM Unit := do
  match ← account a with
  | some account => modify fun s =>
    (s.modifyAccount a (·.setNonce newNonce)).log (.nonce a account.m_nonce)
  | none => createAccount a (.ofBalance newNonce 0)

/-- The first touch of an empty account is noted. -/
def touchAndAdd (id : Address) (amount : U256) (account : Account) (s : State) : State :=
  (if !account.isDirty && account.isEmpty then s.log (.touch id) else s).modifyAccount id
    (·.addBalance amount)

def addBalance (id : Address) (amount : U256) : StateM Unit := do
  match ← account id with
  | some account => modify fun s =>
    if amount ≠ 0 then (touchAndAdd id amount account s).log (.balance id amount)
    else touchAndAdd id amount account s
  | none => do
    let nonce ← requireAccountStartNonce
    createAccount id (.ofBalance nonce amount)
    modify fun s => if amount ≠ 0 then s.log (.balance id amount) else s

def subBalance (a : Address) (value : U256) : StateM Unit :=
  if value = 0 then pure ()
  else do
    match ← account a with
    | none => throw .notEnoughCash
    | some account =>
      if account.m_balance < value then throw .notEnoughCash else addBalance a (0 - value)

def setBalance (a : Address) (value : U256) : StateM Unit := do
  let original ← balance a
  addBalance a (value - original)

def transferBalance (sender receiver : Address) (value : U256) : StateM Unit := do
  subBalance sender value
  addBalance receiver value

def setStorage (contract : Address) (key value : U256) : StateM Unit := do
  let old ← storage contract key
  modify fun s => (s.log (.storage contract key old)).modifyAccount contract (·.setStorage key value)

/-- The account is not loaded: `m_cache[_contract]`. -/
def clearStorage (contract : Address) : StateM Unit := modify fun s =>
  let oldHash := (s.entry contract).m_storageRoot
  let s := s.modifyAccount contract id
  if oldHash = EmptyTrie then s
  else (s.log (.storageRoot contract oldHash)).modifyAccount contract Account.clearStorage

def setCode (a : Address) (newCode : Bytes) : StateM Unit := do
  let old ← code a
  modify fun s => (s.log (.code a old)).modifyAccount a (·.setCode newCode)

def kill (a : Address) : StateM Unit := do
  match ← account a with
  | some _ => modify (modifyAccount a Account.kill)
  | none => return ()

/-! ### Savepoints -/

def savepoint (s : State) : ℕ := s.m_changeLog.length

/-- What `rollback` does with the last entry of the log; the entry is taken off by the caller. -/
def undo (s : State) : Change → State
  | .storage a key value => s.modifyAccount a (·.setStorage key value)
  | .storageRoot a value => s.modifyAccount a (·.setStorageRoot value)
  | .balance a value => s.modifyAccount a (·.addBalance (0 - value))
  | .nonce a value => s.modifyAccount a (·.setNonce value)
  | .create a => {s with m_cache := s.m_cache.erase a}
  | .code a oldCode => s.modifyAccount a (·.setCode oldCode)
  | .touch a =>
    { s.modifyAccount a Account.untouch with
      m_unchangedCacheEntries := s.m_unchangedCacheEntries ++ [a] }

def undoAll (s : State) (changes : List Change) : State := changes.foldl undo s

/-- Back to a log of `savepoint` entries. -/
def rollback (savepoint : ℕ) (s : State) : State :=
  let since := s.m_changeLog.length - savepoint
  { s.undoAll (s.m_changeLog.take since) with m_changeLog := s.m_changeLog.drop since }

end State
end Aleth.Ethereum
