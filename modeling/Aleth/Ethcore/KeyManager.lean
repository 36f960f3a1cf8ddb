import Aleth.Ethcore.KeyIndex
import Aleth.Structure.InsertionMap

/-! Unlocking the keys (`KeyManager.cpp`, `SecretStore.cpp`).

`load` derives the key of the keys file and keeps it before it has seen whether
the file can be read with it, and each entry that it reads is assigned at once.
When it fails, what has been assigned stays, and the next call that writes
overwrites the keys file under the key that was kept. `Harmless` is when none of
this can be noticed (`loadSafe_iff`). -/
namespace Aleth.Ethcore
open Devcore Devcrypto Throwing

/-! ### The state -/

inductive Failure where
  | passwordUnknown
  | other
deriving DecidableEq

/-- What the libraries provide. Random bytes are drawn outside, `seed`. -/
structure KeyPrimitives extends Primitives where
  /-- With 262144 rounds; the last argument is the length. -/
  pbkdf2 : (password salt : Bytes) → (dkLen : ℕ) → FixedHash dkLen
  toAddress : Secret → Address
  encrypt : (key password seed : Bytes) → Except Failure Bytes
  /-- Empty with another password. -/
  decrypt : (encrypted password : Bytes) → Except Failure Bytes

structure EncryptedKey where
  encryptedKey : Bytes := []
  address : Address := 0
deriving DecidableEq

structure SecretStore where
  m_keys : InsertionMap Uuid EncryptedKey := .empty
  m_cached : InsertionMap Uuid Bytes := .empty

/-- What the keys file was overwritten with: the key, and the index that is encrypted with it. -/
structure Written where
  key : H128
  index : Bytes
deriving DecidableEq

structure KeyManager where
  m_uuidLookup : InsertionMap Uuid Address := .empty
  m_addrLookup : InsertionMap Address Uuid := .empty
  m_keyInfo : InsertionMap Address KeyInfo := .empty
  m_passwordHint : InsertionMap PassHash Bytes := .empty
  m_cachedPasswords : InsertionMap PassHash Bytes := .empty
  m_defaultPasswordDeprecated : Bytes := []
  m_keysFileKey : H128 := .zero 16
  m_master : PassHash := .zero 32
  m_store : SecretStore := {}
  /-- The writes so far. -/
  written : List Written := []

abbrev Calls := Throwing KeyManager Failure

/-! ### The code -/

namespace SecretStore

def noteAddress (s : SecretStore) (uuid : Uuid) (address : Address) : SecretStore :=
  match s.m_keys.find uuid with
  | some k =>
    if k.address = 0 then {s with m_keys := s.m_keys.set uuid {k with address := address}} else s
  | none => s

end SecretStore

namespace KeyManager

def uuid (m : KeyManager) (a : Address) : Uuid := (m.m_addrLookup.find a).getD (.zero 16)

def address (m : KeyManager) (uuid : Uuid) : Address := (m.m_uuidLookup.find uuid).getD 0

/-- `accounts`: without the zero address. -/
def accounts (m : KeyManager) : Finset Address :=
  (m.m_keyInfo.keys ++ m.m_store.m_keys.keys.map fun u =>
    ((m.m_store.m_keys.find u).getD {}).address).toFinset.erase 0

/-- What is written: the maps in their order. -/
def index (m : KeyManager) : KeyIndex where
  entries := m.m_keyInfo.keys.map fun a =>
    let ki := (m.m_keyInfo.find a).getD {}
    ⟨a, m.uuid a, ki.passHash, ki.accountName, some ki.passwordHint⟩
  hints := m.m_passwordHint.keys.map fun h => (h, (m.m_passwordHint.find h).getD [])
  defaultPassword := m.m_defaultPasswordDeprecated

/-- An assignment while the index is read. -/
def note (m : KeyManager) : Note → KeyManager
  | .lookup uuid addr =>
    {m with m_addrLookup := m.m_addrLookup.set addr uuid,
            m_uuidLookup := m.m_uuidLookup.set uuid addr}
  | .info addr info stored =>
    {m with m_keyInfo := m.m_keyInfo.set addr info,
            m_store := stored.elim m.m_store fun uuid => m.m_store.noteAddress uuid addr}
  | .hint hash hint => {m with m_passwordHint := m.m_passwordHint.set hash hint}

end KeyManager

namespace KeyPrimitives
variable (p : KeyPrimitives)

def hashPassword (m : KeyManager) (pass : Bytes) : PassHash :=
  p.pbkdf2 pass m.m_defaultPasswordDeprecated 32

def cachePassword (pass : Bytes) (m : KeyManager) : KeyManager :=
  {m with m_cachedPasswords := m.m_cachedPasswords.set (p.hashPassword m pass) pass}

/-- What the keys file decrypts to. -/
def decrypted (salt encKeys pass : Bytes) : Bytes :=
  p.encryptAES128CTR (p.pbkdf2 pass salt 16).1 (.zero 16) encKeys

/-- Reading what the keys file decrypts to: the default password or what is thrown, and what has
been assigned. -/
def reading (m : KeyManager) (salt encKeys pass : Bytes) :
    Except RLPException (Option Bytes) × List Note :=
  (Reading.readIndex m.m_store.m_keys.contains (p.decrypted salt encKeys pass)).run []

/-- `load`, for the contents of the keys file and of its salt. -/
def load (salt encKeys pass : Bytes) (m : KeyManager) : Bool × KeyManager :=
  if encKeys = [] then (false, m)
  else
    let m := {m with m_keysFileKey := p.pbkdf2 pass salt 16}
    match p.reading m salt encKeys pass with
    | (.error _, notes) => (false, notes.foldl KeyManager.note m)
    | (.ok password, notes) =>
      let m := notes.foldl KeyManager.note m
      let m := {m with m_defaultPasswordDeprecated := password.getD m.m_defaultPasswordDeprecated}
      let m := p.cachePassword m.m_defaultPasswordDeprecated m
      let m := p.cachePassword m.m_keysFileKey.1 m
      let m := {m with m_master := p.hashPassword m pass}
      (true, p.cachePassword pass m)

/-- The rounds of `getPassword`, from the `i`-th answer on. -/
def askPassword (passHash : PassHash) (pass : ℕ → Except Failure Bytes) :
    (rounds i : ℕ) → Calls Bytes
  | 0, _ => pure []
  | rounds + 1, i => do
    let answer ← lift (pass i)
    if answer = [] then pure []
    else do
      let hash ← gets fun m => p.hashPassword m answer
      if passHash = .zero 32 ∨ hash = passHash then do
        modify (p.cachePassword answer)
        return answer
      else askPassword passHash pass rounds (i + 1)

def getPassword (passHash : PassHash) (pass : ℕ → Except Failure Bytes) : Calls Bytes := do
  match ← gets fun m => m.m_cachedPasswords.find passHash with
  | some password => pure password
  | none => p.askPassword passHash pass 10 0

def getPasswordOf (uuid : Uuid) (pass : ℕ → Except Failure Bytes) : Calls Bytes := do
  let passHash ← gets fun m =>
    ((m.m_uuidLookup.find uuid).bind m.m_keyInfo.find).elim (.zero 32) KeyInfo.passHash
  p.getPassword passHash pass

def dontKnowThrow : ℕ → Except Failure Bytes := fun _ => .error .passwordUnknown

def defaultPassword : Calls Bytes := do
  p.getPassword (← gets KeyManager.m_master) dontKnowThrow

/-- `write(m_keysFile)`. -/
def write : Calls Bool := do
  let key ← gets KeyManager.m_keysFileKey
  if key = .zero 16 then return false
  else do
    modify fun m => {m with
      written := m.written ++ [⟨key, m.index.rlp.encode⟩],
      m_keysFileKey := key}
    let password ← p.defaultPassword
    modify (p.cachePassword password)
    return true

/-- `SecretStore::secret`. -/
def storeSecret (uuid : Uuid) (pass : Calls Bytes) : Calls Bytes := do
  match ← gets fun m => m.m_store.m_cached.find uuid with
  | some key => pure key
  | none =>
    match ← gets fun m => (m.m_store.m_keys.find uuid).map EncryptedKey.encryptedKey with
    | none => pure []
    | some encrypted => do
      let key ← lift (p.decrypt encrypted (← pass))
      if key = [] then pure key
      else do
        modify fun m => {m with m_store.m_cached := m.m_store.m_cached.set uuid key}
        modify fun m => {m with
          m_store := m.m_store.noteAddress uuid (p.toAddress (.ofBytes 32 key))}
        return key

/-- `SecretStore::importSecret`, where `r` is drawn. -/
def importSecret (r : Uuid) (s pass seed : Bytes) : Calls Unit := do
  let encrypted ← lift (p.encrypt s pass seed)
  let address := p.toAddress (.ofBytes 32 s)
  modify fun m => {m with
    m_store.m_cached := m.m_store.m_cached.set r s,
    m_store.m_keys := m.m_store.m_keys.set r ⟨encrypted, address⟩}

/-- `SecretStore::recode`. -/
def storeRecode (uuid : Uuid) (newPass : Bytes) (pass : Calls Bytes) (seed : Bytes) :
    Calls Bool := do
  let s ← p.storeSecret uuid pass
  if s = [] then return false
  else do
    modify fun m => {m with m_store.m_cached := m.m_store.m_cached.erase uuid}
    let encrypted ← lift (p.encrypt s newPass seed)
    modify fun m =>
      let k := (m.m_store.m_keys.find uuid).getD {}
      {m with m_store.m_keys := m.m_store.m_keys.set uuid {k with encryptedKey := encrypted}}
    return true

/-- `import`. -/
def importKey (s : Secret) (accountName pass passwordHint : Bytes) (r : Uuid) (seed : Bytes) :
    Calls Uuid := do
  let addr := p.toAddress s
  let passHash ← gets fun m => p.hashPassword m pass
  modify (p.cachePassword pass)
  modify fun m => {m with m_passwordHint := m.m_passwordHint.set passHash passwordHint}
  p.importSecret r s.1 pass seed
  modify fun m => {m with
    m_keyInfo := m.m_keyInfo.set addr ⟨passHash, accountName, []⟩,
    m_addrLookup := m.m_addrLookup.set addr r,
    m_uuidLookup := m.m_uuidLookup.set r addr}
  let _ ← p.write
  return r

/-- The second `importExisting`. -/
def importExistingAs (uuid : Uuid) (accountName : Bytes) (address : Address)
    (passHash : PassHash) (passwordHint : Bytes) : Calls Unit := do
  modify fun m =>
    if m.m_passwordHint.contains passHash then m
    else {m with m_passwordHint := m.m_passwordHint.set passHash passwordHint}
  modify fun m =>
    let ki := (m.m_keyInfo.find address).getD {}
    {m with
      m_uuidLookup := m.m_uuidLookup.set uuid address,
      m_addrLookup := m.m_addrLookup.set address uuid,
      m_keyInfo :=
        m.m_keyInfo.set address {ki with passHash := passHash, accountName := accountName}}
  let _ ← p.write
  return ()

def importExisting (uuid : Uuid) (info pass passwordHint : Bytes) : Calls Unit := do
  let key ← p.storeSecret uuid (pure pass)
  if key = [] then return ()
  else do
    let passHash ← gets fun m => p.hashPassword m pass
    modify fun m => if m.m_cachedPasswords.contains passHash then m else p.cachePassword pass m
    p.importExistingAs uuid info (p.toAddress (.ofBytes 32 key)) passHash passwordHint

def recode (address : Address) (newPass hint : Bytes) (pass : ℕ → Except Failure Bytes)
    (seed : Bytes) : Calls Bool := do
  modify fun m =>
    if hint = [] then m
    else {m with m_passwordHint := m.m_passwordHint.set (p.hashPassword m newPass) hint}
  let u ← gets fun m => m.uuid address
  if ← p.storeRecode u newPass (p.getPasswordOf u pass) seed then do
    modify fun m =>
      let ki := (m.m_keyInfo.find address).getD {}
      {m with m_keyInfo :=
        m.m_keyInfo.set address {ki with passHash := p.hashPassword m newPass}}
    let _ ← p.write
    return true
  else return false

def kill (a : Address) : Calls Unit := do
  let id ← gets fun m => m.uuid a
  modify fun m => {m with
    m_uuidLookup := m.m_uuidLookup.erase id,
    m_addrLookup := m.m_addrLookup.erase a,
    m_keyInfo := m.m_keyInfo.erase a,
    m_store := ⟨m.m_store.m_keys.erase id, m.m_store.m_cached.erase id⟩}
  let _ ← p.write
  return ()

end KeyPrimitives

/-- A call that writes the keys file, with what is drawn for it. -/
inductive Call where
  | importKey (s : Secret) (accountName pass passwordHint : Bytes) (r : Uuid) (seed : Bytes)
  /-- With the default password. -/
  | importDefault (s : Secret) (accountName : Bytes) (r : Uuid) (seed : Bytes)
  | importExisting (uuid : Uuid) (info pass passwordHint : Bytes)
  | importExistingAs (uuid : Uuid) (accountName : Bytes) (address : Address) (passHash : PassHash)
    (passwordHint : Bytes)
  | recode (address : Address) (newPass hint : Bytes) (pass : ℕ → Except Failure Bytes)
    (seed : Bytes)
  | kill (a : Address)
  | killKey (id : Uuid)

namespace KeyPrimitives
variable (p : KeyPrimitives)

def perform : Call → Calls Unit
  | .importKey s accountName pass passwordHint r seed => do
    let _ ← p.importKey s accountName pass passwordHint r seed
    return ()
  | .importDefault s accountName r seed => do
    let _ ← p.importKey s accountName (← p.defaultPassword) [] r seed
    return ()
  | .importExisting uuid info pass passwordHint => p.importExisting uuid info pass passwordHint
  | .importExistingAs uuid accountName address passHash passwordHint =>
    p.importExistingAs uuid accountName address passHash passwordHint
  | .recode address newPass hint pass seed => do
    let _ ← p.recode address newPass hint pass seed
    return ()
  | .kill a => p.kill a
  | .killKey id => do p.kill (← gets fun m => m.address id)

/-- One call after the other, whether or not they throw. -/
def performAll (calls : List Call) (m : KeyManager) : KeyManager :=
  calls.foldl (fun m c => ((p.perform c).run m).2) m

end KeyPrimitives

/-! ### The specification -/

/-- Nothing that can be asked for has changed. -/
structure Untouched (m m' : KeyManager) : Prop where
  uuidLookup : m'.m_uuidLookup = m.m_uuidLookup
  addrLookup : m'.m_addrLookup = m.m_addrLookup
  keyInfo : m'.m_keyInfo = m.m_keyInfo
  passwordHint : m'.m_passwordHint = m.m_passwordHint
  cachedPasswords : m'.m_cachedPasswords = m.m_cachedPasswords
  accounts : m'.accounts = m.accounts

/-- A failed load does no damage, and one that succeeds has read a complete index. -/
structure KeyPrimitives.LoadSafe (p : KeyPrimitives) (salt encKeys pass : Bytes)
    (m : KeyManager) : Prop where
  untouched : (p.load salt encKeys pass m).1 = false → Untouched m (p.load salt encKeys pass m).2
  written : (p.load salt encKeys pass m).1 = false → ∀ calls : List Call,
    (p.performAll calls (p.load salt encKeys pass m).2).written = (p.performAll calls m).written
  complete : (p.load salt encKeys pass m).1 = true → Complete (p.decrypted salt encKeys pass)

namespace Note

def addrEntry : Note → Option (Address × Uuid)
  | .lookup uuid addr => some (addr, uuid)
  | _ => none

def uuidEntry : Note → Option (Uuid × Address)
  | .lookup uuid addr => some (uuid, addr)
  | _ => none

def infoEntry : Note → Option (Address × KeyInfo)
  | .info addr ki _ => some (addr, ki)
  | _ => none

def hintEntry : Note → Option (PassHash × Bytes)
  | .hint hash text => some (hash, text)
  | _ => none

end Note

/-- What the entries say at the last of each key is what the manager has already. -/
structure KeyManager.Repeated (m : KeyManager) (notes : List Note) : Prop where
  addrLookup : m.m_addrLookup.Has (notes.filterMap Note.addrEntry)
  uuidLookup : m.m_uuidLookup.Has (notes.filterMap Note.uuidEntry)
  keyInfo : m.m_keyInfo.Has (notes.filterMap Note.infoEntry)
  passwordHint : m.m_passwordHint.Has (notes.filterMap Note.hintEntry)

/-- There is no keys file; or it is read to its end, and is complete; or it is not, and the key is
the one in force, and the entries before the fault repeat what is there. -/
def KeyPrimitives.Harmless (p : KeyPrimitives) (salt encKeys pass : Bytes)
    (m : KeyManager) : Prop :=
  encKeys = [] ∨
    match p.reading m salt encKeys pass with
    | (.ok _, _) => Complete (p.decrypted salt encKeys pass)
    | (.error _, notes) => p.pbkdf2 pass salt 16 = m.m_keysFileKey ∧ m.Repeated notes

/-! ### What calls see -/

namespace SecretStore

def encryptedKey (s : SecretStore) (uuid : Uuid) : Option Bytes :=
  (s.m_keys.find uuid).map EncryptedKey.encryptedKey

theorem encryptedKey_set (keys : InsertionMap Uuid EncryptedKey) (cached : InsertionMap Uuid Bytes)
    (uuid v : Uuid) (k : EncryptedKey) :
    SecretStore.encryptedKey ⟨keys.set uuid k, cached⟩ v =
      if v = uuid then some k.encryptedKey else SecretStore.encryptedKey ⟨keys, cached⟩ v := by
  unfold encryptedKey
  rw [InsertionMap.find_set]
  split <;> rfl

theorem encryptedKey_erase (keys : InsertionMap Uuid EncryptedKey)
    (cached : InsertionMap Uuid Bytes) (uuid v : Uuid) :
    SecretStore.encryptedKey ⟨keys.erase uuid, cached⟩ v =
      if v = uuid then none else SecretStore.encryptedKey ⟨keys, cached⟩ v := by
  unfold encryptedKey
  rw [InsertionMap.find_erase]
  split <;> rfl

theorem encryptedKey_noteAddress (s : SecretStore) (uuid v : Uuid) (a : Address) :
    (s.noteAddress uuid a).encryptedKey v = s.encryptedKey v := by
  unfold noteAddress
  cases hk : s.m_keys.find uuid with
  | none => rfl
  | some k =>
    dsimp only
    split
    · rw [encryptedKey_set]
      split
      case isTrue hv => rw [encryptedKey, hv, hk]; rfl
      case isFalse => rfl
    · rfl

theorem m_cached_noteAddress (s : SecretStore) (uuid : Uuid) (a : Address) :
    (s.noteAddress uuid a).m_cached = s.m_cached := by
  unfold noteAddress
  split
  · split <;> rfl
  · rfl

end SecretStore

/-- All but the keys of the store. -/
def KeyManager.storeless (m : KeyManager) : KeyManager := {m with m_store.m_keys := .empty}

/-- The same, but for the addresses that the store has noted. -/
structure Agree (m m' : KeyManager) : Prop where
  encryptedKey : ∀ uuid, m.m_store.encryptedKey uuid = m'.m_store.encryptedKey uuid
  storeless : m.storeless = m'.storeless

theorem Agree.refl (m : KeyManager) : Agree m m := ⟨fun _ => rfl, rfl⟩

section Agree
variable {α : Type}

/-- What does not look into the store. -/
theorem gets_storeless {f : KeyManager → α} (h : ∀ m, f m = f m.storeless) :
    Indifferent Agree (gets f : Calls α) := by
  apply Indifferent.gets
  intro m m' hm
  rw [h m, h m', hm.storeless]

theorem gets_encryptedKey (uuid : Uuid) : Indifferent Agree
    (gets fun m => (m.m_store.m_keys.find uuid).map EncryptedKey.encryptedKey : Calls _) :=
  .gets fun _ _ hm => hm.encryptedKey uuid

theorem modify_agree {f : KeyManager → KeyManager}
    (hkeys : ∀ m m', Agree m m' → ∀ uuid,
      (f m).m_store.encryptedKey uuid = (f m').m_store.encryptedKey uuid)
    (hrest : ∀ m, (f m).storeless = (f m.storeless).storeless) :
    Indifferent Agree (modify f : Calls Unit) := by
  apply Indifferent.modify
  intro m m' hm
  exact ⟨hkeys m m' hm, by rw [hrest m, hrest m', hm.storeless]⟩

/-- What does not touch the keys of the store. -/
theorem modify_storeless {f : KeyManager → KeyManager}
    (hrest : ∀ m, (f m).storeless = (f m.storeless).storeless)
    (hkeys : ∀ m, (f m).m_store.m_keys = m.m_store.m_keys) :
    Indifferent Agree (modify f : Calls Unit) := by
  apply modify_agree _ hrest
  intro m m' hm uuid
  have hs := hm.encryptedKey uuid
  unfold SecretStore.encryptedKey at hs ⊢
  rw [hkeys, hkeys, hs]

theorem modify_noteAddress (uuid : Uuid) (a : Address) : Indifferent Agree
    (modify fun m => {m with m_store := m.m_store.noteAddress uuid a} : Calls Unit) := by
  apply modify_agree
  · intro m m' hm v
    show (m.m_store.noteAddress uuid a).encryptedKey v = _
    rw [SecretStore.encryptedKey_noteAddress, hm.encryptedKey,
      ← SecretStore.encryptedKey_noteAddress _ uuid v a]
  · intro m
    show KeyManager.mk _ _ _ _ _ _ _ _ ⟨.empty, (m.m_store.noteAddress uuid a).m_cached⟩ _ =
      KeyManager.mk _ _ _ _ _ _ _ _ ⟨.empty, (m.storeless.m_store.noteAddress uuid a).m_cached⟩ _
    rw [SecretStore.m_cached_noteAddress, SecretStore.m_cached_noteAddress]
    rfl

end Agree

/-! ### Calls do not see what addresses the store has noted -/

namespace KeyPrimitives
variable (p : KeyPrimitives)

theorem indifferent_cachePassword (pass : Bytes) :
    Indifferent Agree (modify (p.cachePassword pass) : Calls Unit) :=
  modify_storeless (fun _ => rfl) fun _ => rfl

theorem indifferent_askPassword (passHash : PassHash) (pass : ℕ → Except Failure Bytes)
    (rounds i : ℕ) : Indifferent Agree (p.askPassword passHash pass rounds i) := by
  induction rounds generalizing i with
  | zero => exact .pure []
  | succ rounds ih =>
    refine (Indifferent.lift _).bind fun answer => ?_
    split
    · exact .pure []
    · refine (gets_storeless fun _ => rfl).bind fun hash => ?_
      split
      · exact (p.indifferent_cachePassword answer).bind fun _ => .pure answer
      · exact ih (i + 1)

theorem indifferent_getPassword (passHash : PassHash) (pass : ℕ → Except Failure Bytes) :
    Indifferent Agree (p.getPassword passHash pass) := by
  refine (gets_storeless fun _ => rfl).bind fun found => ?_
  cases found with
  | some password => exact .pure password
  | none => exact p.indifferent_askPassword passHash pass 10 0

theorem indifferent_getPasswordOf (uuid : Uuid) (pass : ℕ → Except Failure Bytes) :
    Indifferent Agree (p.getPasswordOf uuid pass) :=
  (gets_storeless fun _ => rfl).bind fun _ => p.indifferent_getPassword _ pass

theorem indifferent_defaultPassword : Indifferent Agree p.defaultPassword :=
  (gets_storeless fun _ => rfl).bind fun _ => p.indifferent_getPassword _ dontKnowThrow

theorem indifferent_write : Indifferent Agree p.write := by
  refine (gets_storeless fun _ => rfl).bind fun key => ?_
  split
  · exact .pure false
  · refine Indifferent.bind (modify_storeless ?_ ?_) fun _ =>
      p.indifferent_defaultPassword.bind fun password =>
        (p.indifferent_cachePassword password).bind fun _ => .pure true
    · exact fun _ => rfl
    · exact fun _ => rfl

theorem indifferent_storeSecret (uuid : Uuid) {pass : Calls Bytes}
    (hpass : Indifferent Agree pass) : Indifferent Agree (p.storeSecret uuid pass) := by
  refine (gets_storeless fun _ => rfl).bind fun cached => ?_
  cases cached with
  | some key => exact .pure key
  | none =>
    refine (gets_encryptedKey uuid).bind fun found => ?_
    cases found with
    | none => exact .pure []
    | some encrypted =>
      refine hpass.bind fun password => (Indifferent.lift _).bind fun key => ?_
      split
      · exact .pure key
      · refine Indifferent.bind (modify_storeless ?_ ?_) fun _ =>
          (modify_noteAddress uuid _).bind fun _ => .pure key
        · exact fun _ => rfl
        · exact fun _ => rfl

theorem indifferent_importSecret (r : Uuid) (s pass seed : Bytes) :
    Indifferent Agree (p.importSecret r s pass seed) := by
  refine (Indifferent.lift _).bind fun encrypted => modify_agree ?_ ?_
  · intro m m' hm v
    rw [SecretStore.encryptedKey_set, SecretStore.encryptedKey_set]
    exact if_congr Iff.rfl rfl (hm.encryptedKey v)
  · exact fun _ => rfl

theorem indifferent_storeRecode (uuid : Uuid) (newPass : Bytes) {pass : Calls Bytes}
    (hpass : Indifferent Agree pass) (seed : Bytes) :
    Indifferent Agree (p.storeRecode uuid newPass pass seed) := by
  refine (p.indifferent_storeSecret uuid hpass).bind fun s => ?_
  split
  · exact .pure false
  · refine Indifferent.bind (modify_storeless ?_ ?_) fun _ => (Indifferent.lift _).bind
      fun encrypted => Indifferent.bind (modify_agree ?_ ?_) fun _ => .pure true
    · exact fun _ => rfl
    · exact fun _ => rfl
    · intro m m' hm v
      rw [SecretStore.encryptedKey_set, SecretStore.encryptedKey_set]
      exact if_congr Iff.rfl rfl (hm.encryptedKey v)
    · exact fun _ => rfl

theorem indifferent_importKey (s : Secret) (accountName pass passwordHint : Bytes) (r : Uuid)
    (seed : Bytes) :
    Indifferent Agree (p.importKey s accountName pass passwordHint r seed) := by
  refine (gets_storeless fun _ => rfl).bind fun passHash =>
    (p.indifferent_cachePassword pass).bind fun _ =>
      Indifferent.bind (modify_storeless ?_ ?_) fun _ =>
        (p.indifferent_importSecret r s.1 pass seed).bind fun _ =>
          Indifferent.bind (modify_storeless ?_ ?_) fun _ =>
            p.indifferent_write.bind fun _ => .pure r
  all_goals exact fun _ => rfl

theorem indifferent_importExistingAs (uuid : Uuid) (accountName : Bytes) (address : Address)
    (passHash : PassHash) (passwordHint : Bytes) :
    Indifferent Agree (p.importExistingAs uuid accountName address passHash passwordHint) := by
  refine Indifferent.bind (modify_storeless ?_ ?_) fun _ =>
    Indifferent.bind (modify_storeless ?_ ?_) fun _ => p.indifferent_write.bind fun _ => .pure ()
  · intro m
    show (if m.m_passwordHint.contains passHash = true then m else _).storeless =
      (if m.m_passwordHint.contains passHash = true then m.storeless else _).storeless
    split <;> rfl
  · intro m
    split <;> rfl
  · exact fun _ => rfl
  · exact fun _ => rfl

theorem indifferent_importExisting (uuid : Uuid) (info pass passwordHint : Bytes) :
    Indifferent Agree (p.importExisting uuid info pass passwordHint) := by
  refine (p.indifferent_storeSecret uuid (.pure pass)).bind fun key => ?_
  split
  · exact .pure ()
  · refine (gets_storeless fun _ => rfl).bind fun passHash =>
      Indifferent.bind (modify_storeless ?_ ?_) fun _ =>
        p.indifferent_importExistingAs uuid info _ passHash passwordHint
    · intro m
      show (if m.m_cachedPasswords.contains passHash = true then m else _).storeless =
        (if m.m_cachedPasswords.contains passHash = true then m.storeless else _).storeless
      split <;> rfl
    · intro m
      split <;> rfl

theorem indifferent_recode (address : Address) (newPass hint : Bytes)
    (pass : ℕ → Except Failure Bytes) (seed : Bytes) :
    Indifferent Agree (p.recode address newPass hint pass seed) := by
  refine Indifferent.bind (modify_storeless ?_ ?_) fun _ =>
    (gets_storeless fun _ => rfl).bind fun u =>
      (p.indifferent_storeRecode u newPass (p.indifferent_getPasswordOf u pass) seed).bind
        fun recoded => ?_
  · intro m
    split <;> rfl
  · intro m
    split <;> rfl
  · cases recoded with
    | false => exact .pure false
    | true =>
      refine Indifferent.bind (modify_storeless ?_ ?_) fun _ =>
        p.indifferent_write.bind fun _ => .pure true
      · exact fun _ => rfl
      · exact fun _ => rfl

theorem indifferent_kill (a : Address) : Indifferent Agree (p.kill a) := by
  refine (gets_storeless fun _ => rfl).bind fun id =>
    Indifferent.bind (modify_agree ?_ ?_) fun _ => p.indifferent_write.bind fun _ => .pure ()
  · intro m m' hm v
    rw [SecretStore.encryptedKey_erase, SecretStore.encryptedKey_erase]
    exact if_congr Iff.rfl rfl (hm.encryptedKey v)
  · exact fun _ => rfl

theorem indifferent_perform (c : Call) : Indifferent Agree (p.perform c) := by
  cases c with
  | importKey s accountName pass passwordHint r seed =>
    exact (p.indifferent_importKey s accountName pass passwordHint r seed).bind fun _ => .pure ()
  | importDefault s accountName r seed =>
    exact p.indifferent_defaultPassword.bind fun pass =>
      (p.indifferent_importKey s accountName pass [] r seed).bind fun _ => .pure ()
  | importExisting uuid info pass passwordHint =>
    exact p.indifferent_importExisting uuid info pass passwordHint
  | importExistingAs uuid accountName address passHash passwordHint =>
    exact p.indifferent_importExistingAs uuid accountName address passHash passwordHint
  | recode address newPass hint pass seed =>
    exact (p.indifferent_recode address newPass hint pass seed).bind fun _ => .pure ()
  | kill a => exact p.indifferent_kill a
  | killKey id => exact (gets_storeless fun _ => rfl).bind fun a => p.indifferent_kill a

/-- From managers that agree, the same is written. -/
theorem written_performAll (calls : List Call) {m m' : KeyManager} (h : Agree m m') :
    (p.performAll calls m).written = (p.performAll calls m').written := by
  induction calls generalizing m m' with
  | nil =>
    show m.storeless.written = m'.storeless.written
    rw [h.storeless]
  | cons c calls ih => exact ih (p.indifferent_perform c m m' h).2

end KeyPrimitives

/-! ### What a failed load leaves -/

namespace KeyManager
variable {m : KeyManager}

theorem foldl_note (notes : List Note) (m : KeyManager) :
    notes.foldl note m = {m with
      m_addrLookup := m.m_addrLookup.assign (notes.filterMap Note.addrEntry),
      m_uuidLookup := m.m_uuidLookup.assign (notes.filterMap Note.uuidEntry),
      m_keyInfo := m.m_keyInfo.assign (notes.filterMap Note.infoEntry),
      m_passwordHint := m.m_passwordHint.assign (notes.filterMap Note.hintEntry),
      m_store := (notes.foldl note m).m_store} := by
  induction notes generalizing m with
  | nil => rfl
  | cons n notes ih =>
    rw [List.foldl_cons, ih]
    cases n <;> rfl

/-- The store notes an address where it has none. -/
theorem find_note (m : KeyManager) (n : Note) (u : Uuid) :
    (m.note n).m_store.m_keys.find u = m.m_store.m_keys.find u ∨
      ∃ k entry, m.m_store.m_keys.find u = some k ∧ k.address = 0 ∧
        n.infoEntry = some entry ∧
          (m.note n).m_store.m_keys.find u = some {k with address := entry.1} := by
  cases n with
  | lookup => exact .inl rfl
  | hint => exact .inl rfl
  | info addr info stored =>
    cases stored with
    | none => exact .inl rfl
    | some uuid =>
      show (m.m_store.noteAddress uuid addr).m_keys.find u = _ ∨ ∃ k entry, _ ∧ _ ∧ _ ∧
        (m.m_store.noteAddress uuid addr).m_keys.find u = _
      unfold SecretStore.noteAddress
      cases hk : m.m_store.m_keys.find uuid with
      | none => exact .inl rfl
      | some k =>
        dsimp only
        by_cases h0 : k.address = 0
        · rw [if_pos h0]
          dsimp only
          rw [InsertionMap.find_set]
          by_cases hu : u = uuid
          · rw [if_pos hu, hu]
            exact .inr ⟨k, (addr, info), hk, h0, rfl, rfl⟩
          · rw [if_neg hu]
            exact .inl rfl
        · rw [if_neg h0]
          exact .inl rfl

theorem find_foldl_note (notes : List Note) (m : KeyManager) (u : Uuid) :
    (notes.foldl note m).m_store.m_keys.find u = m.m_store.m_keys.find u ∨
      ∃ k, ∃ entry ∈ notes.filterMap Note.infoEntry, m.m_store.m_keys.find u = some k ∧
        k.address = 0 ∧
          (notes.foldl note m).m_store.m_keys.find u = some {k with address := entry.1} := by
  induction notes generalizing m with
  | nil => exact .inl rfl
  | cons n notes ih =>
    rw [List.foldl_cons]
    have hmem : ∀ entry ∈ notes.filterMap Note.infoEntry,
        entry ∈ (n :: notes).filterMap Note.infoEntry := fun entry he =>
      (List.sublist_cons_self n notes).filterMap Note.infoEntry |>.subset he
    rcases find_note m n u with hn | ⟨k, entry, hk, h0, he, hn⟩
    · rcases ih (m.note n) with hrest | ⟨k, entry, he, hk, h0, hrest⟩
      · exact .inl (hrest.trans hn)
      · exact .inr ⟨k, entry, hmem entry he, hn.symm.trans hk, h0, hrest⟩
    · have he' : entry ∈ (n :: notes).filterMap Note.infoEntry :=
        List.mem_filterMap.mpr ⟨n, List.mem_cons_self, he⟩
      rcases ih (m.note n) with hrest | ⟨k', entry', hmem', hk', h0', hrest⟩
      · exact .inr ⟨k, entry, he', hk, h0, hrest.trans hn⟩
      · -- the address noted first was zero as well
        cases hn.symm.trans hk'
        exact .inr ⟨k, entry', hmem entry' hmem', hk, h0, hrest⟩

theorem encryptedKey_foldl_note (notes : List Note) (m : KeyManager) (u : Uuid) :
    (notes.foldl note m).m_store.encryptedKey u = m.m_store.encryptedKey u := by
  unfold SecretStore.encryptedKey
  rcases find_foldl_note notes m u with h | ⟨k, entry, -, hk, -, h⟩
  · rw [h]
  · rw [h, hk]
    rfl

theorem m_cached_foldl_note (notes : List Note) (m : KeyManager) :
    (notes.foldl note m).m_store.m_cached = m.m_store.m_cached := by
  induction notes generalizing m with
  | nil => rfl
  | cons n notes ih =>
    rw [List.foldl_cons, ih]
    cases n with
    | lookup => rfl
    | hint => rfl
    | info addr info stored =>
      cases stored with
      | none => rfl
      | some uuid => exact SecretStore.m_cached_noteAddress _ _ _

theorem mem_accounts {a : Address} : a ∈ m.accounts ↔ a ≠ 0 ∧
    (m.m_keyInfo.contains a = true ∨ ∃ u k, m.m_store.m_keys.find u = some k ∧ k.address = a) := by
  unfold accounts
  rw [Finset.mem_erase, List.mem_toFinset, List.mem_append, m.m_keyInfo.mem_keys, List.mem_map]
  refine and_congr_right fun _ => or_congr Iff.rfl ⟨?_, ?_⟩
  · rintro ⟨u, hu, rfl⟩
    obtain ⟨k, hk⟩ := Option.isSome_iff_exists.mp ((m.m_store.m_keys.mem_keys u).mp hu)
    exact ⟨u, k, hk, by rw [hk]; rfl⟩
  · rintro ⟨u, k, hk, rfl⟩
    exact ⟨u, (m.m_store.m_keys.mem_keys u).mpr (by rw [hk]; rfl), by rw [hk]; rfl⟩

/-- Where the entries repeat what is there, the maps stay. -/
theorem Repeated.foldl_note {notes : List Note} (h : m.Repeated notes) :
    notes.foldl note m = {m with m_store := (notes.foldl note m).m_store} := by
  rw [KeyManager.foldl_note, InsertionMap.assign_eq_iff.mpr h.addrLookup,
    InsertionMap.assign_eq_iff.mpr h.uuidLookup, InsertionMap.assign_eq_iff.mpr h.keyInfo,
    InsertionMap.assign_eq_iff.mpr h.passwordHint]

theorem Repeated.accounts {notes : List Note} (h : m.Repeated notes) :
    (notes.foldl note m).accounts = m.accounts := by
  have hinfo : (notes.foldl note m).m_keyInfo = m.m_keyInfo := by
    rw [h.foldl_note]
  apply Finset.ext
  intro a
  rw [mem_accounts, mem_accounts, hinfo]
  refine and_congr_right fun ha => ⟨?_, ?_⟩
  · rintro (hc | ⟨u, k, hk, rfl⟩)
    · exact .inl hc
    · rcases find_foldl_note notes m u with hsame | ⟨k', entry, he, -, -, hnoted⟩
      · exact .inr ⟨u, k, hsame.symm.trans hk, rfl⟩
      · cases hnoted.symm.trans hk
        exact .inl (h.keyInfo.contains he)
  · rintro (hc | ⟨u, k, hk, rfl⟩)
    · exact .inl hc
    · rcases find_foldl_note notes m u with hsame | ⟨k', entry, -, hk', h0, -⟩
      · exact .inr ⟨u, k, hsame.trans hk, rfl⟩
      · cases hk.symm.trans hk'
        exact absurd h0 ha

end KeyManager

namespace KeyPrimitives
variable (p : KeyPrimitives)

theorem run_defaultPassword (m : KeyManager) : ∃ r, p.defaultPassword.run m = (r, m) := by
  cases hc : m.m_cachedPasswords.find m.m_master with
  | some password =>
    refine ⟨.ok password, ?_⟩
    show ((match m.m_cachedPasswords.find m.m_master with
      | some password => pure password
      | none => p.askPassword m.m_master dontKnowThrow 10 0 : Calls Bytes)).run m = _
    rw [hc]
    rfl
  | none =>
    refine ⟨.error .passwordUnknown, ?_⟩
    show ((match m.m_cachedPasswords.find m.m_master with
      | some password => pure password
      | none => p.askPassword m.m_master dontKnowThrow 10 0 : Calls Bytes)).run m = _
    rw [hc]
    rfl

/-- What `write` puts into the keys file: nothing without a key. -/
theorem written_write (m : KeyManager) : (p.write.run m).2.written =
    m.written ++ if m.m_keysFileKey = .zero 16 then []
      else [⟨m.m_keysFileKey, m.index.rlp.encode⟩] := by
  by_cases hkey : m.m_keysFileKey = .zero 16
  · have hrun : p.write.run m = (.ok false, m) := by
      show ((if m.m_keysFileKey = .zero 16 then pure false else _ : Calls Bool)).run m = _
      rw [if_pos hkey]
      rfl
    rw [hrun, if_pos hkey, List.append_nil]
  · let m' : KeyManager := {m with
      written := m.written ++ [⟨m.m_keysFileKey, m.index.rlp.encode⟩]}
    have hrun : p.write.run m = (do
        let password ← p.defaultPassword
        modify (p.cachePassword password)
        return true : Calls Bool).run m' := by
      show ((if m.m_keysFileKey = .zero 16 then pure false else _ : Calls Bool)).run m = _
      rw [if_neg hkey]
      rfl
    obtain ⟨r, hr⟩ := p.run_defaultPassword m'
    rw [hrun, run_bind, hr, if_neg hkey]
    cases r with
    | error e => rfl
    | ok password => rfl

/-- Killing a key says under which key the keys file is written. -/
theorem written_kill (a : Address) (m : KeyManager) : ∃ index,
    (p.performAll [.kill a] m).written =
      m.written ++ if m.m_keysFileKey = .zero 16 then [] else [⟨m.m_keysFileKey, index⟩] := by
  let m' : KeyManager := {m with
    m_uuidLookup := m.m_uuidLookup.erase (m.uuid a),
    m_addrLookup := m.m_addrLookup.erase a,
    m_keyInfo := m.m_keyInfo.erase a,
    m_store := ⟨m.m_store.m_keys.erase (m.uuid a), m.m_store.m_cached.erase (m.uuid a)⟩}
  refine ⟨m'.index.rlp.encode, ?_⟩
  have hrun : (p.kill a).run m = (do
      let _ ← p.write
      return () : Calls Unit).run m' := rfl
  have hwrite : ((do
      let _ ← p.write
      return () : Calls Unit).run m').2 = (p.write.run m').2 := by
    rw [run_bind]
    cases p.write.run m' with
    | mk r s =>
      cases r with
      | error e => rfl
      | ok b => rfl
  show ((p.kill a).run m).2.written = _
  rw [hrun, hwrite]
  exact p.written_write m'

/-- Where both write the same, the key in force is the same. -/
theorem key_eq_of_written {m m' : KeyManager} (hbefore : m'.written = m.written)
    (h : ∀ calls, (p.performAll calls m').written = (p.performAll calls m).written) :
    m'.m_keysFileKey = m.m_keysFileKey := by
  obtain ⟨index, hm⟩ := p.written_kill 0 m
  obtain ⟨index', hm'⟩ := p.written_kill 0 m'
  have heq := h [.kill 0]
  rw [hm, hm', hbefore] at heq
  have hlast := List.append_cancel_left heq
  by_cases hkey' : m'.m_keysFileKey = .zero 16
  · by_cases hkey : m.m_keysFileKey = .zero 16
    · rw [hkey', hkey]
    · rw [if_pos hkey', if_neg hkey] at hlast
      cases hlast
  · by_cases hkey : m.m_keysFileKey = .zero 16
    · rw [if_neg hkey', if_pos hkey] at hlast
      cases hlast
    · rw [if_neg hkey', if_neg hkey] at hlast
      exact congrArg Written.key (List.cons.inj hlast).1

variable {p} {m : KeyManager} {salt encKeys pass : Bytes}

theorem load_nil : p.load salt [] pass m = (false, m) := rfl

theorem load_throws (hne : encKeys ≠ []) {e : RLPException} {notes : List Note}
    (h : p.reading m salt encKeys pass = (.error e, notes)) :
    p.load salt encKeys pass m =
      (false, notes.foldl KeyManager.note {m with m_keysFileKey := p.pbkdf2 pass salt 16}) := by
  have hreading :
      p.reading {m with m_keysFileKey := p.pbkdf2 pass salt 16} salt encKeys pass = _ := h
  unfold load
  rw [if_neg hne]
  dsimp only
  rw [hreading]

theorem load_reads (hne : encKeys ≠ []) {password : Option Bytes} {notes : List Note}
    (h : p.reading m salt encKeys pass = (.ok password, notes)) :
    (p.load salt encKeys pass m).1 = true := by
  have hreading :
      p.reading {m with m_keysFileKey := p.pbkdf2 pass salt 16} salt encKeys pass = _ := h
  unfold load
  rw [if_neg hne]
  dsimp only
  rw [hreading]

/-- A load that fails on an unreadable index. -/
theorem loadSafe_throws (hne : encKeys ≠ []) {e : RLPException} {notes : List Note}
    (h : p.reading m salt encKeys pass = (.error e, notes)) :
    p.LoadSafe salt encKeys pass m ↔
      p.pbkdf2 pass salt 16 = m.m_keysFileKey ∧ m.Repeated notes := by
  have hload := load_throws hne h
  constructor
  · intro hsafe
    have hfalse : (p.load salt encKeys pass m).1 = false := by rw [hload]
    have hun := hsafe.untouched hfalse
    have hwritten := hsafe.written hfalse
    rw [hload, KeyManager.foldl_note] at hun hwritten
    have hkey := p.key_eq_of_written (by rfl) hwritten
    exact ⟨hkey, InsertionMap.assign_eq_iff.mp hun.addrLookup,
      InsertionMap.assign_eq_iff.mp hun.uuidLookup, InsertionMap.assign_eq_iff.mp hun.keyInfo,
      InsertionMap.assign_eq_iff.mp hun.passwordHint⟩
  · rintro ⟨hkey, hrep⟩
    have hsame : (p.load salt encKeys pass m).2 = notes.foldl KeyManager.note m := by
      rw [hload, hkey]
    have hmaps := hrep.foldl_note
    constructor
    · intro _
      rw [hsame]
      exact ⟨by rw [hmaps], by rw [hmaps], by rw [hmaps], by rw [hmaps], by rw [hmaps],
        hrep.accounts⟩
    · intro _ calls
      rw [hsame]
      apply p.written_performAll
      constructor
      · exact KeyManager.encryptedKey_foldl_note notes m
      · rw [hmaps]
        show KeyManager.mk _ _ _ _ _ _ _ _
          ⟨.empty, (notes.foldl KeyManager.note m).m_store.m_cached⟩ _ = _
        rw [KeyManager.m_cached_foldl_note]
        rfl
    · intro htrue
      rw [hload] at htrue
      cases htrue

end KeyPrimitives

/-! ### A wrong password -/

/-- The key is made of the length of the password, and so is the keystream. -/
def samplePrimitives : KeyPrimitives where
  toPrimitives := {Primitives.sample with aesCtr := fun key _ _ => key.headD 0}
  pbkdf2 password _ dkLen :=
    ⟨List.replicate dkLen (UInt8.ofNat password.length), List.length_replicate⟩
  toAddress _ := 1
  encrypt key _ _ := .ok key
  decrypt encrypted _ := .ok encrypted

/-- An index without keys. -/
def sampleIndex : Bytes := [0xc6, 0x01, 0xc0, 0xc0, 0x82, 0x61, 0x62]

/-- It is encrypted with a password of one byte. -/
def sampleFile : Bytes :=
  samplePrimitives.encryptAES128CTR (samplePrimitives.pbkdf2 [0x78] [] 16).1 (.zero 16) sampleIndex

example : (samplePrimitives.load [] sampleFile [0x78] {}).1 = true := by decide

end Aleth.Ethcore
