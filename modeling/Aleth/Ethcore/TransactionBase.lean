import Aleth.Ethcore.BlockHeader

/-! Transactions (`TransactionBase.cpp`).

The recovery bit of a signature and the chain id stand in one field, computed
with `int` in both directions. A transaction is read field by field; the
receiver may be any empty item. -/
namespace Aleth.Ethcore
open Devcore
open RLPView BytesConstRef RLPStream

/-- `int`, by its bits. -/
abbrev I32 := BitVec 32

/-- A signature; `r` and `s` are given by their numbers. -/
structure SignatureStruct where
  r : U256
  s : U256
  v : UInt8 := 0
deriving DecidableEq

/-- Recovering a public key from a signature (`dev::recover`), with zeros when there is none. -/
class Recover where
  recover : SignatureStruct → H256 → Bytes

export Recover (recover)

inductive TransactionType where
  | nullTransaction
  | contractCreation
  | messageCall
deriving DecidableEq

inductive CheckTransaction where
  | none
  | cheap
  | everything
deriving DecidableEq

structure TransactionBase where
  m_type : TransactionType := .nullTransaction
  m_nonce : U256 := 0
  m_value : U256 := 0
  m_receiveAddress : Address := 0
  m_gasPrice : U256 := 0
  m_gas : U256 := 0
  m_data : Bytes := []
  m_vrs : Option SignatureStruct := none
  m_chainId : I32 := -4
  /-- The memo of the hash with signature; zero when there is none. -/
  m_hashWith : H256 := H256.zero
  m_sender : Option Address := none
deriving DecidableEq

inductive TransactionException where
  | rlp (e : RLPException)
  | invalidTransactionFormat (comment : String)
  | invalidSignature
  | transactionIsUnsigned
  /-- "invalid transaction format", with the bytes. -/
  | noted (e : TransactionException) (data : Bytes)
deriving DecidableEq

/-- The bound of `r` and `s`: the order of the curve. -/
def s_max : ℕ := 0xfffffffffffffffffffffffffffffffebaaedce6af48a03bbfd25e8cd0364141

def SignatureStruct.isValid (sig : SignatureStruct) : Bool :=
  sig.v ≤ 1 && 0 < sig.r.toNat && 0 < sig.s.toNat && sig.r.toNat < s_max && sig.s.toNat < s_max

def isZeroSignature (r s : U256) : Bool := r = 0 && s = 0

/-- `toInt<int>`. -/
def toI32 (r : RLPView) : Except RLPException I32 := do
  return BitVec.ofNat 32 (← toIntOf 4 r Strict)

/-- A check that throws. -/
def require {ε : Type} (c : Bool) (e : ε) : Except ε Unit := if c then .ok () else .error e

namespace TransactionBase

/-! ### Writing -/

/-- The `<<` of the six fields. -/
def fieldCalls (t : TransactionBase) : List (RLPStream → Except RLPException RLPStream) :=
  [appendInt t.m_nonce.toNat, appendInt t.m_gasPrice.toNat, appendInt t.m_gas.toNat,
    append (if t.m_type = .messageCall then addressBytes t.m_receiveAddress else []) false,
    appendInt t.m_value.toNat, append t.m_data false]

/-- What stands in front of `r` and `s`. -/
def vField (m_chainId : I32) (sig : SignatureStruct) : I32 :=
  if isZeroSignature sig.r sig.s then m_chainId
  else
    let vOffset := m_chainId * 2 + 35
    BitVec.ofNat 32 sig.v.toNat + vOffset

def signatureCalls (m_chainId : I32) (sig : SignatureStruct) :
    List (RLPStream → Except RLPException RLPStream) :=
  [appendUnsigned (vField m_chainId sig).toNat, appendInt sig.r.toNat, appendInt sig.s.toNat]

def eip155Calls (m_chainId : I32) : List (RLPStream → Except RLPException RLPStream) :=
  [appendUnsigned m_chainId.toNat, appendUnsigned 0, appendUnsigned 0]

/-- `calls`, with what they throw. -/
def write (fs : List (RLPStream → Except RLPException RLPStream)) (s : RLPStream) :
    Except TransactionException RLPStream := (calls fs s).mapError .rlp

def streamRLP (t : TransactionBase) (sig forEip155hash : Bool) (s : RLPStream) :
    Except TransactionException RLPStream :=
  if t.m_type = .nullTransaction then .ok s
  else do
    let s ← (RLPStream.appendList ((if sig || forEip155hash then 3 else 0) + 6) s).mapError .rlp
    let s ← write t.fieldCalls s
    if sig then
      t.m_vrs.elim (.error .transactionIsUnsigned) fun vrs => write (signatureCalls t.m_chainId vrs) s
    else if forEip155hash then write (eip155Calls t.m_chainId) s
    else return s

/-- The bytes that `streamRLP` gives. -/
def encoded (t : TransactionBase) (sig forEip155hash : Bool) : Except TransactionException Bytes := do
  (out (← t.streamRLP sig forEip155hash RLPStream.empty)).mapError .rlp

def rlp (t : TransactionBase) (sig : Bool) : Except TransactionException Bytes := t.encoded sig false

section Hashing
variable [Sha3]

/-- `sha3`, with the transaction that remembers it. -/
def sha3 (t : TransactionBase) (sig : Bool) :
    Except TransactionException (H256 × TransactionBase) := do
  if sig ∧ t.m_hashWith ≠ H256.zero then return (t.m_hashWith, t)
  else
    let ret := Sha3.sha3 (← t.encoded sig (0 < t.m_chainId.toInt && !sig))
    return (ret, if sig then {t with m_hashWith := ret} else t)

def hasZeroSignature (t : TransactionBase) : Bool :=
  t.m_vrs.any fun vrs => isZeroSignature vrs.r vrs.s

def MaxAddress : Address := BitVec.allOnes 160

variable [Recover]

/-- `sender`, with the transaction that remembers it. -/
def sender (t : TransactionBase) : Except TransactionException (Address × TransactionBase) :=
  t.m_sender.elim
    (if t.hasZeroSignature then .ok (MaxAddress, {t with m_sender := some MaxAddress})
    else do
      let vrs ← t.m_vrs.elim (.error .transactionIsUnsigned) .ok
      let p := recover vrs (← t.sha3 false).1
      require (p.any (· ≠ 0)) .invalidSignature
      let m_sender := asAddress (Sha3.sha3 p).toU256
      return (m_sender, {t with m_sender := some m_sender}))
    fun a => .ok (a, t)

/-! ### Reading -/

def readChainId (v : I32) : Except TransactionException I32 :=
  if 36 < v.toInt then .ok ((v - 35).sdiv 2)
  else if v = 27 ∨ v = 28 then .ok (-4)
  else .error .invalidSignature

/-- What remains of the field without the chain id is the recovery bit. -/
def signatureOf (v : I32) (r s : U256) (m_chainId : I32) : SignatureStruct :=
  ⟨r, s, UInt8.ofNat (v - (m_chainId * 2 + 35)).toNat⟩

/-- The chain id and the signature that the last three fields stand for. -/
def readSignature (v : I32) (r s : U256) (checkSig : CheckTransaction) :
    Except TransactionException (I32 × SignatureStruct) :=
  if isZeroSignature r s then .ok (v, ⟨r, s, 0⟩)
  else do
    let m_chainId ← readChainId v
    require (checkSig = .none || (signatureOf v r s m_chainId).isValid) .invalidSignature
    return (m_chainId, signatureOf v r s m_chainId)

/-- The sender is found at once if everything is checked. -/
def withSender (checkSig : CheckTransaction) (t : TransactionBase) :
    Except TransactionException TransactionBase :=
  if checkSig = .everything then t.sender.map Prod.snd else .ok t

/-- `rlp[i]`, converted. -/
def field {α : Type} (rlp : RLPView) (i : ℕ) (convert : RLPView → Except RLPException α) :
    Except TransactionException α := (item rlp i >>= convert).mapError .rlp

/-- The receiver: none if the item is empty. -/
def toReceiver (r : RLPView) : Except RLPException (Option Address) :=
  if isEmpty r.content then .ok none else some <$> toAddress r

/-- The `try` block of the constructor. -/
def parse (rlp : RLPView) (checkSig : CheckTransaction) :
    Except TransactionException TransactionBase := do
  require (isList rlp.content) (.invalidTransactionFormat "transaction RLP must be a list")
  let m_nonce ← field rlp 0 toU256
  let m_gasPrice ← field rlp 1 toU256
  let m_gas ← field rlp 2 toU256
  let receiver ← field rlp 3 toReceiver
  let m_value ← field rlp 4 toU256
  let data ← field rlp 5 .ok
  require (isData data.content)
    (.invalidTransactionFormat "transaction data RLP must be an array")
  let m_data ← (data.toBytes LaissezFaire).mapError .rlp
  let v ← field rlp 6 toI32
  let r ← field rlp 7 toU256
  let s ← field rlp 8 toU256
  let signature ← readSignature v r s checkSig
  let t : TransactionBase := {
    m_type := if receiver.isNone then .contractCreation else .messageCall
    m_nonce, m_gasPrice, m_gas, m_value, m_data
    m_receiveAddress := receiver.getD 0
    m_chainId := signature.1
    m_vrs := some signature.2}
  let t ← t.withSender checkSig
  let count ← (itemCount rlp.enough rlp).mapError .rlp
  require (count ≤ 9) (.invalidTransactionFormat "too many fields in the transaction RLP")
  return t

/-- The constructor from bytes. -/
def construct (b : Bytes) (checkSig : CheckTransaction) :
    Except TransactionException TransactionBase := do
  let rlp ← (RLPView.construct (ofBytes b) VeryStrict).mapError .rlp
  (parse rlp checkSig).mapError fun e => .noted e rlp.content

end Hashing
end TransactionBase
end Aleth.Ethcore
