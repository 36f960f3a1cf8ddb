import Aleth.Devcore.RlpLists
import Aleth.Libp2p.RLPXFrameCoder

/-! The handshake (`RLPXHandshake`), up to the keys of the session.

A handler runs when the operation on the socket that it was given to is
complete, and leaves the next operation. What the socket reports as an error,
the timer and `cancel` are not here, and the packet Hello is only a state.

The first message is tried as one of the old kind, which has a fixed size; if
that cannot be decrypted it is read again as one with its size in front
(EIP-8). -/
namespace Aleth.Devcore

/-- `h256(bytesConstRef)`: zero if the size is another. -/
def H256.ofBytes (b : Bytes) : H256 := if h : b.length = 32 then ⟨b, h⟩ else .zero

/-- The bytes of a reference after `cropped(begin, count)`. -/
def crop (b : Bytes) (begin count : ℕ) : Bytes :=
  if begin + count ≤ b.length then (b.drop begin).take count else []

end Aleth.Devcore

namespace Aleth.P2p
open Devcore RLPView BytesConstRef

def NodeID.zero : NodeID := ⟨List.replicate 64 0, List.length_replicate⟩

/-- `Public(bytesConstRef)`: zero if the size is another. -/
def NodeID.ofBytes (b : Bytes) : NodeID := if h : b.length = 64 then ⟨b, h⟩ else .zero

/-- `Signature(bytesConstRef)`. -/
def signatureOf (b : Bytes) : Bytes := if b.length = 65 then b else List.replicate 65 0

/-- Encryption to a key (`encryptECIES`), which draws on random numbers. -/
class Ecies (Secret Random : Type) where
  encryptECIES : Random → NodeID → (sharedMacData plain : Bytes) → Bytes
  decryptECIES : Secret → (sharedMacData cipher : Bytes) → Option Bytes

export Ecies (encryptECIES)

def c_rlpxVersion : ℕ := 4
def c_ackCipherSizeBytes : ℕ := 210
def c_authCipherSizeBytes : ℕ := 307
/-- Bytes that `encryptECIES` adds. -/
def c_eciesOverhead : ℕ := 113

namespace RLPXHandshake

inductive State where
  | Error
  | New
  | AckAuth
  | AckAuthEIP8
  | WriteHello
  | ReadHello
  | StartSession
deriving DecidableEq

inductive HandshakeFailureReason where
  | NoFailure
  | FrameDecryptionFailure
deriving DecidableEq

inductive HandshakeException where
  | RLP (e : RLPException)
  | ECDHEError
deriving DecidableEq

/-- What is called when a read is complete. -/
inductive Handler where
  | readAuth
  | readAuthEIP8
  | readAck
  | readAckEIP8
deriving DecidableEq

/-- The operation on the socket that a handler leaves. -/
inductive Operation where
  /-- `async_write`, which leads to `transition`. -/
  | write (data : Bytes)
  | read (count : ℕ) (handler : Handler)
  /-- The packet Hello is written. -/
  | writeHello
  /-- The header of the other side's packet Hello is read. -/
  | readHello
  /-- `error`. -/
  | close
deriving DecidableEq

/-- How the first message is written: as here, or as by others, with a version, further items and
padding. -/
inductive AuthForm where
  | legacy
  | eip8 (version : ℕ) (extra : List RLP) (padding : Bytes)

end RLPXHandshake

open RLPXHandshake

structure RLPXHandshake (Secret Random : Type) where
  m_nextState : State := .New
  /-- Of `m_host`. -/
  m_alias : Secret
  m_remote : NodeID
  m_originated : Bool
  m_auth : Bytes := []
  m_authCipher : Bytes := []
  m_ack : Bytes := []
  m_ackCipher : Bytes := []
  m_ecdheLocal : Secret
  m_nonce : H256
  m_ecdheRemote : NodeID := .zero
  m_remoteNonce : H256 := .zero
  m_remoteVersion : ℕ := 0
  m_io : Option RLPXFrameCoder := none
  m_failureReason : HandshakeFailureReason := .NoFailure
  /-- What `encryptECIES` draws. -/
  random : Random
  /-- What `rand` gives. -/
  rand : ℕ

namespace RLPXHandshake
variable {Secret Random : Type}

/-- The constructor; of incoming connections the remote is zero. -/
def construct (aliasSecret : Secret) (remote : NodeID) (ecdheLocal : Secret) (nonce : H256)
    (random : Random) (rand : ℕ) : RLPXHandshake Secret Random where
  m_alias := aliasSecret
  m_remote := remote
  m_originated := remote ≠ .zero
  m_ecdheLocal := ecdheLocal
  m_nonce := nonce
  random := random
  rand := rand

variable [Sha3] [Secp256k1 Secret] [Ecies Secret Random]

/-- The secret that `agree` gives, zero where it fails. -/
def staticShared (s : Secret) (p : NodeID) : H256 := (Secp256k1.agree s p).getD .zero

/-! ### Writing -/

/-- The signature that proves the ephemeral key. -/
def signature (h : RLPXHandshake Secret Random) : Bytes :=
  (Secp256k1.sign h.m_ecdheLocal ((staticShared h.m_alias h.m_remote).xor h.m_nonce)).1

def writeAuth (h : RLPXHandshake Secret Random) : RLPXHandshake Secret Random × Operation :=
  let m_auth := h.signature ++ (sha3 (Secp256k1.toPublic h.m_ecdheLocal).bytes).bytes ++
    (Secp256k1.toPublic h.m_alias).bytes ++ h.m_nonce.bytes ++ [0]
  let m_authCipher := encryptECIES Secret h.random h.m_remote [] m_auth
  ({h with m_auth := m_auth, m_authCipher := m_authCipher}, .write m_authCipher)

/-- A message with its size in front; the size is authenticated too. -/
def sealEIP8 (random : Random) (remote : NodeID) (plain : Bytes) : Bytes :=
  let sizePrefix := toBigEndian 2 (plain.length + c_eciesOverhead)
  sizePrefix ++ encryptECIES Secret random remote sizePrefix plain

/-- The first message as other implementations write it. -/
def writeAuthEIP8 (version : ℕ) (extra : List RLP) (padding : Bytes)
    (h : RLPXHandshake Secret Random) : RLPXHandshake Secret Random × Operation :=
  let items := [.data h.signature, .data (Secp256k1.toPublic h.m_alias).bytes,
    .data h.m_nonce.bytes, .data (toCompactBigEndian version)] ++ extra
  let m_auth := (RLP.list items).encode ++ padding
  let m_authCipher := @sealEIP8 Secret _ _ h.random h.m_remote m_auth
  ({h with m_auth := m_auth, m_authCipher := m_authCipher}, .write m_authCipher)

def writeAuthAs : AuthForm → RLPXHandshake Secret Random → RLPXHandshake Secret Random × Operation
  | .legacy => writeAuth
  | .eip8 version extra padding => writeAuthEIP8 version extra padding

def writeAck (h : RLPXHandshake Secret Random) : RLPXHandshake Secret Random × Operation :=
  let m_ack := (Secp256k1.toPublic h.m_ecdheLocal).bytes ++ h.m_nonce.bytes ++ [0]
  let m_ackCipher := encryptECIES Secret h.random h.m_remote [] m_ack
  ({h with m_ack := m_ack, m_ackCipher := m_ackCipher}, .write m_ackCipher)

/-- The list of the second message. -/
def ackList (h : RLPXHandshake Secret Random) : Except RLPException Bytes := do
  RLPStream.out (← RLPStream.appendList 3 .empty >>= RLPStream.calls
    [RLPStream.append (Secp256k1.toPublic h.m_ecdheLocal).bytes false,
      RLPStream.append h.m_nonce.bytes false, RLPStream.appendUnsigned c_rlpxVersion])

def writeAckEIP8 (h : RLPXHandshake Secret Random) :
    Except HandshakeException (RLPXHandshake Secret Random × Operation) := do
  let rlp ← h.ackList.mapError .RLP
  let padAmount := h.rand % 100 + 100
  let m_ack := rlp ++ List.replicate padAmount 0
  let m_ackCipher := @sealEIP8 Secret _ _ h.random h.m_remote m_ack
  return ({h with m_ack := m_ack, m_ackCipher := m_ackCipher}, .write m_ackCipher)

/-! ### Reading -/

def setAuthValues (sig : Bytes) (remotePubk : NodeID) (remoteNonce : H256) (remoteVersion : ℕ)
    (h : RLPXHandshake Secret Random) : RLPXHandshake Secret Random :=
  {h with
    m_remote := remotePubk
    m_remoteNonce := remoteNonce
    m_remoteVersion := remoteVersion
    m_ecdheRemote :=
      Secp256k1.recover Secret sig ((staticShared h.m_alias remotePubk).xor remoteNonce)}

def readAuth (h : RLPXHandshake Secret Random) : RLPXHandshake Secret Random × Operation :=
  (h, .read c_authCipherSizeBytes .readAuth)

/-- The bytes so far are kept, and those up to the size that they begin with are read. -/
def readAuthEIP8 (h : RLPXHandshake Secret Random) : RLPXHandshake Secret Random × Operation :=
  let size := fromBigEndian (h.m_authCipher.take 2)
  ({h with m_authCipher := h.m_authCipher.take (size + 2)},
    .read (size + 2 - c_authCipherSizeBytes) .readAuthEIP8)

def readAck (h : RLPXHandshake Secret Random) : RLPXHandshake Secret Random × Operation :=
  (h, .read c_ackCipherSizeBytes .readAck)

def readAckEIP8 (h : RLPXHandshake Secret Random) : RLPXHandshake Secret Random × Operation :=
  let size := fromBigEndian (h.m_ackCipher.take 2)
  ({h with m_ackCipher := h.m_ackCipher.take (size + 2)},
    .read (size + 2 - c_ackCipherSizeBytes) .readAckEIP8)

/-! ### Handlers -/

def transition (form : AuthForm) (h : RLPXHandshake Secret Random) :
    Except HandshakeException (RLPXHandshake Secret Random × Operation) :=
  match h.m_nextState with
  | .Error => .ok (h, .close)
  | .New =>
    let h := {h with m_nextState := .AckAuth}
    .ok (if h.m_originated then h.writeAuthAs form else h.readAuth)
  | .AckAuth =>
    let h := {h with m_nextState := .WriteHello}
    .ok (if h.m_originated then h.readAck else h.writeAck)
  | .AckAuthEIP8 =>
    let h := {h with m_nextState := .WriteHello}
    if h.m_originated then .ok h.readAck else h.writeAckEIP8
  | .WriteHello =>
    let h := {h with m_nextState := .ReadHello}
    match RLPXFrameCoder.setup h.m_originated h.m_ecdheRemote h.m_remoteNonce h.m_ecdheLocal
        h.m_nonce h.m_ackCipher h.m_authCipher with
    | none => .error .ECDHEError
    | some io => .ok ({h with m_io := io}, .writeHello)
  | .ReadHello => .ok ({h with m_nextState := .StartSession}, .readHello)
  | .StartSession => .ok (h, .close)

def failed (h : RLPXHandshake Secret Random) : RLPXHandshake Secret Random :=
  {h with m_nextState := .Error, m_failureReason := .FrameDecryptionFailure}

/-- The fields of a first message of the old kind. -/
def legacyAuthValues (plain : Bytes) (h : RLPXHandshake Secret Random) :
    RLPXHandshake Secret Random :=
  h.setAuthValues (signatureOf (crop plain 0 65)) (.ofBytes (crop plain 97 64))
    (.ofBytes (crop plain 161 32)) 4

/-- The fields of a first message with its size in front. -/
def eip8AuthValues (plain : Bytes) (h : RLPXHandshake Secret Random) :
    Except RLPException (RLPXHandshake Secret Random) := do
  let rlp ← RLPView.construct (ofBytes plain) {throwOnFail := true, failIfTooSmall := true}
  let sig ← item rlp 0 >>= fun r => r.toHash 65 Strict
  let pubk ← item rlp 1 >>= fun r => r.toHash 64 Strict
  let nonce ← item rlp 2 >>= fun r => r.toHash 32 Strict
  let version ← item rlp 3 >>= fun r => r.toIntOf 8 Strict
  return h.setAuthValues sig (.ofBytes pubk) (.ofBytes nonce) version

/-- The fields of a second message of the old kind. -/
def legacyAckValues (plain : Bytes) (h : RLPXHandshake Secret Random) :
    RLPXHandshake Secret Random :=
  -- a message that is too short leaves the values as they are
  let pubk := crop plain 0 64
  let nonce := crop plain 64 32
  {h with
    m_ecdheRemote := if pubk = [] then h.m_ecdheRemote else .ofBytes pubk
    m_remoteNonce := if nonce = [] then h.m_remoteNonce else .ofBytes nonce
    m_remoteVersion := c_rlpxVersion}

/-- The fields of a second message with its size in front. -/
def eip8AckValues (plain : Bytes) (h : RLPXHandshake Secret Random) :
    Except RLPException (RLPXHandshake Secret Random) := do
  let rlp ← RLPView.construct (ofBytes plain) {throwOnFail := true, failIfTooSmall := true}
  let pubk ← item rlp 0 >>= fun r => r.toHash 64 Strict
  let nonce ← item rlp 1 >>= fun r => r.toHash 32 Strict
  let version ← item rlp 2 >>= fun r => r.toIntOf 8 Strict
  return {h with
    m_ecdheRemote := .ofBytes pubk
    m_remoteNonce := .ofBytes nonce
    m_remoteVersion := version}

/-- The handler of a read that is complete. -/
def handle (form : AuthForm) (data : Bytes) (h : RLPXHandshake Secret Random) :
    Handler → Except HandshakeException (RLPXHandshake Secret Random × Operation)
  | .readAuth =>
    let h := {h with m_authCipher := data}
    match Ecies.decryptECIES Random h.m_alias [] h.m_authCipher with
    | some plain => transition form (legacyAuthValues plain {h with m_auth := plain})
    | none => .ok h.readAuthEIP8
  | .readAuthEIP8 =>
    let h := {h with m_authCipher := h.m_authCipher ++ data}
    match Ecies.decryptECIES Random h.m_alias (h.m_authCipher.take 2) (h.m_authCipher.drop 2) with
    | some plain => do
      let h ← (eip8AuthValues plain {h with m_auth := plain}).mapError .RLP
      transition form {h with m_nextState := .AckAuthEIP8}
    | none => transition form h.failed
  | .readAck =>
    let h := {h with m_ackCipher := data}
    match Ecies.decryptECIES Random h.m_alias [] h.m_ackCipher with
    | some plain => transition form (legacyAckValues plain {h with m_ack := plain})
    | none => .ok h.readAckEIP8
  | .readAckEIP8 =>
    let h := {h with m_ackCipher := h.m_ackCipher ++ data}
    match Ecies.decryptECIES Random h.m_alias (h.m_ackCipher.take 2) (h.m_ackCipher.drop 2) with
    | some plain => do
      let h ← (eip8AckValues plain {h with m_ack := plain}).mapError .RLP
      transition form h
    | none => transition form h.failed

end RLPXHandshake
end Aleth.P2p
