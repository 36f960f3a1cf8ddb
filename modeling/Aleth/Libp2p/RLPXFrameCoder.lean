import Aleth.Devcore.Sha3
import Aleth.Libp2p.Common

/-! The keys of a session (`RLPXFrameCoder::setup`).

Both sides derive them from the ephemeral keys, the nonces and the two messages
of the handshake. What the hashes for message authentication have been updated
with stands for their state. -/
namespace Aleth.Devcore

/-- `h256::operator^`. -/
def H256.xor (a b : H256) : H256 where
  bytes := List.zipWith (· ^^^ ·) a.bytes b.bytes
  size := by rw [List.length_zipWith, a.size, b.size, min_self]

theorem zipWith_xor_cancel {a b : Bytes} (h : a.length = b.length) :
    List.zipWith (· ^^^ ·) (List.zipWith (· ^^^ ·) a b) b = a := by
  induction a generalizing b with
  | nil => rfl
  | cons x a ih =>
    cases b with
    | nil => cases h
    | cons y b =>
      rw [List.zipWith_cons_cons, List.zipWith_cons_cons, ih (Nat.succ.inj h), UInt8.xor_assoc,
        UInt8.xor_self, UInt8.xor_zero]

theorem H256.xor_cancel (a b : H256) : (a.xor b).xor b = a :=
  H256.ext (zipWith_xor_cancel (a.size.trans b.size.symm))

end Aleth.Devcore

namespace Aleth.P2p
open Devcore

/-- Keys (`libdevcrypto/Common.h`): a secret shared by two of them, and signatures that tell the
key. -/
class Secp256k1 (Secret : Type) where
  toPublic : Secret → NodeID
  /-- `none` where `agree` fails. -/
  agree : Secret → NodeID → Option H256
  sign : Secret → H256 → {b : Bytes // b.length = 65}
  recover : Bytes → H256 → NodeID

structure RLPXFrameCoder where
  frameEncKey : H256
  frameDecKey : H256
  macEncKey : H256
  /-- What the hash has been updated with. -/
  egressMac : Bytes
  /-- What the hash has been updated with. -/
  ingressMac : Bytes
deriving DecidableEq

namespace RLPXFrameCoder
variable [Sha3] {Secret : Type} [Secp256k1 Secret]

/-- What `setup` makes of the shared secret of the ephemeral keys. -/
def derive (originated : Bool) (remoteNonce nonce : H256) (ackCipher authCipher : Bytes)
    (ephemeralShared : H256) : RLPXFrameCoder :=
  let leftNonce := if originated then remoteNonce else nonce
  let rightNonce := if originated then nonce else remoteNonce
  let nonces := sha3 (leftNonce.bytes ++ rightNonce.bytes)
  let sharedSecret := sha3 (ephemeralShared.bytes ++ nonces.bytes)
  let aesSecret := sha3 (ephemeralShared.bytes ++ sharedSecret.bytes)
  let macSecret := sha3 (ephemeralShared.bytes ++ aesSecret.bytes)
  let egressKey := macSecret.xor remoteNonce
  let egressCipher := if originated then authCipher else ackCipher
  -- the mac secret is recovered from the key that has just been used
  let ingressKey := (egressKey.xor remoteNonce).xor nonce
  let ingressCipher := if originated then ackCipher else authCipher
  { frameEncKey := aesSecret
    frameDecKey := aesSecret
    macEncKey := macSecret
    egressMac := egressKey.bytes ++ egressCipher
    ingressMac := ingressKey.bytes ++ ingressCipher }

/-- `none` stands for the exception `ECDHEError`. -/
def setup (originated : Bool) (remoteEphemeral : NodeID) (remoteNonce : H256) (ecdheLocal : Secret)
    (nonce : H256) (ackCipher authCipher : Bytes) : Option RLPXFrameCoder :=
  (Secp256k1.agree ecdheLocal remoteEphemeral).map
    (derive originated remoteNonce nonce ackCipher authCipher)

/-- What one side writes the other can read. -/
structure Matching (c d : RLPXFrameCoder) : Prop where
  frameEncKey : c.frameEncKey = d.frameDecKey
  frameDecKey : c.frameDecKey = d.frameEncKey
  macEncKey : c.macEncKey = d.macEncKey
  egressMac : c.egressMac = d.ingressMac
  ingressMac : c.ingressMac = d.egressMac

theorem derive_matching (n m : H256) (ack auth : Bytes) (z : H256) :
    Matching (derive true m n ack auth z) (derive false n m ack auth z) := by
  refine ⟨rfl, rfl, rfl, ?_, ?_⟩
  · simp only [derive, if_true, Bool.false_eq_true, if_false, H256.xor_cancel]
  · simp only [derive, if_true, Bool.false_eq_true, if_false, H256.xor_cancel]

end RLPXFrameCoder
end Aleth.P2p
