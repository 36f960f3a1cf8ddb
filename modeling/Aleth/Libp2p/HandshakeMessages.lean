import Aleth.Libp2p.RLPxHandshake

/-! The two messages of the handshake: what each side encrypts, and what the other takes from it.

A message of one kind is no message of the other: those of the old kind have a
size of their own, and with the others the size is authenticated. -/
namespace Aleth.Devcore

theorem crop_of_append {b x y z : Bytes} {begin count : ℕ} (hb : b = x ++ (y ++ z))
    (hx : x.length = begin) (hy : y.length = count) : crop b begin count = y := by
  rw [hb, crop, if_pos (by rw [List.length_append, List.length_append]; omega), ← hx, ← hy,
    List.drop_left, List.take_left]

theorem H256.ofBytes_bytes (h : H256) : H256.ofBytes h.bytes = h := by
  rw [H256.ofBytes, dif_pos h.size]

end Aleth.Devcore

namespace Aleth.P2p
open Devcore RLPView BytesConstRef

theorem NodeID.ofBytes_bytes (p : NodeID) : NodeID.ofBytes p.bytes = p := by
  rw [NodeID.ofBytes, dif_pos p.size]

namespace RLPXHandshake
variable {Secret Random : Type} {form : AuthForm}

/-- The size in front of a message; those of the old kind have none. -/
def AuthForm.sizePrefix (form : AuthForm) (plain : Bytes) : Bytes :=
  match form with
  | .legacy => []
  | .eip8 .. => toBigEndian 2 (plain.length + c_eciesOverhead)

theorem AuthForm.length_sizePrefix {v : ℕ} {extra : List RLP} {padding : Bytes} (plain : Bytes) :
    (AuthForm.sizePrefix (.eip8 v extra padding) plain).length = 2 := toBigEndian_length _ _

variable [Sha3] [Secp256k1 Secret] [Ecies Secret Random]

section Messages
variable {a b h : RLPXHandshake Secret Random}

variable (Secret) in
/-- A message on the wire. -/
def sealAs (form : AuthForm) (random : Random) (remote : NodeID) (plain : Bytes) : Bytes :=
  form.sizePrefix plain ++ encryptECIES Secret random remote (form.sizePrefix plain) plain

def authPlain (form : AuthForm) (a : RLPXHandshake Secret Random) : Bytes :=
  (a.writeAuthAs form).1.m_auth

def authCipher (form : AuthForm) (a : RLPXHandshake Secret Random) : Bytes :=
  sealAs Secret form a.random a.m_remote (a.authPlain form)

theorem writeAuthAs_eq (a : RLPXHandshake Secret Random) : a.writeAuthAs form =
    ({a with m_auth := a.authPlain form, m_authCipher := a.authCipher form},
      .write (a.authCipher form)) := by
  cases form <;> rfl

def ackItems (b : RLPXHandshake Secret Random) : List Bytes :=
  [appendData (Secp256k1.toPublic b.m_ecdheLocal).bytes, appendData b.m_nonce.bytes,
    numberItem c_rlpxVersion]

/-- The answer to a message of the form. -/
def ackPlain (form : AuthForm) (b : RLPXHandshake Secret Random) : Bytes :=
  match form with
  | .legacy => b.writeAck.1.m_ack
  | .eip8 .. => Devcore.appendList b.ackItems.flatten ++ List.replicate (b.rand % 100 + 100) 0

def ackCipher (form : AuthForm) (b : RLPXHandshake Secret Random) : Bytes :=
  sealAs Secret form b.random b.m_remote (b.ackPlain form)

theorem writeAck_eq (b : RLPXHandshake Secret Random) : b.writeAck =
    ({b with m_ack := b.ackPlain .legacy, m_ackCipher := b.ackCipher .legacy},
      .write (b.ackCipher .legacy)) := rfl

theorem length_public (p : NodeID) : (appendData p.bytes).length ≤ 64 + 9 := by
  have h := @RLP.encode_length_le (.data p.bytes) (by rw [RLP.body, p.size]; norm_num)
  rwa [RLP.body, p.size, RLP.encode] at h

theorem length_hash (x : H256) : (appendData x.bytes).length ≤ 32 + 9 := by
  have h := @RLP.encode_length_le (.data x.bytes) (by rw [RLP.body, x.size]; norm_num)
  rwa [RLP.body, x.size, RLP.encode] at h

theorem length_ackItems (b : RLPXHandshake Secret Random) : b.ackItems.flatten.length ≤ 115 := by
  have hp := length_public (Secp256k1.toPublic b.m_ecdheLocal)
  have hn := length_hash b.m_nonce
  rw [ackItems, List.flatten_cons, List.flatten_cons, List.flatten_cons, List.flatten_nil,
    List.length_append, List.length_append, List.append_nil]
  have hv : (numberItem c_rlpxVersion).length = 1 := rfl
  omega

theorem ackList_eq (b : RLPXHandshake Secret Random) :
    b.ackList = .ok (Devcore.appendList b.ackItems.flatten) := by
  have hw : List.Forall₂ RLPStream.Writes
      [RLPStream.append (Secp256k1.toPublic b.m_ecdheLocal).bytes false,
        RLPStream.append b.m_nonce.bytes false, RLPStream.appendUnsigned c_rlpxVersion]
      b.ackItems := by
    refine .cons (RLPStream.writes_append ?_) (.cons (RLPStream.writes_append ?_)
      (.cons (RLPStream.writes_appendInt ?_) .nil))
    · rw [NodeID.size]
      norm_num
    · rw [H256.size]
      norm_num
    · decide
  have hlen := b.length_ackItems
  have hcalls := RLPStream.calls_list hw (List.cons_ne_nil _ _) (by omega)
  unfold ackList
  rw [show (3 : ℕ) = List.length [RLPStream.append (Secp256k1.toPublic b.m_ecdheLocal).bytes false,
    RLPStream.append b.m_nonce.bytes false, RLPStream.appendUnsigned c_rlpxVersion] from rfl, hcalls]
  rfl

theorem writeAckEIP8_eq (b : RLPXHandshake Secret Random) (v : ℕ) (extra : List RLP)
    (padding : Bytes) : b.writeAckEIP8 =
      .ok ({b with
          m_ack := b.ackPlain (.eip8 v extra padding)
          m_ackCipher := b.ackCipher (.eip8 v extra padding)},
        .write (b.ackCipher (.eip8 v extra padding))) := by
  unfold writeAckEIP8
  rw [ackList_eq]
  rfl

/-! ### What is taken from them -/

/-- The version is a number of 64 bits, and the message has not less than the size of those of the
old kind, and not more than can be written in front of it. -/
def AuthForm.Fits (a : RLPXHandshake Secret Random) : AuthForm → Prop
  | .legacy => True
  | .eip8 version extra padding => version < 2 ^ 64 ∧
    c_authCipherSizeBytes ≤ (a.authPlain (.eip8 version extra padding)).length + 115 ∧
    (a.authPlain (.eip8 version extra padding)).length + c_eciesOverhead < 2 ^ 16

theorem legacyAuthValues_eq (a h : RLPXHandshake Secret Random) :
    h.legacyAuthValues (a.authPlain .legacy) =
      h.setAuthValues a.signature (Secp256k1.toPublic a.m_alias) a.m_nonce 4 := by
  have hsig : a.signature.length = 65 := (Secp256k1.sign _ _).2
  have hhash := (sha3 (Secp256k1.toPublic a.m_ecdheLocal).bytes).size
  have hpub := (Secp256k1.toPublic a.m_alias).size
  have hnonce := a.m_nonce.size
  have hplain : a.authPlain .legacy = a.signature ++
      ((sha3 (Secp256k1.toPublic a.m_ecdheLocal).bytes).bytes ++
        ((Secp256k1.toPublic a.m_alias).bytes ++ (a.m_nonce.bytes ++ [0]))) := by
    rw [← List.append_assoc, ← List.append_assoc, ← List.append_assoc]
    rfl
  have h0 : crop (a.authPlain .legacy) 0 65 = a.signature :=
    @crop_of_append _ [] _ _ _ _ hplain rfl hsig
  have h1 : crop (a.authPlain .legacy) 97 64 = (Secp256k1.toPublic a.m_alias).bytes := by
    refine crop_of_append (hplain.trans (List.append_assoc _ _ _).symm) ?_ hpub
    rw [List.length_append, hsig, hhash]
  have h2 : crop (a.authPlain .legacy) 161 32 = a.m_nonce.bytes := by
    have hfront : a.authPlain .legacy = (a.signature ++
        ((sha3 (Secp256k1.toPublic a.m_ecdheLocal).bytes).bytes ++
          (Secp256k1.toPublic a.m_alias).bytes)) ++ (a.m_nonce.bytes ++ [0]) := by
      rw [hplain, List.append_assoc, List.append_assoc]
    refine crop_of_append hfront ?_ hnonce
    rw [List.length_append, List.length_append, hsig, hhash, hpub]
  rw [legacyAuthValues, h0, h1, h2, signatureOf, if_pos hsig, H256.ofBytes_bytes,
    NodeID.ofBytes_bytes]

omit [Sha3] in
theorem legacyAckValues_eq (b h : RLPXHandshake Secret Random) :
    h.legacyAckValues (b.ackPlain .legacy) = {h with
      m_ecdheRemote := Secp256k1.toPublic b.m_ecdheLocal
      m_remoteNonce := b.m_nonce
      m_remoteVersion := c_rlpxVersion} := by
  have hpub := (Secp256k1.toPublic b.m_ecdheLocal).size
  have hnonce := b.m_nonce.size
  have hplain : b.ackPlain .legacy =
      (Secp256k1.toPublic b.m_ecdheLocal).bytes ++ (b.m_nonce.bytes ++ [0]) := by
    rw [← List.append_assoc]
    rfl
  have h0 : crop (b.ackPlain .legacy) 0 64 = (Secp256k1.toPublic b.m_ecdheLocal).bytes :=
    @crop_of_append _ [] _ _ _ _ hplain rfl hpub
  have h1 : crop (b.ackPlain .legacy) 64 32 = b.m_nonce.bytes :=
    crop_of_append hplain hpub hnonce
  have hpub0 : (Secp256k1.toPublic b.m_ecdheLocal).bytes ≠ [] := by
    intro h0
    rw [h0] at hpub
    cases hpub
  have hnonce0 : b.m_nonce.bytes ≠ [] := by
    intro h0
    rw [h0] at hnonce
    cases hnonce
  rw [legacyAckValues, h0, h1, if_neg hpub0, if_neg hnonce0, H256.ofBytes_bytes,
    NodeID.ofBytes_bytes]

/-- The items of a first message. -/
def authItems (a : RLPXHandshake Secret Random) (version : ℕ) (extra : List RLP) : List RLP :=
  [.data a.signature, .data (Secp256k1.toPublic a.m_alias).bytes, .data a.m_nonce.bytes,
    .data (toCompactBigEndian version)] ++ extra

section Items
variable {version : ℕ} {extra : List RLP} {padding : Bytes}

theorem authPlain_eip8 (a : RLPXHandshake Secret Random) :
    a.authPlain (.eip8 version extra padding) =
      Devcore.appendList (RLP.encodeItems (a.authItems version extra)) ++ padding := rfl

theorem begins_authItems (hfit : AuthForm.Fits a (.eip8 version extra padding)) :
    (RLP.encodeItems (a.authItems version extra)).length < 2 ^ 64 - 1 - 0x100 ∧
    Begins (RLP.encodeItems (a.authItems version extra))
      ((a.authItems version extra).map RLP.encode) [] := by
  have hlen : (RLP.encodeItems (a.authItems version extra)).length ≤
      (a.authPlain (.eip8 version extra padding)).length := by
    rw [authPlain_eip8, Devcore.appendList, List.length_append, List.length_append]
    omega
  have hsmall : (RLP.encodeItems (a.authItems version extra)).length < 2 ^ 64 - 1 - 0x100 := by
    have := hfit.2.2
    omega
  exact ⟨hsmall, .of_tiled (RLP.tiled_encodeItems _ hsmall)⟩

theorem eip8AuthValues_eq (hfit : AuthForm.Fits a (.eip8 version extra padding)) :
    h.eip8AuthValues (a.authPlain (.eip8 version extra padding)) =
      .ok (h.setAuthValues a.signature (Secp256k1.toPublic a.m_alias) a.m_nonce version) := by
  obtain ⟨hp, hb⟩ := begins_authItems hfit
  have hsig : a.signature.length = 65 := (Secp256k1.sign _ _).2
  have hpub := (Secp256k1.toPublic a.m_alias).size
  have h0 := @padded_toHash _ padding _ _ 0 hp hb 65 a.signature rfl hsig
    (by rw [hsig]; norm_num) Strict
  have h1 := @padded_toHash _ padding _ _ 1 hp hb 64 (Secp256k1.toPublic a.m_alias).bytes rfl hpub
    (by rw [hpub]; norm_num) Strict
  have h2 := @padded_toHash _ padding _ _ 2 hp hb 32 a.m_nonce.bytes rfl a.m_nonce.size
    (by rw [a.m_nonce.size]; norm_num) Strict
  have h3 := @padded_toInt _ padding _ _ 3 hp hb 8 version rfl
    (bytesRequired_le (hfit.1.trans_eq (by norm_num))) (by norm_num)
  unfold eip8AuthValues
  rw [authPlain_eip8, construct_padded hp, ok_bind, h0, ok_bind, h1, ok_bind, h2, ok_bind, h3,
    ok_bind, H256.ofBytes_bytes, NodeID.ofBytes_bytes]
  rfl

/-- A first message is no second one: the signature is too long for a key. -/
theorem eip8AckValues_auth (hfit : AuthForm.Fits a (.eip8 version extra padding)) :
    h.eip8AckValues (a.authPlain (.eip8 version extra padding)) = .error .badCast := by
  obtain ⟨hp, hb⟩ := begins_authItems hfit
  have hsig : a.signature.length = 65 := (Secp256k1.sign _ _).2
  have h0 := @padded_toHash_big _ padding _ _ 0 hp hb 64 a.signature rfl (by omega)
    (by rw [hsig]; norm_num)
  unfold eip8AckValues
  rw [authPlain_eip8, construct_padded hp, ok_bind, h0]
  rfl

theorem begins_ackItems (b : RLPXHandshake Secret Random) :
    b.ackItems.flatten.length < 2 ^ 64 - 1 - 0x100 ∧ Begins b.ackItems.flatten b.ackItems [] := by
  have hlen := b.length_ackItems
  have hb := @begins_appendData [(Secp256k1.toPublic b.m_ecdheLocal).bytes, b.m_nonce.bytes,
    toCompactBigEndian c_rlpxVersion] (fun s hs => ?_) []
  · rw [List.append_nil] at hb
    exact ⟨by omega, hb⟩
  · rcases List.mem_cons.mp hs with rfl | hs
    · rw [NodeID.size]
      norm_num
    · rcases List.mem_cons.mp hs with rfl | hs
      · rw [H256.size]
        norm_num
      · rw [List.mem_singleton.mp hs]
        decide

theorem eip8AckValues_eq (b h : RLPXHandshake Secret Random) :
    h.eip8AckValues (b.ackPlain (.eip8 version extra padding)) = .ok {h with
      m_ecdheRemote := Secp256k1.toPublic b.m_ecdheLocal
      m_remoteNonce := b.m_nonce
      m_remoteVersion := c_rlpxVersion} := by
  obtain ⟨hp, hb⟩ := b.begins_ackItems
  have hpub := (Secp256k1.toPublic b.m_ecdheLocal).size
  have h0 := @padded_toHash _ (List.replicate (b.rand % 100 + 100) 0) _ _ 0 hp hb 64
    (Secp256k1.toPublic b.m_ecdheLocal).bytes rfl hpub (by rw [hpub]; norm_num) Strict
  have h1 := @padded_toHash _ (List.replicate (b.rand % 100 + 100) 0) _ _ 1 hp hb 32
    b.m_nonce.bytes rfl b.m_nonce.size (by rw [b.m_nonce.size]; norm_num) Strict
  have h2 := @padded_toInt _ (List.replicate (b.rand % 100 + 100) 0) _ _ 2 hp hb 8
    c_rlpxVersion rfl (by decide) (by norm_num)
  unfold eip8AckValues
  rw [ackPlain, construct_padded hp, ok_bind, h0, ok_bind, h1, ok_bind, h2, ok_bind,
    H256.ofBytes_bytes, NodeID.ofBytes_bytes]
  rfl

/-- A second message is no first one: it has no fourth item. -/
theorem eip8AuthValues_ack (b h : RLPXHandshake Secret Random) :
    ∃ e, h.eip8AuthValues (b.ackPlain (.eip8 version extra padding)) = .error e := by
  obtain ⟨hp, hb⟩ := b.begins_ackItems
  obtain ⟨e, he⟩ := @padded_toInt_end _ (List.replicate (b.rand % 100 + 100) 0) _ 3 hp hb 8 le_rfl
  unfold eip8AuthValues
  rw [ackPlain, construct_padded hp, ok_bind, he]
  cases (item (padded b.ackItems.flatten (List.replicate (b.rand % 100 + 100) 0)) 0 >>=
    fun r => r.toHash 65 Strict) with
  | error e => exact ⟨e, rfl⟩
  | ok sig =>
    cases (item (padded b.ackItems.flatten (List.replicate (b.rand % 100 + 100) 0)) 1 >>=
      fun r => r.toHash 64 Strict) with
    | error e => exact ⟨e, rfl⟩
    | ok pubk =>
      cases (item (padded b.ackItems.flatten (List.replicate (b.rand % 100 + 100) 0)) 2 >>=
        fun r => r.toHash 32 Strict) with
      | error e => exact ⟨e, rfl⟩
      | ok nonce => exact ⟨e, rfl⟩

end Items

/-! ### Sizes -/

theorem appendList_ne_nil (p : Bytes) : Devcore.appendList p ≠ [] :=
  List.append_ne_nil_of_left_ne_nil
    (List.ne_nil_of_length_pos (RLP.header_length_pos _ _ _)) _

theorem authPlain_ne (a : RLPXHandshake Secret Random) : a.authPlain form ≠ [] := by
  cases form with
  | legacy => exact List.append_ne_nil_of_right_ne_nil _ (List.cons_ne_nil _ _)
  | eip8 v extra padding => exact List.append_ne_nil_of_left_ne_nil (appendList_ne_nil _) _

theorem ackPlain_ne (b : RLPXHandshake Secret Random) : b.ackPlain form ≠ [] := by
  cases form with
  | legacy => exact List.append_ne_nil_of_right_ne_nil _ (List.cons_ne_nil _ _)
  | eip8 v extra padding => exact List.append_ne_nil_of_left_ne_nil (appendList_ne_nil _) _

section Sizes
variable (hsize : ∀ (r : Random) (p : NodeID) (sharedMacData plain : Bytes), plain ≠ [] →
  (encryptECIES Secret r p sharedMacData plain).length = plain.length + c_eciesOverhead)
include hsize

omit [Sha3] [Secp256k1 Secret] in
theorem length_sealAs {plain : Bytes} (hne : plain ≠ []) (random : Random) (remote : NodeID) :
    (sealAs Secret form random remote plain).length =
      (form.sizePrefix plain).length + plain.length + c_eciesOverhead := by
  rw [sealAs, List.length_append, hsize _ _ _ _ hne, Nat.add_assoc]

theorem length_legacyAuth (a : RLPXHandshake Secret Random) (remote : NodeID) :
    (sealAs Secret .legacy a.random remote (a.authPlain .legacy)).length =
      c_authCipherSizeBytes := by
  have hplain : (a.authPlain .legacy).length = 194 := by
    show (a.signature ++ (sha3 _).bytes ++ (Secp256k1.toPublic a.m_alias).bytes ++
      a.m_nonce.bytes ++ [0]).length = 194
    rw [List.length_append, List.length_append, List.length_append, List.length_append,
      show a.signature.length = 65 from (Secp256k1.sign _ _).2, H256.size, NodeID.size, H256.size]
    rfl
  rw [length_sealAs hsize a.authPlain_ne, hplain]
  rfl

theorem length_auth {a : RLPXHandshake Secret Random} (hfit : form.Fits a) (remote : NodeID) :
    c_authCipherSizeBytes ≤ (sealAs Secret form a.random remote (a.authPlain form)).length := by
  cases form with
  | legacy => exact (length_legacyAuth hsize a remote).ge
  | eip8 v extra padding =>
    rw [length_sealAs hsize a.authPlain_ne, AuthForm.length_sizePrefix, c_eciesOverhead]
    have := hfit.2.1
    omega

theorem length_legacyAck (b : RLPXHandshake Secret Random) (remote : NodeID) :
    (sealAs Secret .legacy b.random remote (b.ackPlain .legacy)).length =
      c_ackCipherSizeBytes := by
  have hplain : (b.ackPlain .legacy).length = 97 := by
    show ((Secp256k1.toPublic b.m_ecdheLocal).bytes ++ b.m_nonce.bytes ++ [0]).length = 97
    rw [List.length_append, List.length_append, NodeID.size, H256.size]
    rfl
  rw [length_sealAs hsize b.ackPlain_ne, hplain]
  rfl

omit hsize in
theorem length_ackPlain (b : RLPXHandshake Secret Random) (v : ℕ) (extra : List RLP)
    (padding : Bytes) : 100 ≤ (b.ackPlain (.eip8 v extra padding)).length ∧
      (b.ackPlain (.eip8 v extra padding)).length < 1000 := by
  have hitems := b.length_ackItems
  have hheader : (header c_rlpListStart c_rlpListIndLenZero b.ackItems.flatten.length).length ≤
      9 := by
    have hbytes := bytesRequired_le (i := b.ackItems.flatten.length) (k := 8) (by omega)
    rw [header]
    split
    · exact Nat.le_of_ble_eq_true rfl
    · rw [List.length_cons, toCompactBigEndian_length]
      omega
  rw [ackPlain, Devcore.appendList, List.length_append, List.length_append, List.length_replicate]
  omega

theorem length_ack (b : RLPXHandshake Secret Random) (remote : NodeID) :
    c_ackCipherSizeBytes ≤ (sealAs Secret form b.random remote (b.ackPlain form)).length := by
  cases form with
  | legacy => exact (length_legacyAck hsize b remote).ge
  | eip8 v extra padding =>
    have hlen := b.length_ackPlain v extra padding
    rw [length_sealAs hsize b.ackPlain_ne, c_eciesOverhead, c_ackCipherSizeBytes]
    omega

end Sizes

end Messages

end RLPXHandshake
end Aleth.P2p
