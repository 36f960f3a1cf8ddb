import Aleth.Libp2p.HandshakeMessages
import Mathlib.Logic.Relation

/-! Two sides of a handshake over a connection.

Bytes arrive in pieces of any size, and the sides take turns in any order. What
is on the way may also be changed (`Link.Tampered`). Wherever a side stands, what
it has read and written is known (`Initiating`, `Responding`); if nothing is
changed, neither side gives up and one of them can go on until both write Hello
(`handshake_agrees`). -/
namespace Aleth.P2p
open Devcore RLPView BytesConstRef RLPXHandshake

/-! ### One side -/

inductive Status where
  /-- A write is complete, or the handshake is started. -/
  | ready
  | reading (count : ℕ) (handler : Handler) (got : Bytes)
  | hello
  | closed
  | thrown (e : HandshakeException)

structure Side (Secret Random : Type) where
  handshake : RLPXHandshake Secret Random
  status : Status := .ready
  /-- Everything that was read. -/
  consumed : Bytes := []
  /-- What is written from Hello on. -/
  hello : Bytes

namespace Side
variable {Secret Random : Type} (s : Side Secret Random)

/-- The operation is begun; also the bytes that are written. -/
def perform : RLPXHandshake Secret Random × Operation → Side Secret Random × Bytes
  | (h, .write data) => ({s with handshake := h, status := .ready}, data)
  | (h, .read count handler) => ({s with handshake := h, status := .reading count handler []}, [])
  | (h, .writeHello) => ({s with handshake := h, status := .hello}, s.hello)
  | (h, .readHello) => ({s with handshake := h, status := .hello}, [])
  | (h, .close) => ({s with handshake := h, status := .closed}, [])

def outcome : Except HandshakeException (RLPXHandshake Secret Random × Operation) →
    Side Secret Random × Bytes
  | .ok x => s.perform x
  | .error e => ({s with status := .thrown e}, [])

variable [Sha3] [Secp256k1 Secret] [Ecies Secret Random]

/-- The handler of an operation that is complete. -/
def resume (form : AuthForm) : Option (Side Secret Random × Bytes) :=
  match s.status with
  | .ready => some (s.outcome (transition form s.handshake))
  | .reading count handler got =>
    if got.length = count then some (s.outcome (s.handshake.handle form got handler)) else none
  | _ => none

/-- Some of the bytes that are waited for arrive. -/
inductive Receives : Side Secret Random → Bytes → Side Secret Random → Prop
  | read {s : Side Secret Random} {count : ℕ} {handler : Handler} {got x : Bytes}
    (status : s.status = .reading count handler got) (ne : x ≠ [])
    (le : got.length + x.length ≤ count) :
    Receives s x
      {s with status := .reading count handler (got ++ x), consumed := s.consumed ++ x}

end Side

/-! ### Two sides -/

structure Link (Secret Random : Type) where
  initiator : Side Secret Random
  responder : Side Secret Random
  toResponder : Bytes := []
  toInitiator : Bytes := []

namespace Link
variable {Secret Random : Type} [Sha3] [Secp256k1 Secret] [Ecies Secret Random]

inductive Step (form : AuthForm) : Link Secret Random → Link Secret Random → Prop
  | resumeInitiator {l : Link Secret Random} {s : Side Secret Random} {out : Bytes}
    (h : l.initiator.resume form = some (s, out)) :
    Step form l {l with initiator := s, toResponder := l.toResponder ++ out}
  | resumeResponder {l : Link Secret Random} {s : Side Secret Random} {out : Bytes}
    (h : l.responder.resume form = some (s, out)) :
    Step form l {l with responder := s, toInitiator := l.toInitiator ++ out}
  | receiveInitiator {l : Link Secret Random} {s : Side Secret Random} {x y : Bytes}
    (hx : l.toInitiator = x ++ y) (h : l.initiator.Receives x s) :
    Step form l {l with initiator := s, toInitiator := y}
  | receiveResponder {l : Link Secret Random} {s : Side Secret Random} {x y : Bytes}
    (hx : l.toResponder = x ++ y) (h : l.responder.Receives x s) :
    Step form l {l with responder := s, toResponder := y}

/-- A step, or what is on the way is changed. -/
inductive Tampered (form : AuthForm) : Link Secret Random → Link Secret Random → Prop
  | step {l l' : Link Secret Random} (h : Step form l l') : Tampered form l l'
  | tamper (l : Link Secret Random) (toResponder toInitiator : Bytes) :
    Tampered form l {l with toResponder := toResponder, toInitiator := toInitiator}

end Link

/-! ### What is assumed -/

section Assumptions
variable {Secret Random : Type} [Sha3] [Secp256k1 Secret] [Ecies Secret Random]

variable (Secret) in
/-- The encryption of a plain text to a key. -/
structure Sealed (form : AuthForm) (random : Random) (remote : NodeID) (text : Bytes) (key : NodeID)
    (sharedMacData cipher plain : Bytes) : Prop where
  key : key = remote
  sharedMacData : sharedMacData = form.sizePrefix text
  cipher : cipher = encryptECIES Secret random remote (form.sizePrefix text) text
  plain : plain = text

/-- The two hosts' keys are good ones; two keys agree on a secret, a signature tells its key, and
what can be decrypted is what was encrypted to the key with the same data. -/
structure Ideal (form : AuthForm) (a b : RLPXHandshake Secret Random) : Prop where
  ne_zero : Secp256k1.toPublic b.m_alias ≠ .zero
  agree : ∀ s t : Secret, ∃ z, Secp256k1.agree s (Secp256k1.toPublic t) = some z ∧
    Secp256k1.agree t (Secp256k1.toPublic s) = some z
  recover : ∀ (s : Secret) (h : H256),
    Secp256k1.recover Secret (Secp256k1.sign s h).1 h = Secp256k1.toPublic s
  size : ∀ (r : Random) (p : NodeID) (sharedMacData plain : Bytes), plain ≠ [] →
    (encryptECIES Secret r p sharedMacData plain).length = plain.length + c_eciesOverhead
  decrypt : ∀ s, s = a.m_alias ∨ s = b.m_alias → ∀ sharedMacData cipher plain,
    Ecies.decryptECIES Random s sharedMacData cipher = some plain ↔
      Sealed Secret form a.random (Secp256k1.toPublic b.m_alias) (a.authPlain form)
        (Secp256k1.toPublic s) sharedMacData cipher plain ∨
      Sealed Secret form b.random (Secp256k1.toPublic a.m_alias) (b.ackPlain form)
        (Secp256k1.toPublic s) sharedMacData cipher plain

/-- A handshake that is begun, and one that is waited for. -/
structure Facing (a b : RLPXHandshake Secret Random) : Prop where
  new : a.m_nextState = .New
  originated : a.m_originated = true
  remote : a.m_remote = Secp256k1.toPublic b.m_alias
  new' : b.m_nextState = .New
  originated' : b.m_originated = false

/-! ### Trying to decrypt -/

section Ideal
variable {form : AuthForm} {a b : RLPXHandshake Secret Random}

/-- The answer goes to the key of the first message. -/
def answer (form : AuthForm) (a b : RLPXHandshake Secret Random) : Bytes :=
  sealAs Secret form b.random (Secp256k1.toPublic a.m_alias) (b.ackPlain form)

theorem Sealed.cat {random : Random} {remote key : NodeID} {text mac cipher plain : Bytes}
    (h : Sealed Secret form random remote text key mac cipher plain) :
    mac ++ cipher = sealAs Secret form random remote text := by
  rw [h.sharedMacData, h.cipher]
  rfl

/-- A size of two bytes. -/
theorem fromBigEndian_size {n : ℕ} (h : n < 2 ^ 16) (tail : Bytes) :
    fromBigEndian ((toBigEndian 2 n ++ tail).take 2) = n := by
  rw [List.take_left' (toBigEndian_length 2 n), fromBigEndian_toBigEndian]
  exact Nat.mod_eq_of_lt (h.trans_eq (by norm_num))

/-- What is read after a first try is the whole message, if it is decrypted. -/
theorem append_eq_of_message {first got message : Bytes} {n : ℕ} (hfirst : first.length = n)
    (hgot : got.length = fromBigEndian (first.take 2) + 2 - n)
    (hmessage : first.take (fromBigEndian (first.take 2) + 2) ++ got = message)
    (hlen : n ≤ message.length) : first ++ got = message := by
  have htake : first.take (fromBigEndian (first.take 2) + 2) = first := by
    refine List.take_of_length_le ?_
    by_contra hlt
    have hnil : got.length = 0 := by omega
    rw [← hmessage, List.length_append, hnil, List.length_take] at hlen
    omega
  rwa [htake] at hmessage

theorem sealAs_take {v : ℕ} {extra : List RLP} {padding plain : Bytes} (random : Random)
    (remote : NodeID) :
    (sealAs Secret (.eip8 v extra padding) random remote plain).take 2 =
      AuthForm.sizePrefix (.eip8 v extra padding) plain ∧
    (sealAs Secret (.eip8 v extra padding) random remote plain).drop 2 =
      encryptECIES Secret random remote (AuthForm.sizePrefix (.eip8 v extra padding) plain)
        plain :=
  ⟨List.take_left' (AuthForm.length_sizePrefix plain), List.drop_left' (AuthForm.length_sizePrefix plain)⟩

section Encrypted
variable (hi : Ideal form a b)
include hi

/-- A message begins with its size. -/
theorem size_sealAs {v : ℕ} {extra : List RLP} {padding plain : Bytes} (random : Random)
    (remote : NodeID) (hne : plain ≠ []) (hlt : plain.length + c_eciesOverhead < 2 ^ 16) :
    fromBigEndian ((sealAs Secret (.eip8 v extra padding) random remote plain).take 2) + 2 =
      (sealAs Secret (.eip8 v extra padding) random remote plain).length := by
  rw [length_sealAs hi.size hne, AuthForm.length_sizePrefix, sealAs, AuthForm.sizePrefix,
    fromBigEndian_size hlt]
  omega

theorem decrypt_legacy {s : Secret} (hs : s = a.m_alias ∨ s = b.m_alias) {cipher plain : Bytes}
    (h : Ecies.decryptECIES Random s [] cipher = some plain) :
    form = .legacy ∧ (cipher = sealAs Secret form a.random (Secp256k1.toPublic b.m_alias)
        (a.authPlain form) ∧ plain = a.authPlain form ∨
      cipher = answer form a b ∧ plain = b.ackPlain form) := by
  have hform : ∀ text, [] = form.sizePrefix text → form = .legacy := by
    intro text htext
    cases form with
    | legacy => rfl
    | eip8 v extra padding =>
      have hlen := @AuthForm.length_sizePrefix v extra padding text
      rw [← htext] at hlen
      cases hlen
  rcases (hi.decrypt s hs [] cipher plain).mp h with h | h
  · exact ⟨hform _ h.sharedMacData, .inl ⟨h.cat, h.plain⟩⟩
  · exact ⟨hform _ h.sharedMacData, .inr ⟨h.cat, h.plain⟩⟩

theorem decrypt_eip8 {s : Secret} (hs : s = a.m_alias ∨ s = b.m_alias)
    {mac cipher plain : Bytes} (hmac : mac.length = 2)
    (h : Ecies.decryptECIES Random s mac cipher = some plain) :
    form ≠ .legacy ∧ (mac ++ cipher = sealAs Secret form a.random (Secp256k1.toPublic b.m_alias)
        (a.authPlain form) ∧ plain = a.authPlain form ∨
      mac ++ cipher = answer form a b ∧ plain = b.ackPlain form) := by
  have hform : ∀ text, mac = form.sizePrefix text → form ≠ .legacy := by
    rintro text htext rfl
    rw [htext] at hmac
    cases hmac
  rcases (hi.decrypt s hs mac cipher plain).mp h with h | h
  · exact ⟨hform _ h.sharedMacData, .inl ⟨h.cat, h.plain⟩⟩
  · exact ⟨hform _ h.sharedMacData, .inr ⟨h.cat, h.plain⟩⟩

theorem decrypt_auth : Ecies.decryptECIES Random b.m_alias (form.sizePrefix (a.authPlain form))
    (encryptECIES Secret a.random (Secp256k1.toPublic b.m_alias)
      (form.sizePrefix (a.authPlain form)) (a.authPlain form)) = some (a.authPlain form) :=
  (hi.decrypt _ (.inr rfl) _ _ _).mpr (.inl ⟨rfl, rfl, rfl, rfl⟩)

theorem decrypt_answer : Ecies.decryptECIES Random a.m_alias (form.sizePrefix (b.ackPlain form))
    (encryptECIES Secret b.random (Secp256k1.toPublic a.m_alias)
      (form.sizePrefix (b.ackPlain form)) (b.ackPlain form)) = some (b.ackPlain form) :=
  (hi.decrypt _ (.inl rfl) _ _ _).mpr (.inr ⟨rfl, rfl, rfl, rfl⟩)

end Encrypted
/-! ### Where a side stands -/

/-- What was read does not begin, as far as it goes, with the message. -/
def Strays (message consumed : Bytes) : Prop := ∀ rest, ¬consumed <+: message ++ rest

/-- What is read by its size is the message, if it begins with the message. -/
theorem whole_of_prefix {message first got rest : Bytes} {n : ℕ} (hfirst : first.length = n)
    (h2 : 2 ≤ n) (hn : n ≤ message.length)
    (hsize : fromBigEndian (message.take 2) + 2 = message.length)
    (hgot : got.length = fromBigEndian (first.take 2) + 2 - n)
    (h : first ++ got <+: message ++ rest) :
    first.take (fromBigEndian (first.take 2) + 2) ++ got = message := by
  have hle : first <+: message :=
    List.prefix_of_prefix_length_le ((List.prefix_append first got).trans h)
      (List.prefix_append message rest) (by omega)
  have htwo : first.take 2 = message.take 2 := by
    rw [List.prefix_iff_eq_take.mp hle, List.take_take]
    congr 1
    omega
  rw [htwo] at hgot ⊢
  rw [List.take_of_length_le (by omega)]
  refine List.IsPrefix.eq_of_length (List.prefix_of_prefix_length_le h
    (List.prefix_append message rest) ?_) ?_
  · rw [List.length_append]
    omega
  · rw [List.length_append]
    omega

/-- A side that writes Hello knows the other's key, nonce and ephemeral key, and has made the keys
of the session of these and the messages. -/
structure Knows (originated : Bool) (own other : RLPXHandshake Secret Random)
    (auth ack : Bytes) (s : Side Secret Random) : Prop where
  status : s.status = .hello
  remote : s.handshake.m_remote = Secp256k1.toPublic other.m_alias
  remoteNonce : s.handshake.m_remoteNonce = other.m_nonce
  ecdheRemote : s.handshake.m_ecdheRemote = Secp256k1.toPublic other.m_ecdheLocal
  io : s.handshake.m_io = RLPXFrameCoder.setup originated
    (Secp256k1.toPublic other.m_ecdheLocal) other.m_nonce own.m_ecdheLocal own.m_nonce ack auth
  setUp : s.handshake.m_io.isSome

/-- The initiator when it has written. -/
def written (form : AuthForm) (a : RLPXHandshake Secret Random) : RLPXHandshake Secret Random :=
  {a with
    m_nextState := .AckAuth
    m_auth := a.authPlain form
    m_authCipher := a.authCipher form}

variable {hello : Bytes}

/-- Where the initiator may stand, and what it has written. -/
inductive Initiating (form : AuthForm) (a b : RLPXHandshake Secret Random) (hello : Bytes) :
    Side Secret Random → Bytes → Prop
  | new : Initiating form a b hello ⟨a, .ready, [], hello⟩ []
  | written : Initiating form a b hello ⟨written form a, .ready, [], hello⟩ (a.authCipher form)
  | first {got : Bytes} (le : got.length ≤ c_ackCipherSizeBytes) :
    Initiating form a b hello ⟨{written form a with m_nextState := .WriteHello},
      .reading c_ackCipherSizeBytes .readAck got, got, hello⟩ (a.authCipher form)
  | second {first got : Bytes} (hfirst : first.length = c_ackCipherSizeBytes)
    (hne : form = .legacy → first ≠ answer form a b)
    (le : got.length ≤ fromBigEndian (first.take 2) + 2 - c_ackCipherSizeBytes) :
    Initiating form a b hello ⟨{written form a with
        m_nextState := .WriteHello
        m_ackCipher := first.take (fromBigEndian (first.take 2) + 2)},
      .reading (fromBigEndian (first.take 2) + 2 - c_ackCipherSizeBytes) .readAckEIP8 got,
      first ++ got, hello⟩ (a.authCipher form)
  | hello {s : Side Secret Random} (h : Knows true a b (a.authCipher form) (answer form a b) s)
    (consumed : s.consumed = answer form a b) :
    Initiating form a b hello s (a.authCipher form ++ hello)
  | gone {s : Side Secret Random} (status : s.status = .closed ∨ ∃ e, s.status = .thrown e)
    (strays : Strays (answer form a b) s.consumed) :
    Initiating form a b hello s (a.authCipher form)

section Initiating
variable {s s' : Side Secret Random} {sent out : Bytes} (hi : Ideal form a b) (hf : Facing a b)
include hi hf

theorem Initiating.receives (h : Initiating form a b hello s sent) {x : Bytes}
    (hr : s.Receives x s') : Initiating form a b hello s' sent := by
  cases hr with
  | @read count handler got x status ne le =>
    cases h with
    | new => cases status
    | written => cases status
    | first _ =>
      obtain ⟨rfl, rfl, rfl⟩ := Status.reading.inj status
      exact .first (by rwa [List.length_append])
    | @second first got' hfirst hne _ =>
      obtain ⟨rfl, rfl, rfl⟩ := Status.reading.inj status
      have hs := @Initiating.second _ _ _ _ _ form a b hello first (got' ++ x) hfirst hne
        (by rwa [List.length_append])
      rw [← List.append_assoc] at hs
      exact hs
    | hello h consumed =>
      rw [h.status] at status
      cases status
    | gone status' strays =>
      rcases status' with h | ⟨e, h⟩
      · rw [h] at status
        cases status
      · rw [h] at status
        cases status

end Initiating

end Ideal

end Assumptions

end Aleth.P2p
