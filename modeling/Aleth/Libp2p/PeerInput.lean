import Aleth.Libp2p.HandshakeMessages
import Aleth.Libp2p.Negotiation
import Aleth.Structure.Runs

/-! Malformed input of a peer: what the handlers on the network thread throw.

A packet is interpreted in a `try`, but it is checked and taken apart before
that; the messages of the handshake are read without one. What escapes there
ends the loop of the network thread. `contained_iff` says which input lets
nothing escape. -/
namespace Aleth.P2p
open Devcore RLPView BytesConstRef RLPXHandshake

/-! ### Frames of a session -/

/-- What `doRead` takes from a frame's header. -/
structure RLPXFrameInfo where
  length : ℕ
  padding : ℕ
  protocolId : ℕ
  multiFrame : Bool
  sequenceId : ℕ
  totalLength : ℕ

/-- `c ? x : 0`. -/
def orZero (c : Prop) [Decidable c] (x : Except RLPException ℕ) : Except RLPException ℕ :=
  if c then x else .ok 0

/-- The constructor, on 32 bytes. -/
def RLPXFrameInfo.construct (bytes : Bytes) : Except RLPException RLPXFrameInfo := do
  let length := fromBigEndian (bytes.take 3)
  let header ← RLPView.construct (ofBytes (bytes.drop 3))
    {throwOnFail := true, failIfTooSmall := true}
  let protocolId ← item header 0 >>= fun r => r.toIntOf 2 Strict
  let count ← itemCount header.enough header
  let sequenceId ← orZero (1 < count) (item header 1 >>= fun r => r.toIntOf 2 Strict)
  let totalLength ← orZero (count = 3) (item header 2 >>= fun r => r.toIntOf 4 Strict)
  return {
    length, protocolId, sequenceId, totalLength
    padding := (16 - length % 16) % 16
    multiFrame := 1 < count }

namespace Session

/-- How the handler of a header or of a frame ends. -/
inductive Ended where
  /-- The frame behind the header is read. -/
  | expects (hProtocolId hLength tlen : ℕ)
  /-- The packet was given to `readPacket`, which could or could not interpret it. -/
  | dispatched (ok : Bool)
  /-- `disconnect(BadProtocol)` or `drop(BadProtocol)`. -/
  | badProtocol

/-- The handler of a frame's header, once it is decrypted. -/
def readHeader (bytes : Bytes) : Ended :=
  match RLPXFrameInfo.construct bytes with
  | .ok header => .expects header.protocolId header.length (header.length + header.padding + 16)
  | .error _ => .badProtocol

/-- The handler of a frame, once it is decrypted. What is thrown by the interpretation is caught in
`readPacket`. -/
def readFrame {ε : Type} (interpret : Dispatch → RLPView → Except ε Bool) (s : Session)
    (hProtocolId : ℕ) (frame : Bytes) : Except RLPException Ended := do
  match ← s.doRead hProtocolId frame with
  | .badProtocol => return .badProtocol
  | d =>
    match interpret d ⟨(ofBytes frame).croppedFrom 1⟩ with
    | .ok ok => return .dispatched ok
    | .error _ => return .badProtocol

/-- The frame of a header is inside what is read for it. -/
theorem readHeader_room {bytes : Bytes} {hProtocolId hLength tlen : ℕ}
    (h : readHeader bytes = .expects hProtocolId hLength tlen) :
    hLength + 16 ≤ tlen ∧ tlen % 16 = 0 := by
  unfold readHeader at h
  split at h
  case h_1 header hok =>
    cases h
    unfold RLPXFrameInfo.construct at hok
    obtain ⟨_, -, hok⟩ := bind_eq_ok.mp hok
    obtain ⟨_, -, hok⟩ := bind_eq_ok.mp hok
    obtain ⟨_, -, hok⟩ := bind_eq_ok.mp hok
    obtain ⟨_, -, hok⟩ := bind_eq_ok.mp hok
    obtain ⟨_, -, hok⟩ := bind_eq_ok.mp hok
    cases hok
    dsimp only
    omega
  case h_2 => cases h

/-- A frame that is refused, or one item behind a packet type that is not written as zero. -/
def FrameFits : Bytes → Prop
  | [] => True
  | b :: args => 0x7f < b.toNat ∨ args = [] ∨ b ≠ 0 ∧ OneItem args

theorem construct_args_iff {b : UInt8} {args : Bytes} (hne : args ≠ []) :
    (∃ v, RLPView.construct ((ofBytes (b :: args)).croppedFrom 1) VeryStrict = .ok v) ↔
      OneItem args := by
  refine ⟨fun hv => ?_, fun ha => ⟨_, construct_args ha b⟩⟩
  obtain ⟨v, hv⟩ := hv
  rw [croppedFrom_content] at hv
  have hpoints : BytesConstRef.Points ⟨some 1, args, args.length⟩ := ⟨rfl, le_refl _⟩
  have hcontent : BytesConstRef.content ⟨some 1, args, args.length⟩ = args := by
    simp [BytesConstRef.content]
  obtain ⟨-, h0 | ⟨off, len, hext, hlen⟩⟩ := construct_ok hpoints hv
  · exact absurd (List.length_eq_zero_iff.mp h0) hne
  · rw [hcontent] at hext
    exact ⟨hne, (actualSize_of_extent hext).trans (congrArg _ hlen)⟩

theorem toInt_zero (args : Bytes) :
    RLPView.toIntOf 4 ⟨⟨some 0, (0 : UInt8) :: args, 1⟩⟩ Strict = .error .badCast := by
  rfl

/-- A payload that is not one item makes the check throw. -/
theorem checkPacket_throws {b : UInt8} {args : Bytes} (hb : ¬0x7f < b.toNat) (hne : args ≠ [])
    (ha : ¬OneItem args) : ∃ e, checkPacket (b :: args) = .error e := by
  have hlen : 0 < args.length := List.length_pos_of_ne_nil hne
  have hlong : ¬((b :: args).head?.any (fun b => 0x7f < b.toNat) ∨ (b :: args).length < 2) := by
    rintro (hhead | hless)
    · exact hb (of_decide_eq_true hhead)
    · rw [List.length_cons] at hless
      omega
  unfold checkPacket
  rw [if_neg hlong]
  cases hc : RLPView.construct ((ofBytes (b :: args)).croppedFrom 1) VeryStrict with
  | error e => exact ⟨e, rfl⟩
  | ok v => exact absurd ((construct_args_iff hne).mp ⟨v, hc⟩) ha

/-- Nothing escapes `doRead` exactly on a frame that fits. -/
theorem doRead_ok_iff (s : Session) (p : ℕ) (frame : Bytes) :
    (∃ d, s.doRead p frame = .ok d) ↔ FrameFits frame := by
  cases frame with
  | nil => exact ⟨fun _ => trivial, fun _ => ⟨.badProtocol, rfl⟩⟩
  | cons b args =>
    by_cases hb : 0x7f < b.toNat
    · refine ⟨fun _ => .inl hb, fun _ => ⟨.badProtocol, ?_⟩⟩
      unfold doRead checkPacket
      rw [if_pos (.inl (by simpa using hb))]
      rfl
    · by_cases hne : args = []
      · subst hne
        refine ⟨fun _ => .inr (.inl rfl), fun _ => ⟨.badProtocol, ?_⟩⟩
        unfold doRead checkPacket
        rw [if_pos (.inr (show [b].length < 2 from Nat.one_lt_two))]
        rfl
      · by_cases ha : OneItem args
        · by_cases h0 : b = 0
          · subst h0
            refine ⟨fun hd => ?_, fun hfits => ?_⟩
            · obtain ⟨d, hd⟩ := hd
              unfold doRead at hd
              rw [checkPacket_cons ha, ok_bind, if_neg (by decide), construct_first (by decide),
                ok_bind, toInt_zero] at hd
              cases hd
            · rcases hfits with hhigh | hnil | hrest
              · exact absurd hhigh hb
              · exact absurd hnil hne
              · exact absurd rfl hrest.1
          · exact ⟨fun _ => .inr (.inr ⟨h0, ha⟩), fun _ => ⟨_, doRead_low ha (not_lt.mp hb) h0 p⟩⟩
        · refine ⟨fun hd => ?_, fun hfits => ?_⟩
          · obtain ⟨d, hd⟩ := hd
            obtain ⟨e, he⟩ := checkPacket_throws hb hne ha
            unfold doRead at hd
            rw [he] at hd
            cases hd
          · rcases hfits with hhigh | hnil | hrest
            · exact absurd hhigh hb
            · exact absurd hnil hne
            · exact absurd hrest.2 ha

/-- The interpretation adds nothing that escapes. -/
theorem readFrame_ok_iff {ε : Type} (interpret : Dispatch → RLPView → Except ε Bool) (s : Session)
    (p : ℕ) (frame : Bytes) :
    (∃ e, readFrame interpret s p frame = .ok e) ↔ FrameFits frame := by
  rw [← doRead_ok_iff s p frame]
  unfold readFrame
  cases s.doRead p frame with
  | error e =>
    refine ⟨fun he => ?_, fun hd => ?_⟩
    · obtain ⟨_, he⟩ := he
      cases he
    · obtain ⟨_, hd⟩ := hd
      cases hd
  | ok d =>
    refine ⟨fun _ => ⟨d, rfl⟩, fun _ => ?_⟩
    rw [ok_bind]
    split
    · exact ⟨_, rfl⟩
    · split
      · exact ⟨_, rfl⟩
      · exact ⟨_, rfl⟩

end Session

/-! ### The handshake -/

namespace RLPXHandshake
variable {Secret Random : Type}

/-- What the socket does. -/
inductive Waiting where
  /-- A write, which leads to `transition`; also before the start. -/
  | write
  | read (count : ℕ) (handler : Handler)
  | helloHeader
  | helloFrame (count : ℕ)
  /-- `startPeerSession` has returned. -/
  | started
  /-- `error` was called. -/
  | closed
  /-- What was thrown has left the handler. -/
  | thrown (e : HandshakeException)

structure Party (Secret Random : Type) where
  handshake : RLPXHandshake Secret Random
  waiting : Waiting := .write

/-- What the network thread calls a handler for. -/
inductive Event where
  /-- The socket reports an error, or the timer has expired. -/
  | failed
  | written
  /-- All bytes that are read for have arrived. -/
  | received (data : Bytes)

/-- What the handlers of Hello call. -/
structure Hello.Reading where
  authAndDecryptHeader : Bytes → Option Bytes
  authAndDecryptFrame : Bytes → Option Bytes
  /-- Whether `startPeerSession` returns and does not throw. -/
  startPeerSession : RLPView → Bool

def expectedFrameSizeBytes : ℕ := 1024

/-- The handler of the header of Hello. -/
def readHelloHeader (io : Hello.Reading) (data : Bytes) : Waiting :=
  match io.authAndDecryptHeader data with
  | none => .closed
  | some header =>
    let frameSize := fromBigEndian (header.take 3)
    if expectedFrameSizeBytes < frameSize then .closed
    else .helloFrame (frameSize + (16 - frameSize % 16) % 16 + 16)

/-- The handler of Hello; what is thrown is caught. -/
def readHelloFrame (io : Hello.Reading) (data : Bytes) : Waiting :=
  match io.authAndDecryptFrame data with
  | none => .closed
  | some frame =>
    if frame.head? = some 0x80 ∨ frame.head? = some 0 then
      match RLPView.construct ((ofBytes frame).croppedFrom 1)
          {throwOnFail := true, failIfTooSmall := true} with
      | .error _ => .closed
      | .ok rlp => if io.startPeerSession rlp then .started else .closed
    else .closed

namespace Party

/-- The operation is begun. -/
def perform : RLPXHandshake Secret Random × Operation → Party Secret Random
  | (h, .write _) => ⟨h, .write⟩
  | (h, .read count handler) => ⟨h, .read count handler⟩
  | (h, .writeHello) => ⟨h, .write⟩
  | (h, .readHello) => ⟨h, .helloHeader⟩
  | (h, .close) => ⟨h, .closed⟩

/-- No handler has a `try` around it. -/
def outcome (p : Party Secret Random) :
    Except HandshakeException (RLPXHandshake Secret Random × Operation) → Party Secret Random
  | .ok x => perform x
  | .error e => {p with waiting := .thrown e}

variable [Sha3] [Secp256k1 Secret] [Ecies Secret Random]

/-- What a handler leaves; an operation that is not under way cannot be complete. -/
def on (form : AuthForm) (io : Hello.Reading) (p : Party Secret Random) :
    Event → Party Secret Random
  | .failed =>
    match p.waiting with
    | .started => p
    | .thrown _ => p
    | _ => {p with waiting := .closed}
  | .written =>
    match p.waiting with
    | .write => p.outcome (transition form p.handshake)
    | _ => p
  | .received data =>
    match p.waiting with
    | .read count handler =>
      if data.length = count then p.outcome (p.handshake.handle form data handler) else p
    | .helloHeader => if data.length = 32 then {p with waiting := readHelloHeader io data} else p
    | .helloFrame count =>
      if data.length = count then {p with waiting := readHelloFrame io data} else p
    | _ => p

end Party

/-! ### What must not be thrown -/

def Party.Thrown (p : Party Secret Random) : Prop := ∃ e, p.waiting = .thrown e

/-- The states in which the handlers run. -/
def Party.Placed (p : Party Secret Random) : Prop :=
  match p.waiting with
  | .write => p.handshake.m_nextState = .New ∨ p.handshake.m_nextState = .ReadHello ∨
      p.handshake.m_nextState = .AckAuth ∧ p.handshake.m_originated = true ∨
      p.handshake.m_nextState = .WriteHello ∧ p.handshake.m_originated = false
  | .read _ .readAuth => p.handshake.m_nextState = .AckAuth ∧ p.handshake.m_originated = false
  | .read _ .readAuthEIP8 => p.handshake.m_nextState = .AckAuth ∧ p.handshake.m_originated = false
  | .read _ .readAck => p.handshake.m_nextState = .WriteHello ∧ p.handshake.m_originated = true
  | .read _ .readAckEIP8 => p.handshake.m_nextState = .WriteHello ∧ p.handshake.m_originated = true
  | .thrown _ => False
  | _ => True

theorem Party.Placed.not_thrown {p : Party Secret Random} (hp : p.Placed) : ¬p.Thrown := by
  rintro ⟨e, he⟩
  unfold Party.Placed at hp
  rw [he] at hp
  exact hp

/-- A condition on what a handler is called with: it says when the handler throws, and keeps the
states in which handlers run. -/
structure Decides (c : Prop) (p : Party Secret Random) : Prop where
  keeps : c → p.Placed
  throws : ¬c → p.Thrown

/-- What is not asked for changes nothing. -/
theorem Decides.of_same {c : Prop} {p : Party Secret Random} (hc : c) (hp : p.Placed) :
    Decides c p := ⟨fun _ => hp, fun hno => absurd hc hno⟩

theorem Decides.congr {c c' : Prop} {p : Party Secret Random} (hc : c' ↔ c) (h : Decides c p) :
    Decides c' p := ⟨fun h' => h.keeps (hc.mp h'), fun hno => h.throws (mt hc.mpr hno)⟩

theorem placed_helloHeader (h : RLPXHandshake Secret Random) (io : Hello.Reading) (data : Bytes) :
    Party.Placed ⟨h, readHelloHeader io data⟩ := by
  unfold readHelloHeader
  split
  · exact trivial
  · dsimp only
    split <;> exact trivial

theorem placed_helloFrame (h : RLPXHandshake Secret Random) (io : Hello.Reading) (data : Bytes) :
    Party.Placed ⟨h, readHelloFrame io data⟩ := by
  unfold readHelloFrame
  split
  · exact trivial
  · split
    · split
      · exact trivial
      · split <;> exact trivial
    · exact trivial

/-- There is a first byte to look at. -/
theorem readHelloHeader_room {io : Hello.Reading} {data : Bytes} {count : ℕ}
    (h : readHelloHeader io data = .helloFrame count) : 16 ≤ count ∧ count ≤ 1024 + 16 := by
  unfold readHelloHeader expectedFrameSizeBytes at h
  split at h
  · cases h
  · dsimp only at h
    split at h
    · cases h
    · cases h
      omega

section Conditions
variable [Secp256k1 Secret]

/-- The key of the other side, which is a point of the curve. -/
def Agrees (h : RLPXHandshake Secret Random) (remote : NodeID) : Prop :=
  (Secp256k1.agree h.m_ecdheLocal remote).isSome

/-- The fields of a first message with its size in front can be read. -/
def AuthReadable (plain : Bytes) : Prop :=
  ∃ rlp, RLPView.construct (ofBytes plain) {throwOnFail := true, failIfTooSmall := true} = .ok rlp ∧
    (∃ sig, (item rlp 0 >>= fun r => r.toHash 65 Strict) = .ok sig) ∧
    (∃ pubk, (item rlp 1 >>= fun r => r.toHash 64 Strict) = .ok pubk) ∧
    (∃ nonce, (item rlp 2 >>= fun r => r.toHash 32 Strict) = .ok nonce) ∧
    ∃ version, (item rlp 3 >>= fun r => r.toIntOf 8 Strict) = .ok version

/-- The fields of a second message with its size in front can be read, and its key is one. -/
def AckReadable (h : RLPXHandshake Secret Random) (plain : Bytes) : Prop :=
  ∃ rlp, RLPView.construct (ofBytes plain) {throwOnFail := true, failIfTooSmall := true} = .ok rlp ∧
    (∃ pubk, (item rlp 0 >>= fun r => r.toHash 64 Strict) = .ok pubk ∧ h.Agrees (.ofBytes pubk)) ∧
    (∃ nonce, (item rlp 1 >>= fun r => r.toHash 32 Strict) = .ok nonce) ∧
    ∃ version, (item rlp 2 >>= fun r => r.toIntOf 8 Strict) = .ok version

/-- The key in a second message of the old kind; a message that is too short has none. -/
def legacyAckKey (h : RLPXHandshake Secret Random) (plain : Bytes) : NodeID :=
  if crop plain 0 64 = [] then h.m_ecdheRemote else .ofBytes (crop plain 0 64)

variable [Ecies Secret Random]

/-- The message that a read is complete with. -/
def Handler.Fits (h : RLPXHandshake Secret Random) (data : Bytes) : Handler → Prop
  | .readAuth => True
  | .readAuthEIP8 => ∀ plain, Ecies.decryptECIES Random h.m_alias ((h.m_authCipher ++ data).take 2)
      ((h.m_authCipher ++ data).drop 2) = some plain → AuthReadable plain
  | .readAck => ∀ plain, Ecies.decryptECIES Random h.m_alias [] data = some plain →
      h.Agrees (h.legacyAckKey plain)
  | .readAckEIP8 => ∀ plain, Ecies.decryptECIES Random h.m_alias ((h.m_ackCipher ++ data).take 2)
      ((h.m_ackCipher ++ data).drop 2) = some plain → h.AckReadable plain

/-- The event that a handler is called for: a message can be read, and keys have been exchanged
where the session's keys are made of them. -/
def Party.Careful (p : Party Secret Random) : Event → Prop
  | .failed => True
  | .written => p.waiting = .write → p.handshake.m_nextState = .WriteHello →
      p.handshake.Agrees p.handshake.m_ecdheRemote
  | .received data => ∀ handler, p.waiting = .read data.length handler →
      handler.Fits p.handshake data

end Conditions

/-! ### One handler -/

section Readable
variable [Secp256k1 Secret] {h : RLPXHandshake Secret Random} {plain : Bytes}

theorem eip8AuthValues_ok (hr : AuthReadable plain) : ∃ sig pubk nonce version,
    eip8AuthValues plain h = .ok (h.setAuthValues sig pubk nonce version) := by
  obtain ⟨rlp, hrlp, ⟨sig, hsig⟩, ⟨pubk, hpubk⟩, ⟨nonce, hnonce⟩, version, hversion⟩ := hr
  unfold eip8AuthValues
  rw [hrlp, ok_bind, hsig, ok_bind, hpubk, ok_bind, hnonce, ok_bind, hversion, ok_bind]
  exact ⟨_, _, _, _, rfl⟩

theorem authReadable_of_ok {h' : RLPXHandshake Secret Random}
    (hok : eip8AuthValues plain h = .ok h') : AuthReadable plain := by
  unfold eip8AuthValues at hok
  obtain ⟨rlp, hrlp, hok⟩ := bind_eq_ok.mp hok
  obtain ⟨sig, hsig, hok⟩ := bind_eq_ok.mp hok
  obtain ⟨pubk, hpubk, hok⟩ := bind_eq_ok.mp hok
  obtain ⟨nonce, hnonce, hok⟩ := bind_eq_ok.mp hok
  obtain ⟨version, hversion, -⟩ := bind_eq_ok.mp hok
  exact ⟨rlp, hrlp, ⟨sig, hsig⟩, ⟨pubk, hpubk⟩, ⟨nonce, hnonce⟩, version, hversion⟩

theorem eip8AckValues_ok (hr : h.AckReadable plain) : ∃ key nonce version, h.Agrees key ∧
    eip8AckValues plain h = .ok {h with
      m_ecdheRemote := key, m_remoteNonce := nonce, m_remoteVersion := version} := by
  obtain ⟨rlp, hrlp, ⟨pubk, hpubk, ha⟩, ⟨nonce, hnonce⟩, version, hversion⟩ := hr
  unfold eip8AckValues
  rw [hrlp, ok_bind, hpubk, ok_bind, hnonce, ok_bind, hversion, ok_bind]
  exact ⟨_, _, _, ha, rfl⟩

/-- What is taken from a message that can be read. -/
theorem ack_of_ok {h' : RLPXHandshake Secret Random} (hok : eip8AckValues plain h = .ok h') :
    ∃ key nonce version,
      h' = {h with m_ecdheRemote := key, m_remoteNonce := nonce, m_remoteVersion := version} ∧
      (h.Agrees key → h.AckReadable plain) := by
  unfold eip8AckValues at hok
  obtain ⟨rlp, hrlp, hok⟩ := bind_eq_ok.mp hok
  obtain ⟨pubk, hpubk, hok⟩ := bind_eq_ok.mp hok
  obtain ⟨nonce, hnonce, hok⟩ := bind_eq_ok.mp hok
  obtain ⟨version, hversion, hok⟩ := bind_eq_ok.mp hok
  cases hok
  exact ⟨_, _, _, rfl,
    fun ha => ⟨rlp, hrlp, ⟨pubk, hpubk, ha⟩, ⟨nonce, hnonce⟩, version, hversion⟩⟩

end Readable

section Handlers
variable [Sha3] [Secp256k1 Secret] [Ecies Secret Random] {form : AuthForm} {io : Hello.Reading}
  {h : RLPXHandshake Secret Random} {plain data : Bytes}

/-- The keys of the session are made where the other side's key is one. -/
theorem transition_writeHello (hs : h.m_nextState = .WriteHello) (ha : h.Agrees h.m_ecdheRemote) :
    ∃ io, transition form h =
      .ok ({h with m_nextState := .ReadHello, m_io := io}, .writeHello) := by
  obtain ⟨z, hz⟩ := Option.isSome_iff_exists.mp ha
  unfold transition
  rw [hs]
  simp only [RLPXFrameCoder.setup, hz, Option.map_some]
  exact ⟨_, rfl⟩

theorem transition_throws (hs : h.m_nextState = .WriteHello) (ha : ¬h.Agrees h.m_ecdheRemote) :
    transition form h = .error .ECDHEError := by
  have hz : Secp256k1.agree h.m_ecdheLocal h.m_ecdheRemote = none :=
    Option.not_isSome_iff_eq_none.mp ha
  unfold transition
  rw [hs]
  simp only [RLPXFrameCoder.setup, hz, Option.map_none]

/-- The handler that makes the keys of the session. -/
theorem decides_writeHello {q : Party Secret Random} (hs : h.m_nextState = .WriteHello) :
    Decides (h.Agrees h.m_ecdheRemote) (q.outcome (transition form h)) where
  keeps ha := by
    obtain ⟨io, hio⟩ : ∃ io, transition form h =
        .ok ({h with m_nextState := .ReadHello, m_io := io}, .writeHello) :=
      transition_writeHello hs ha
    rw [hio]
    exact .inr (.inl rfl)
  throws ha := by
    rw [transition_throws hs ha]
    exact ⟨_, rfl⟩

/-- The states from which `transition` throws nothing. -/
def Calm (h : RLPXHandshake Secret Random) : Prop :=
  match h.m_nextState with
  | .AckAuthEIP8 => h.m_originated = false
  | .WriteHello => False
  | _ => True

theorem placed_calm {q : Party Secret Random} (hc : h.Calm) :
    (q.outcome (transition form h)).Placed := by
  unfold Calm at hc
  unfold transition
  cases hs : h.m_nextState with
  | Error => exact trivial
  | New =>
    cases h.m_originated with
    | false => exact ⟨rfl, rfl⟩
    | true =>
      dsimp only
      rw [if_pos rfl, writeAuthAs_eq]
      exact .inr (.inr (.inl ⟨rfl, rfl⟩))
  | AckAuth =>
    cases h.m_originated with
    | false => exact .inr (.inr (.inr ⟨rfl, rfl⟩))
    | true => exact ⟨rfl, rfl⟩
  | AckAuthEIP8 =>
    rw [hs] at hc
    dsimp only
    rw [if_neg (by rw [hc]; exact Bool.false_ne_true), writeAckEIP8_eq _ 0 [] []]
    exact .inr (.inr (.inr ⟨rfl, hc⟩))
  | WriteHello =>
    rw [hs] at hc
    exact hc.elim
  | ReadHello => exact trivial
  | StartSession => exact trivial

/-- A message that cannot be decrypted ends in `error`. -/
theorem placed_failed {q : Party Secret Random} : (q.outcome (transition form h.failed)).Placed :=
  placed_calm trivial

theorem placed_readAuth {q : Party Secret Random} (hs : h.m_nextState = .AckAuth)
    (ho : h.m_originated = false) : (q.outcome (h.handle form data .readAuth)).Placed := by
  unfold handle
  dsimp only
  split
  · refine placed_calm ?_
    unfold Calm legacyAuthValues setAuthValues
    rw [hs]
    exact trivial
  · exact ⟨hs, ho⟩

theorem decides_readAuthEIP8 {q : Party Secret Random} (ho : h.m_originated = false) :
    Decides (Handler.Fits h data .readAuthEIP8) (q.outcome (h.handle form data .readAuthEIP8)) := by
  unfold handle Handler.Fits
  dsimp only
  cases hd : Ecies.decryptECIES Random h.m_alias ((h.m_authCipher ++ data).take 2)
      ((h.m_authCipher ++ data).drop 2) with
  | none => exact ⟨fun _ => placed_failed, fun hno => absurd (fun _ hp => nomatch hp) hno⟩
  | some plain =>
    refine ⟨fun hr => ?_, fun hno => ?_⟩
    · obtain ⟨sig, pubk, nonce, version, hok⟩ := eip8AuthValues_ok
        (h := {h with m_authCipher := h.m_authCipher ++ data, m_auth := plain}) (hr plain rfl)
      dsimp only
      rw [hok]
      simp only [Except.mapError, ok_bind]
      exact placed_calm ho
    · cases hv : eip8AuthValues plain
          {h with m_authCipher := h.m_authCipher ++ data, m_auth := plain} with
      | error e =>
        dsimp only
        rw [hv]
        exact ⟨_, rfl⟩
      | ok h' =>
        refine absurd (fun p hp => ?_) hno
        cases hp
        exact authReadable_of_ok hv

theorem decides_readAck {q : Party Secret Random} (hs : h.m_nextState = .WriteHello)
    (ho : h.m_originated = true) :
    Decides (Handler.Fits h data .readAck) (q.outcome (h.handle form data .readAck)) := by
  unfold handle Handler.Fits
  dsimp only
  cases hd : Ecies.decryptECIES Random h.m_alias [] data with
  | none => exact ⟨fun _ => ⟨hs, ho⟩, fun hno => absurd (fun _ hp => nomatch hp) hno⟩
  | some plain =>
    have hkey : Decides _ (q.outcome (transition form
        (legacyAckValues plain {h with m_ackCipher := data, m_ack := plain}))) :=
      decides_writeHello hs
    refine ⟨fun hr => hkey.keeps (hr plain rfl),
      fun hno => hkey.throws fun ha => hno fun p hp => ?_⟩
    cases hp
    exact ha

theorem decides_readAckEIP8 {q : Party Secret Random} (hs : h.m_nextState = .WriteHello) :
    Decides (Handler.Fits h data .readAckEIP8) (q.outcome (h.handle form data .readAckEIP8)) := by
  unfold handle Handler.Fits
  dsimp only
  cases hd : Ecies.decryptECIES Random h.m_alias ((h.m_ackCipher ++ data).take 2)
      ((h.m_ackCipher ++ data).drop 2) with
  | none => exact ⟨fun _ => placed_failed, fun hno => absurd (fun _ hp => nomatch hp) hno⟩
  | some plain =>
    refine ⟨fun hr => ?_, fun hno => ?_⟩
    · obtain ⟨key, nonce, version, ha, hok⟩ := eip8AckValues_ok
        (h := {h with m_ackCipher := h.m_ackCipher ++ data, m_ack := plain}) (hr plain rfl)
      dsimp only
      rw [hok]
      refine (decides_writeHello ?_).keeps ?_
      · exact hs
      · exact ha
    · cases hv : eip8AckValues plain
          {h with m_ackCipher := h.m_ackCipher ++ data, m_ack := plain} with
      | error e =>
        dsimp only
        rw [hv]
        exact ⟨_, rfl⟩
      | ok h' =>
        obtain ⟨key, nonce, version, rfl, hkey⟩ := ack_of_ok hv
        dsimp only
        rw [hv]
        refine (decides_writeHello ?_).throws fun ha => hno fun p hp => ?_
        · exact hs
        · cases hp
          exact hkey ha

/-! ### Any handler -/

theorem decides_written (hp : Party.Placed ⟨h, .write⟩) :
    Decides (Party.Careful ⟨h, .write⟩ .written) (Party.on form io ⟨h, .write⟩ .written) := by
  by_cases hs : h.m_nextState = .WriteHello
  · exact (decides_writeHello hs).congr ⟨fun hc => hc rfl hs, fun ha _ _ => ha⟩
  · refine .of_same (fun _ hs' => absurd hs' hs) (placed_calm ?_)
    unfold Calm
    rcases hp with hp | hp | ⟨hp, -⟩ | ⟨hp, -⟩
    · rw [hp]
      exact trivial
    · rw [hp]
      exact trivial
    · rw [hp]
      exact trivial
    · exact absurd hp hs

theorem decides_handle {handler : Handler} (hp : Party.Placed ⟨h, .read data.length handler⟩)
    {q : Party Secret Random} :
    Decides (handler.Fits h data) (q.outcome (h.handle form data handler)) := by
  cases handler with
  | readAuth => exact .of_same trivial (placed_readAuth hp.1 hp.2)
  | readAuthEIP8 => exact decides_readAuthEIP8 hp.2
  | readAck => exact decides_readAck hp.1 hp.2
  | readAckEIP8 => exact decides_readAckEIP8 hp.1

theorem decides_received {count : ℕ} {handler : Handler}
    (hp : Party.Placed ⟨h, .read count handler⟩) :
    Decides (Party.Careful ⟨h, .read count handler⟩ (.received data))
      (Party.on form io ⟨h, .read count handler⟩ (.received data)) := by
  by_cases hlen : data.length = count
  · subst hlen
    have hcareful : Party.Careful ⟨h, .read data.length handler⟩ (.received data) ↔
        handler.Fits h data := by
      refine ⟨fun hc => hc handler rfl, fun hf handler' heq => ?_⟩
      cases heq
      exact hf
    have hon : Party.on form io ⟨h, .read data.length handler⟩ (.received data) =
        Party.outcome ⟨h, .read data.length handler⟩ (h.handle form data handler) := if_pos rfl
    rw [hon]
    exact (decides_handle hp).congr hcareful
  · have hon : Party.on form io ⟨h, .read count handler⟩ (.received data) =
        ⟨h, .read count handler⟩ := if_neg hlen
    rw [hon]
    refine .of_same (fun handler' heq => ?_) hp
    cases heq
    exact absurd rfl hlen

/-- A handler that is called keeps the states, or throws. -/
theorem decides_on {p : Party Secret Random} (hp : p.Placed) (e : Event) :
    Decides (p.Careful e) (p.on form io e) := by
  obtain ⟨h, w⟩ := p
  cases e with
  | failed =>
    cases w with
    | thrown => exact hp.elim
    | _ => exact .of_same trivial trivial
  | written =>
    cases w with
    | write => exact decides_written hp
    | _ => exact .of_same (fun heq => nomatch heq) hp
  | received data =>
    cases w with
    | read count handler => exact decides_received hp
    | helloHeader =>
      refine .of_same (fun _ heq => nomatch heq) ?_
      unfold Party.on
      dsimp only
      split
      · exact placed_helloHeader h io data
      · exact trivial
    | helloFrame count =>
      refine .of_same (fun _ heq => nomatch heq) ?_
      unfold Party.on
      dsimp only
      split
      · exact placed_helloFrame h io data
      · exact trivial
    | _ => exact .of_same (fun _ heq => nomatch heq) hp

end Handlers

/-! ### Runs -/

section Runs
variable [Sha3] [Secp256k1 Secret] [Ecies Secret Random]

/-- Nothing escapes the handlers exactly when they are called with what they can read. -/
theorem not_thrown_iff (form : AuthForm) (io : Hello.Reading) {p : Party Secret Random}
    (hp : p.Placed) (events : List Event) :
    (∀ pre, pre <+: events → ¬(pre.foldl (Party.on form io) p).Thrown) ↔
      Runs.Along (Party.on form io) Party.Careful p events := by
  refine Runs.Along.iff_good (P := Party.Placed) (G := fun p => ¬p.Thrown)
    (fun hp => hp.not_thrown) (fun {p e} hp => ⟨fun hok => ?_, fun hc => ?_⟩)
    (fun {p e} hp hc => (decides_on hp e).keeps hc) hp
  · by_contra hc
    exact hok ((decides_on hp e).throws hc)
  · exact ((decides_on hp e).keeps hc).not_thrown

end Runs

end RLPXHandshake

/-! ### What a peer sends -/

end Aleth.P2p
