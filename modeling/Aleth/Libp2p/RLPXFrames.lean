import Aleth.Libp2p.FrameHeaders
import Aleth.Structure.Channel

/-! Frames of a session (`RLPXFrameCoder.cpp`).

A frame is a header of 16 bytes and a padded payload, both encrypted with one key
stream, each followed by a digest of all that went before in this direction. A
header and a payload are the two kinds of `Chunk`, and each direction has a state
that writing and reading a chunk move alike (`emit`). -/
namespace Aleth.P2p
open Devcore RLPView BytesConstRef

/-- The ciphers of a session: the key stream of the counter mode from the zero vector on, and the
cipher of one block. -/
class FrameCiphers where
  keystream : H256 → ℕ → UInt8
  encryptBlock : H256 → Bytes → Bytes

/-- `CTR_Mode<AES>::Encryption`, with how far it is. -/
structure CTR where
  key : H256
  position : ℕ
deriving DecidableEq

structure RLPXFrameCoderImpl where
  frameEnc : CTR
  frameDec : CTR
  macEnc : H256
  /-- What the hash has been updated with. -/
  egressMac : Bytes
  /-- What the hash has been updated with. -/
  ingressMac : Bytes
deriving DecidableEq

/-- As it is after `setup`. -/
def RLPXFrameCoder.impl (c : RLPXFrameCoder) : RLPXFrameCoderImpl where
  frameEnc := ⟨c.frameEncKey, 0⟩
  frameDec := ⟨c.frameDecKey, 0⟩
  macEnc := c.macEncKey
  egressMac := c.egressMac
  ingressMac := c.ingressMac

/-! ### Chunks of one direction -/

/-- The 16 bytes of a header. -/
def headerPlain (header : Bytes) : Bytes := header ++ List.replicate (16 - header.length) 0

def bodyPlain (payload : Bytes) : Bytes :=
  payload ++ List.replicate (framePadding payload.length) 0

theorem length_headerPlain {header : Bytes} (hlen : header.length ≤ 16) :
    (headerPlain header).length = 16 := by
  rw [headerPlain, List.length_append, List.length_replicate]
  omega

theorem length_bodyPlain (payload : Bytes) :
    (bodyPlain payload).length = payload.length + framePadding payload.length := by
  rw [bodyPlain, List.length_append, List.length_replicate]

theorem take_bodyPlain (payload mac : Bytes) :
    (bodyPlain payload ++ mac).take payload.length = payload := by
  rw [bodyPlain, List.append_assoc, List.take_left]

structure Direction where
  cipher : CTR
  mac : Bytes

inductive Chunk where
  | header (plain : Bytes)
  | body (plain : Bytes)

def Chunk.plain : Chunk → Bytes
  | .header plain => plain
  | .body plain => plain

namespace RLPXFrameCoderImpl
variable (c : RLPXFrameCoderImpl)

def egress : Direction := ⟨c.frameEnc, c.egressMac⟩

def ingress : Direction := ⟨c.frameDec, c.ingressMac⟩

def withEgress (d : Direction) : RLPXFrameCoderImpl :=
  {c with frameEnc := d.cipher, egressMac := d.mac}

def withIngress (d : Direction) : RLPXFrameCoderImpl :=
  {c with frameDec := d.cipher, ingressMac := d.mac}

@[simp] theorem ingress_withIngress (d : Direction) : (c.withIngress d).ingress = d := rfl

@[simp] theorem macEnc_withIngress (d : Direction) : (c.withIngress d).macEnc = c.macEnc := rfl

end RLPXFrameCoderImpl

/-- What one side writes the other can read. -/
structure InStep (c d : RLPXFrameCoderImpl) : Prop where
  macEnc : c.macEnc = d.macEnc
  there : c.egress = d.ingress
  back : c.ingress = d.egress

theorem RLPXFrameCoder.Matching.impl {c d : RLPXFrameCoder} (h : RLPXFrameCoder.Matching c d) :
    InStep c.impl d.impl := by
  obtain ⟨henc, hdec, hmac, hout, hin⟩ := h
  refine ⟨hmac, ?_, ?_⟩
  · simp only [RLPXFrameCoder.impl, RLPXFrameCoderImpl.egress, RLPXFrameCoderImpl.ingress, henc,
      hout]
  · simp only [RLPXFrameCoder.impl, RLPXFrameCoderImpl.egress, RLPXFrameCoderImpl.ingress, hdec,
      hin]

/-! ### Encryption and digests -/

section Cipher
variable [FrameCiphers]

def CTR.ProcessData (c : CTR) (data : Bytes) : CTR × Bytes :=
  (⟨c.key, c.position + data.length⟩,
    data.mapIdx fun i b => b ^^^ FrameCiphers.keystream c.key (c.position + i))

namespace CTR
variable (c : CTR)

theorem length_ProcessData (data : Bytes) : (c.ProcessData data).2.length = data.length :=
  List.length_mapIdx

theorem position_ProcessData (data : Bytes) :
    (c.ProcessData data).1 = ⟨c.key, c.position + data.length⟩ := rfl

/-- What is encrypted in two steps is encrypted in one. -/
theorem ProcessData_append (a b : Bytes) :
    c.ProcessData (a ++ b) = (((c.ProcessData a).1.ProcessData b).1,
      (c.ProcessData a).2 ++ ((c.ProcessData a).1.ProcessData b).2) := by
  unfold ProcessData
  simp only [List.mapIdx_append, List.length_append, Prod.mk.injEq, true_and,
    Nat.add_assoc, List.append_cancel_left_eq]
  refine congrArg (List.mapIdx · b) (funext fun i => funext fun x => ?_)
  rw [Nat.add_comm i]

/-- Encrypting twice from the same place gives the data. -/
theorem ProcessData_ProcessData (data : Bytes) :
    c.ProcessData (c.ProcessData data).2 = ((c.ProcessData data).1, data) := by
  refine Prod.ext ?_ ?_
  · rw [position_ProcessData, position_ProcessData, length_ProcessData]
  · unfold ProcessData
    refine List.ext_getElem (by simp) fun i hi hi' => ?_
    simp only [List.getElem_mapIdx]
    rw [UInt8.xor_assoc, UInt8.xor_self, UInt8.xor_zero]

end CTR

end Cipher

section Frames
variable [Sha3]

/-- `TruncatedFinal`. -/
def digestOf (mac : Bytes) : Bytes := (sha3 mac).bytes.take 16

theorem length_digestOf (mac : Bytes) : (digestOf mac).length = 16 := by
  rw [digestOf, List.length_take, (sha3 mac).size]
  rfl

variable [FrameCiphers]

/-- `updateMAC`, with a seed of 16 bytes or none. -/
def updateMAC (macEnc : H256) (mac seed : Bytes) : Bytes :=
  let prevDigest := digestOf mac
  let encDigest := FrameCiphers.encryptBlock macEnc prevDigest
  mac ++ List.zipWith (· ^^^ ·) encDigest (if seed = [] then prevDigest else seed)

namespace RLPXFrameCoderImpl
variable (c : RLPXFrameCoderImpl)

def egressDigest : Bytes := digestOf c.egressMac

def ingressDigest : Bytes := digestOf c.ingressMac

def updateEgressMACWithHeader (headerCipher : Bytes) : RLPXFrameCoderImpl :=
  {c with egressMac := updateMAC c.macEnc c.egressMac (headerCipher.take 16)}

def updateEgressMACWithFrame (cipher : Bytes) : RLPXFrameCoderImpl :=
  {c with egressMac := updateMAC c.macEnc (c.egressMac ++ cipher) []}

def updateIngressMACWithHeader (headerCipher : Bytes) : RLPXFrameCoderImpl :=
  {c with ingressMac := updateMAC c.macEnc c.ingressMac (headerCipher.take 16)}

def updateIngressMACWithFrame (cipher : Bytes) : RLPXFrameCoderImpl :=
  {c with ingressMac := updateMAC c.macEnc (c.ingressMac ++ cipher) []}

/-- `writeFrame(RLPStream const&, bytesConstRef, bytes&)`. -/
def writeHeaderAndPayload (header payload : Bytes) : RLPXFrameCoderImpl × Bytes :=
  let headerWithMac := header.take 32 ++ List.replicate (32 - header.length) 0
  let headerCipher := c.frameEnc.ProcessData (headerWithMac.take 16)
  let c := updateEgressMACWithHeader {c with frameEnc := headerCipher.1} headerCipher.2
  let headerMac := c.egressDigest
  let payloadCipher := c.frameEnc.ProcessData payload
  let paddingCipher :=
    payloadCipher.1.ProcessData (List.replicate (framePadding payload.length) 0)
  let c := updateEgressMACWithFrame {c with frameEnc := paddingCipher.1}
    (payloadCipher.2 ++ paddingCipher.2)
  (c, headerCipher.2 ++ headerMac ++ payloadCipher.2 ++ paddingCipher.2 ++ c.egressDigest)

def writeFrame (header : FrameHeader) (payload : Bytes) :
    Except RLPException (RLPXFrameCoderImpl × Bytes) := do
  let header ← header.stream payload.length >>= RLPStream.out
  return c.writeHeaderAndPayload header payload

/-- Whether the header is authentic; then it is decrypted in its place. -/
def authAndDecryptHeader (io : Bytes) : Bool × RLPXFrameCoderImpl × Bytes :=
  let c := c.updateIngressMACWithHeader io
  if (io.drop 16).take 16 ≠ c.ingressDigest then (false, c, io)
  else
    let plain := c.frameDec.ProcessData (io.take 16)
    (true, {c with frameDec := plain.1}, plain.2 ++ io.drop 16)

/-- Whether the frame is authentic; then it is decrypted in its place. -/
def authAndDecryptFrame (io : Bytes) : Bool × RLPXFrameCoderImpl × Bytes :=
  let cipherText := io.take (io.length - 16)
  let c := c.updateIngressMACWithFrame cipherText
  if io.drop (io.length - 16) ≠ c.ingressDigest then (false, c, io)
  else
    let plain := c.frameDec.ProcessData cipherText
    (true, {c with frameDec := plain.1}, plain.2 ++ io.drop (io.length - 16))

end RLPXFrameCoderImpl

namespace Direction

def emit (macEnc : H256) (d : Direction) : Chunk → Direction × Bytes
  | .header plain =>
    let mac := updateMAC macEnc d.mac (d.cipher.ProcessData plain).2
    (⟨(d.cipher.ProcessData plain).1, mac⟩, (d.cipher.ProcessData plain).2 ++ digestOf mac)
  | .body plain =>
    let mac := updateMAC macEnc (d.mac ++ (d.cipher.ProcessData plain).2) []
    (⟨(d.cipher.ProcessData plain).1, mac⟩, (d.cipher.ProcessData plain).2 ++ digestOf mac)

end Direction

/-- A chunk is 16 bytes longer than what it encrypts. -/
theorem length_emit (macEnc : H256) (d : Direction) (k : Chunk) :
    (d.emit macEnc k).2.length = k.plain.length + 16 := by
  cases k with
  | header plain =>
    rw [Direction.emit, List.length_append, CTR.length_ProcessData, length_digestOf]
    rfl
  | body plain =>
    rw [Direction.emit, List.length_append, CTR.length_ProcessData, length_digestOf]
    rfl

namespace RLPXFrameCoderImpl
variable {c : RLPXFrameCoderImpl} {plain : Bytes}

/-- A header that was written in the reader's state is authentic, and reading it is writing it. -/
theorem authAndDecryptHeader_emit (hlen : plain.length = 16) :
    ∃ mac, c.authAndDecryptHeader (c.ingress.emit c.macEnc (.header plain)).2 =
      (true, c.withIngress (c.ingress.emit c.macEnc (.header plain)).1, plain ++ mac) := by
  have hcipher : (c.frameDec.ProcessData plain).2.length = 16 :=
    (CTR.length_ProcessData _ _).trans hlen
  refine ⟨digestOf (updateMAC c.macEnc c.ingressMac (c.frameDec.ProcessData plain).2), ?_⟩
  unfold authAndDecryptHeader
  simp only [Direction.emit, ingress, updateIngressMACWithHeader, ingressDigest,
    List.drop_left' hcipher, List.take_left' hcipher]
  rw [List.take_of_length_le (length_digestOf _).le, if_neg (not_not_intro rfl),
    CTR.ProcessData_ProcessData]
  rfl

theorem authAndDecryptFrame_emit (c : RLPXFrameCoderImpl) (plain : Bytes) :
    ∃ mac, c.authAndDecryptFrame (c.ingress.emit c.macEnc (.body plain)).2 =
      (true, c.withIngress (c.ingress.emit c.macEnc (.body plain)).1, plain ++ mac) := by
  refine ⟨digestOf (updateMAC c.macEnc (c.ingressMac ++ (c.frameDec.ProcessData plain).2) []), ?_⟩
  have hcipher : ∀ mac, ((c.frameDec.ProcessData plain).2 ++ digestOf mac).length - 16 =
      (c.frameDec.ProcessData plain).2.length := fun mac => by
    rw [List.length_append, length_digestOf, Nat.add_sub_cancel]
  unfold authAndDecryptFrame
  simp only [Direction.emit, ingress, updateIngressMACWithFrame, ingressDigest, hcipher,
    List.drop_left, List.take_left]
  rw [if_neg (not_not_intro rfl), CTR.ProcessData_ProcessData]
  rfl

end RLPXFrameCoderImpl

/-! ### A frame that is written -/

/-- Writing a frame is writing its header and its payload. -/
theorem writeHeaderAndPayload_eq (c : RLPXFrameCoderImpl) {header : Bytes} (payload : Bytes)
    (hlen : header.length ≤ 16) :
    c.writeHeaderAndPayload header payload =
      (c.withEgress ((c.egress.emit c.macEnc (.header (headerPlain header))).1.emit c.macEnc
        (.body (bodyPlain payload))).1,
        (c.egress.emit c.macEnc (.header (headerPlain header))).2 ++
          ((c.egress.emit c.macEnc (.header (headerPlain header))).1.emit c.macEnc
            (.body (bodyPlain payload))).2) := by
  have hplain : (header.take 32 ++ List.replicate (32 - header.length) 0).take 16 =
      headerPlain header := by
    have hhead : header.take 32 = header := List.take_of_length_le (by omega)
    rw [hhead, List.take_append, List.take_of_length_le hlen, List.take_replicate,
      min_eq_left (by omega), headerPlain]
  have hcipher : (c.frameEnc.ProcessData (headerPlain header)).2.take 16 =
      (c.frameEnc.ProcessData (headerPlain header)).2 := by
    refine List.take_of_length_le ?_
    rw [CTR.length_ProcessData, headerPlain, List.length_append, List.length_replicate]
    omega
  unfold RLPXFrameCoderImpl.writeHeaderAndPayload
  simp only [hplain, RLPXFrameCoderImpl.updateEgressMACWithHeader, hcipher,
    RLPXFrameCoderImpl.updateEgressMACWithFrame, RLPXFrameCoderImpl.egressDigest, Direction.emit,
    RLPXFrameCoderImpl.egress, bodyPlain, CTR.ProcessData_append, List.append_assoc,
    RLPXFrameCoderImpl.withEgress]

/-- A frame is the chunks of its header and of its payload. -/
def Direction.emitFrame (macEnc : H256) (d : Direction) (header : FrameHeader) (payload : Bytes) :
    Direction × Bytes :=
  let first := d.emit macEnc (.header (headerPlain (header.bytes payload.length)))
  let second := first.1.emit macEnc (.body (bodyPlain payload))
  (second.1, first.2 ++ second.2)

theorem writeFrame_eq (c : RLPXFrameCoderImpl) (header : FrameHeader) {payload : Bytes}
    (hlen : payload.length < 2 ^ 24) :
    c.writeFrame header payload = .ok
      (c.withEgress (c.egress.emitFrame c.macEnc header payload).1,
        (c.egress.emitFrame c.macEnc header payload).2) := by
  unfold RLPXFrameCoderImpl.writeFrame
  rw [header.stream_eq, Nat.mod_eq_of_lt (hlen.trans (by norm_num)), ok_bind,
    writeHeaderAndPayload_eq c payload (header.length_bytes_le _)]
  rfl

/-! ### Frames one after another -/

namespace RLPXFrameCoderImpl

def writeFrames (c : RLPXFrameCoderImpl) :
    List (FrameHeader × Bytes) → Except RLPException (RLPXFrameCoderImpl × Bytes)
  | [] => .ok (c, [])
  | frame :: frames => do
    let first ← c.writeFrame frame.1 frame.2
    let others ← writeFrames first.1 frames
    return (others.1, first.2 ++ others.2)

/-- A frame is read as in `doRead`: what it says and its payload, and the bytes behind it. -/
def readFrame (c : RLPXFrameCoderImpl) (wire : Bytes) :
    Option ((RLPXFrameInfo × Bytes) × RLPXFrameCoderImpl × Bytes) :=
  let header := c.authAndDecryptHeader (wire.take 32)
  if header.1 then
    match RLPXFrameInfo.construct header.2.2 with
    | .ok info =>
      let tlen := info.length + info.padding + 16
      let frame := header.2.1.authAndDecryptFrame ((wire.drop 32).take tlen)
      if frame.1 then
        some ((info, frame.2.2.take info.length), frame.2.1, (wire.drop 32).drop tlen)
      else none
    | .error _ => none
  else none

def readFrames : ℕ → RLPXFrameCoderImpl → Bytes →
    Option (List (RLPXFrameInfo × Bytes) × RLPXFrameCoderImpl × Bytes)
  | 0, c, wire => some ([], c, wire)
  | n + 1, c, wire => do
    let first ← c.readFrame wire
    let others ← readFrames n first.2.1 first.2.2
    return (first.1 :: others.1, others.2)

end RLPXFrameCoderImpl

theorem length_emit_header (macEnc : H256) (d : Direction) (header : FrameHeader) (length : ℕ) :
    (d.emit macEnc (.header (headerPlain (header.bytes length)))).2.length = 32 := by
  rw [length_emit, Chunk.plain, length_headerPlain (header.length_bytes_le length)]

theorem length_emit_body (macEnc : H256) (d : Direction) (payload : Bytes) :
    (d.emit macEnc (.body (bodyPlain payload))).2.length =
      payload.length + framePadding payload.length + 16 := by
  rw [length_emit, Chunk.plain, length_bodyPlain]

/-- A frame that was written in the reader's state is read, whatever its kind. -/
theorem readFrame_emitFrame (c : RLPXFrameCoderImpl) (header : FrameHeader) {payload : Bytes}
    (hlen : payload.length < 2 ^ 24) (rest : Bytes) :
    c.readFrame ((c.ingress.emitFrame c.macEnc header payload).2 ++ rest) =
      some ((header.info payload.length, payload),
        c.withIngress (c.ingress.emitFrame c.macEnc header payload).1, rest) := by
  generalize hfirst :
    c.ingress.emit c.macEnc (.header (headerPlain (header.bytes payload.length))) = first
  have hsize : first.2.length = 32 := hfirst ▸ length_emit_header _ _ _ _
  have hwire : (c.ingress.emitFrame c.macEnc header payload).2 ++ rest =
      first.2 ++ ((first.1.emit c.macEnc (.body (bodyPlain payload))).2 ++ rest) := by
    rw [Direction.emitFrame, hfirst, List.append_assoc]
  obtain ⟨mac, hheader⟩ := @RLPXFrameCoderImpl.authAndDecryptHeader_emit _ _ c _
    (length_headerPlain (header.length_bytes_le payload.length))
  rw [hfirst] at hheader
  have hinfo : RLPXFrameInfo.construct (headerPlain (header.bytes payload.length) ++ mac) =
      .ok (header.info payload.length) := by
    rw [headerPlain, List.append_assoc, header.construct_bytes hlen]
  obtain ⟨mac', hbody⟩ := (c.withIngress first.1).authAndDecryptFrame_emit (bodyPlain payload)
  rw [RLPXFrameCoderImpl.ingress_withIngress, RLPXFrameCoderImpl.macEnc_withIngress] at hbody
  have hframe := length_emit_body c.macEnc first.1 payload
  unfold RLPXFrameCoderImpl.readFrame
  rw [hwire, List.take_left' hsize, List.drop_left' hsize, hheader]
  simp only [if_true, hinfo, FrameHeader.info, List.take_left' hframe, List.drop_left' hframe,
    hbody, take_bodyPlain]
  rw [Direction.emitFrame, hfirst]
  rfl

/-- Frames of all kinds are read one after another as they were written. -/
theorem frames_read_back {w r : RLPXFrameCoderImpl} (hstep : InStep w r)
    {frames : List (FrameHeader × Bytes)} (hshort : ∀ frame ∈ frames, frame.2.length < 2 ^ 24)
    (rest : Bytes) :
    ∃ w' r' wire, w.writeFrames frames = .ok (w', wire) ∧
      RLPXFrameCoderImpl.readFrames frames.length r (wire ++ rest) =
        some (frames.map fun frame => (frame.1.info frame.2.length, frame.2), r', rest) ∧
      InStep w' r' := by
  induction frames generalizing w r with
  | nil => exact ⟨w, r, [], rfl, rfl, hstep⟩
  | cons frame frames ih =>
    have hlen := hshort frame List.mem_cons_self
    have hwrite := writeFrame_eq w frame.1 hlen
    rw [hstep.macEnc, hstep.there] at hwrite
    generalize hout : r.ingress.emitFrame r.macEnc frame.1 frame.2 = out at hwrite
    have hstep' : InStep (w.withEgress out.1) (r.withIngress out.1) :=
      ⟨hstep.macEnc, rfl, hstep.back⟩
    obtain ⟨w', r', wire, hw, hr, hnext⟩ :=
      ih hstep' fun f hf => hshort f (List.mem_cons_of_mem frame hf)
    refine ⟨w', r', out.2 ++ wire, ?_, ?_, hnext⟩
    · rw [RLPXFrameCoderImpl.writeFrames, hwrite, ok_bind, hw]
      rfl
    · have hread := readFrame_emitFrame r frame.1 hlen (wire ++ rest)
      rw [hout] at hread
      rw [List.append_assoc, List.length_cons, RLPXFrameCoderImpl.readFrames, hread]
      show (RLPXFrameCoderImpl.readFrames _ (r.withIngress out.1) (wire ++ rest) >>= _) = _
      rw [hr]
      rfl

end Frames

/-! ### Two frames -/

/-- A hash and ciphers to run the code with. -/
@[reducible] def lastByteHash : Sha3 where
  sha3 b := ⟨List.replicate 32 (b.getLastD 0), List.length_replicate⟩

@[reducible] def countingCiphers : FrameCiphers where
  keystream _ position := UInt8.ofNat position
  encryptBlock _ block := block.reverse

attribute [local instance] lastByteHash countingCiphers

def sampleCoder (originated : Bool) : RLPXFrameCoderImpl :=
  (RLPXFrameCoder.derive originated H256.zero H256.zero [1] [2] H256.zero).impl

theorem inStep_sampleCoder : InStep (sampleCoder true) (sampleCoder false) :=
  (RLPXFrameCoder.derive_matching H256.zero H256.zero [1] [2] H256.zero).impl

/-- The first of several frames, and one that continues it. -/
theorem frames_read_back_segmented :
    ∃ w' r' wire, (sampleCoder true).writeFrames
        [(.first 0 1 3, [0x10, 0xc1]), (.continuation 0 1, [0x80])] = .ok (w', wire) ∧
      RLPXFrameCoderImpl.readFrames 2 (sampleCoder false) (wire ++ [7]) =
        some ([(FrameHeader.info 2 (.first 0 1 3), [0x10, 0xc1]),
          (FrameHeader.info 1 (.continuation 0 1), [0x80])], r', [7]) ∧
      InStep w' r' :=
  frames_read_back inStep_sampleCoder (by decide) [7]

end Aleth.P2p
