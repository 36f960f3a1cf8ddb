import Aleth.Libp2p.RLPXFrames
import Aleth.Structure.Runs

/-! Packets between two sessions (`Session::send`, `write`, `doRead`).

Each side writes its packets one after another and reads a header, then the frame
behind it. Any order of calls and callbacks on both sides keeps `Flow`: what a
side has read, what is on its way and what the other side has still to write are
together what the other side was given to send. -/
namespace Aleth.P2p
open Devcore Channel

/-- What `async_read` waits for: a header, or the frame behind it. -/
inductive Awaited where
  | header
  | frame (hProtocolId hLength tlen : ℕ)
deriving DecidableEq

def Awaited.size : Awaited → ℕ
  | .header => 32
  | .frame _ _ tlen => tlen

/-- Why a session reads no more. -/
inductive Dropped where
  /-- `drop(BadProtocol)`: a header or a frame is not authentic, or a header is malformed. -/
  | badFrame
  /-- `checkPacket` or `readPacket` ended the session. -/
  | byPacket
  /-- An error of the socket. -/
  | socket
deriving DecidableEq

/-- What a `Session` holds for its frames. -/
structure Framing where
  m_io : RLPXFrameCoderImpl
  /-- The front is on its way to the socket. -/
  m_writeQueue : List Bytes := []
  awaited : Awaited := .header
  m_dropped : Option Dropped := none
  /-- What `send` has put into the queue. -/
  sent : List Bytes := []
  /-- The frames that `checkPacket` was called with. -/
  packets : List Bytes := []

/-! ### What is on its way -/

/-- A header and its frame. -/
def chunksOf (msg : Bytes) : List Chunk :=
  [.header (headerPlain (FrameHeader.singleFramePacket.bytes msg.length)), .body (bodyPlain msg)]

/-- The chunks of the packets that are still to be read. -/
inductive Due : Awaited → List Bytes → List Chunk → Prop
  | header (pending : List Bytes) : Due .header pending (pending.flatMap chunksOf)
  | frame (msg : Bytes) (pending : List Bytes) :
    Due (.frame 0 msg.length (msg.length + framePadding msg.length + 16)) (msg :: pending)
      (.body (bodyPlain msg) :: pending.flatMap chunksOf)

/-- The length of a packet fits in the three bytes of a header. -/
def Short (msg : Bytes) : Prop := msg.length < 2 ^ 24

theorem Due.snoc {a : Awaited} {pending : List Bytes} {chunks : List Chunk}
    (h : Due a pending chunks) (msg : Bytes) :
    Due a (pending ++ [msg]) (chunks ++ chunksOf msg) := by
  cases h with
  | header =>
    have hmap := @List.flatMap_append _ _ pending [msg] chunksOf
    rw [List.flatMap_singleton] at hmap
    exact hmap ▸ .header _
  | frame m pending =>
    have hmap := @List.flatMap_append _ _ pending [msg] chunksOf
    rw [List.flatMap_singleton] at hmap
    rw [List.cons_append, List.cons_append, ← hmap]
    exact .frame m _

/-- The header of a packet is read as what the frame behind it needs. -/
theorem readHeader_headerPlain {msg : Bytes} (hshort : Short msg) (mac : Bytes) :
    Session.readHeader (headerPlain (FrameHeader.singleFramePacket.bytes msg.length) ++ mac) =
      .expects 0 msg.length (msg.length + framePadding msg.length + 16) := by
  unfold Session.readHeader headerPlain
  rw [List.append_assoc, FrameHeader.construct_bytes _ hshort]
  rfl

/-! ### The loops -/

section Loops
variable [Sha3] [FrameCiphers]

namespace Framing
variable (s : Framing)

/-- The session, and what it writes to the socket. -/
def write : Framing × Bytes :=
  match s.m_writeQueue with
  | [] => (s, [])
  | msg :: _ =>
    match s.m_io.writeFrame .singleFramePacket msg with
    | .ok (m_io, out) => ({s with m_io}, out)
    | .error _ => (s, [])

def send (msg : Bytes) : Framing × Bytes :=
  if s.m_dropped.isSome then (s, [])
  else
    let s := {s with m_writeQueue := s.m_writeQueue ++ [msg], sent := s.sent ++ [msg]}
    if s.m_writeQueue.length = 1 then s.write else (s, [])

/-- The handler of `async_write`. -/
def onWritten : Framing × Bytes :=
  if s.m_dropped.isSome then (s, [])
  else write {s with m_writeQueue := s.m_writeQueue.tail}

/-- The handlers of `async_read`; whether the session goes on behind a packet is for `checkPacket`
and `readPacket` to say. -/
def onRead (goesOn : ℕ → Bytes → Bool) (m_data : Bytes) : Framing :=
  match s.awaited with
  | .header =>
    let read := s.m_io.authAndDecryptHeader m_data
    if read.1 then
      match Session.readHeader read.2.2 with
      | .expects hProtocolId hLength tlen =>
        {s with m_io := read.2.1, awaited := .frame hProtocolId hLength tlen}
      | _ => {s with m_io := read.2.1, m_dropped := some .badFrame}
    else {s with m_io := read.2.1, m_dropped := some .badFrame}
  | .frame hProtocolId hLength _ =>
    let read := s.m_io.authAndDecryptFrame m_data
    let packet := read.2.2.take hLength
    if read.1 then
      {s with
        m_io := read.2.1
        awaited := .header
        packets := s.packets ++ [packet]
        m_dropped := if goesOn hProtocolId packet then none else some .byPacket}
    else {s with m_io := read.2.1, m_dropped := some .badFrame}

end Framing

inductive FrameEvent where
  | send (msg : Bytes)
  | written
  | read
  | fail
deriving DecidableEq

/-- Two sessions, and what is on its way to each of them. -/
structure Connection where
  side : Bool → Framing
  wire : Bool → Bytes

namespace Connection
variable (c : Connection)

def opened (m_io : Bool → RLPXFrameCoderImpl) : Connection where
  side b := {m_io := m_io b}
  wire _ := []

/-- What a side writes is on its way to the other one. -/
def wrote (b : Bool) (written : Framing × Bytes) : Connection where
  side := Function.update c.side b written.1
  wire := Function.update c.wire (!b) (c.wire (!b) ++ written.2)

/-- The session reads on, and all that it waits for is there. -/
def CanRead (b : Bool) : Prop :=
  (c.side b).m_dropped = none ∧ (c.side b).awaited.size ≤ (c.wire b).length

instance (b : Bool) : Decidable (c.CanRead b) := inferInstanceAs (Decidable (_ ∧ _))

def step (goesOn : Bool → ℕ → Bytes → Bool) (c : Connection) : Bool × FrameEvent → Connection
  | (b, .send msg) => c.wrote b ((c.side b).send msg)
  | (b, .written) => c.wrote b (c.side b).onWritten
  | (b, .read) =>
    if c.CanRead b then
      { side := Function.update c.side b
          ((c.side b).onRead (goesOn b) ((c.wire b).take (c.side b).awaited.size))
        wire := Function.update c.wire b ((c.wire b).drop (c.side b).awaited.size) }
    else c
  | (b, .fail) =>
    if (c.side b).m_dropped = none then
      {c with side := Function.update c.side b {c.side b with m_dropped := some .socket}}
    else c

end Connection

/-! ### What holds of a direction -/

/-- The reader is behind the writer by what is on the wire. `waiting` is still to be written. -/
def Live (w r : Framing) (wire : Bytes) (waiting : List Bytes) : Prop :=
  ∃ pending chunks, Due r.awaited pending chunks ∧ (∀ msg ∈ pending, Short msg) ∧
    Ahead (Direction.emit r.m_io.macEnc) r.m_io.ingress w.m_io.egress chunks wire ∧
    r.packets ++ pending ++ waiting = w.sent

/-- What holds of a direction: everything that is read was sent, in this order. -/
structure Flow (w r : Framing) (wire : Bytes) : Prop where
  macEnc : w.m_io.macEnc = r.m_io.macEnc
  inOrder : r.packets <+: w.sent
  authentic : r.m_dropped ≠ some .badFrame
  short : ∀ msg ∈ w.m_writeQueue, Short msg
  live : r.m_dropped = none → Live w r wire w.m_writeQueue.tail

/-! ### Writing -/

def Framing.withEgress (s : Framing) (d : Direction) : Framing :=
  {s with m_io := s.m_io.withEgress d}

theorem write_nil {s : Framing} (h : s.m_writeQueue = []) : s.write = (s, []) := by
  unfold Framing.write
  rw [h]

theorem write_cons {s : Framing} {msg : Bytes} {q : List Bytes} (h : s.m_writeQueue = msg :: q)
    (hshort : Short msg) :
    s.write =
      (s.withEgress (s.m_io.egress.emitFrame s.m_io.macEnc .singleFramePacket msg).1,
        (s.m_io.egress.emitFrame s.m_io.macEnc .singleFramePacket msg).2) := by
  unfold Framing.write
  rw [h]
  simp only [writeFrame_eq s.m_io .singleFramePacket hshort]
  rw [Framing.withEgress, h]

/-- A packet that is written is ahead of the reader as its two chunks. -/
theorem ahead_frame {macEnc : H256} {e d : Direction} {chunks : List Chunk} {wire : Bytes}
    (ha : Ahead (Direction.emit macEnc) e d chunks wire) (msg : Bytes) :
    Ahead (Direction.emit macEnc) e (d.emitFrame macEnc .singleFramePacket msg).1
      (chunks ++ chunksOf msg) (wire ++ (d.emitFrame macEnc .singleFramePacket msg).2) := by
  have htwo := (ha.snoc (.header (headerPlain
    (FrameHeader.singleFramePacket.bytes msg.length)))).snoc (.body (bodyPlain msg))
  rw [List.append_assoc, List.append_assoc] at htwo
  exact htwo

/-- What is written leaves the reader of the other direction alone. -/
structure KeepsReader (s t : Framing) : Prop where
  macEnc : t.m_io.macEnc = s.m_io.macEnc
  ingress : t.m_io.ingress = s.m_io.ingress
  awaited : t.awaited = s.awaited
  dropped : t.m_dropped = s.m_dropped
  packets : t.packets = s.packets

theorem keepsReader_write (s : Framing) (hshort : ∀ msg ∈ s.m_writeQueue, Short msg) :
    KeepsReader s s.write.1 ∧ s.write.1.m_writeQueue = s.m_writeQueue ∧
      s.write.1.sent = s.sent := by
  cases h : s.m_writeQueue with
  | nil =>
    rw [write_nil h]
    exact ⟨⟨rfl, rfl, rfl, rfl, rfl⟩, h, rfl⟩
  | cons msg q =>
    rw [write_cons h (hshort msg (h ▸ List.mem_cons_self))]
    exact ⟨⟨rfl, rfl, rfl, rfl, rfl⟩, h, rfl⟩

theorem Live.write {w r : Framing} {wire : Bytes} (hmac : w.m_io.macEnc = r.m_io.macEnc)
    (hshort : ∀ msg ∈ w.m_writeQueue, Short msg) (h : Live w r wire w.m_writeQueue) :
    Live w.write.1 r (wire ++ w.write.2) w.m_writeQueue.tail := by
  obtain ⟨pending, chunks, hdue, hfit, ha, hsent⟩ := h
  cases hq : w.m_writeQueue with
  | nil =>
    rw [hq] at hsent
    rw [write_nil hq, List.append_nil]
    exact ⟨pending, chunks, hdue, hfit, ha, hsent⟩
  | cons msg q =>
    have hm : Short msg := hshort msg (hq ▸ List.mem_cons_self)
    rw [write_cons hq hm]
    refine ⟨pending ++ [msg], _, hdue.snoc msg, ?_, hmac.symm ▸ ahead_frame ha msg, ?_⟩
    · rintro m hmem
      rcases List.mem_append.mp hmem with hold | hnew
      · exact hfit m hold
      · exact List.mem_singleton.mp hnew ▸ hm
    · rw [hq] at hsent
      show r.packets ++ (pending ++ [msg]) ++ q = w.sent
      rw [← hsent, List.append_assoc, List.append_assoc, List.append_assoc]
      rfl

/-! ### Reading -/

/-- The header of a packet is read, and the frame behind it is awaited. -/
theorem onRead_header {r : Framing} {msg : Bytes} (goesOn : ℕ → Bytes → Bool)
    (hwait : r.awaited = .header) (hshort : Short msg) :
    r.onRead goesOn (r.m_io.ingress.emit r.m_io.macEnc
      (.header (headerPlain (FrameHeader.singleFramePacket.bytes msg.length)))).2 =
    {r with
      m_io := r.m_io.withIngress (r.m_io.ingress.emit r.m_io.macEnc
        (.header (headerPlain (FrameHeader.singleFramePacket.bytes msg.length)))).1
      awaited := .frame 0 msg.length (msg.length + framePadding msg.length + 16)} := by
  obtain ⟨mac, hread⟩ := @RLPXFrameCoderImpl.authAndDecryptHeader_emit _ _ r.m_io _
    (length_headerPlain (FrameHeader.length_bytes_le .singleFramePacket msg.length))
  unfold Framing.onRead
  rw [hwait]
  simp only [hread, if_true, readHeader_headerPlain hshort]

/-- A frame is read as its packet. -/
theorem onRead_frame {r : Framing} {msg : Bytes} {p t : ℕ} (goesOn : ℕ → Bytes → Bool)
    (hwait : r.awaited = .frame p msg.length t) :
    r.onRead goesOn (r.m_io.ingress.emit r.m_io.macEnc (.body (bodyPlain msg))).2 =
    {r with
      m_io := r.m_io.withIngress (r.m_io.ingress.emit r.m_io.macEnc (.body (bodyPlain msg))).1
      awaited := .header
      packets := r.packets ++ [msg]
      m_dropped := if goesOn p msg then none else some .byPacket} := by
  obtain ⟨mac, hread⟩ := r.m_io.authAndDecryptFrame_emit (bodyPlain msg)
  unfold Framing.onRead
  rw [hwait]
  simp only [hread, if_true, take_bodyPlain]

/-- What is read leaves the writer of the other direction alone. -/
structure KeepsWriter (s t : Framing) : Prop where
  macEnc : t.m_io.macEnc = s.m_io.macEnc
  egress : t.m_io.egress = s.m_io.egress
  queue : t.m_writeQueue = s.m_writeQueue
  sent : t.sent = s.sent

theorem Flow.congr_writer {w w' r : Framing} {wire : Bytes} (h : KeepsWriter w w')
    (hf : Flow w r wire) : Flow w' r wire where
  macEnc := h.macEnc.trans hf.macEnc
  inOrder := h.sent.symm ▸ hf.inOrder
  authentic := hf.authentic
  short := h.queue.symm ▸ hf.short
  live hnone := by
    obtain ⟨pending, chunks, hdue, hfit, ha, hsent⟩ := hf.live hnone
    exact ⟨pending, chunks, hdue, hfit, h.egress.symm ▸ ha, by rw [h.queue, h.sent, hsent]⟩

theorem Flow.congr_reader {w r r' : Framing} {wire : Bytes} (h : KeepsReader r r')
    (hf : Flow w r wire) : Flow w r' wire where
  macEnc := hf.macEnc.trans h.macEnc.symm
  inOrder := h.packets.symm ▸ hf.inOrder
  authentic := h.dropped.symm ▸ hf.authentic
  short := hf.short
  live hnone := by
    obtain ⟨pending, chunks, hdue, hfit, ha, hsent⟩ := hf.live (h.dropped ▸ hnone)
    refine ⟨pending, chunks, h.awaited.symm ▸ hdue, hfit, ?_, h.packets.symm ▸ hsent⟩
    rw [h.macEnc, h.ingress]
    exact ha

/-- A side reads the next chunk when all that it waits for is there. -/
theorem Flow.read {w r : Framing} {wire : Bytes} (hf : Flow w r wire) (goesOn : ℕ → Bytes → Bool)
    (hnone : r.m_dropped = none) (hsize : r.awaited.size ≤ wire.length) :
    Flow w (r.onRead goesOn (wire.take r.awaited.size)) (wire.drop r.awaited.size) ∧
      KeepsWriter r (r.onRead goesOn (wire.take r.awaited.size)) := by
  obtain ⟨pending, chunks, hdue, hfit, ha, hsent⟩ := hf.live hnone
  generalize hwait : r.awaited = a at hdue hsize
  cases hdue with
  | header =>
    cases pending with
    | nil =>
      have hwire : wire = [] := ha.eq_nil
      rw [hwire] at hsize
      exact absurd hsize (by decide)
    | cons msg pending =>
      obtain ⟨rest, hwire, ha⟩ := ha.head
      have hlen := length_emit_header r.m_io.macEnc r.m_io.ingress .singleFramePacket msg.length
      rw [hwire, Awaited.size, List.take_left' hlen, List.drop_left' hlen,
        onRead_header goesOn hwait (hfit msg List.mem_cons_self)]
      exact ⟨⟨hf.macEnc, hf.inOrder, hf.authentic, hf.short,
        fun _ => ⟨msg :: pending, _, .frame msg pending, hfit, ha, hsent⟩⟩, rfl, rfl, rfl, rfl⟩
  | frame msg pending =>
    obtain ⟨rest, hwire, ha⟩ := ha.head
    have hlen := length_emit_body r.m_io.macEnc r.m_io.ingress msg
    have hnext : (r.packets ++ [msg]) ++ pending ++ w.m_writeQueue.tail = w.sent := by
      rw [← hsent, List.append_assoc r.packets, List.singleton_append]
    rw [hwire, Awaited.size, List.take_left' hlen, List.drop_left' hlen, onRead_frame goesOn hwait]
    refine ⟨⟨hf.macEnc, ⟨pending ++ w.m_writeQueue.tail, ?_⟩, ?_, hf.short,
      fun _ => ⟨pending, _, .header pending, fun m hm => hfit m (List.mem_cons_of_mem msg hm), ha,
        hnext⟩⟩, rfl, rfl, rfl, rfl⟩
    · rw [← hnext, List.append_assoc _ pending]
    · dsimp only
      split
      · exact fun h => by cases h
      · exact fun h => by cases h

/-- A side that waits for more than there is has read all that was written. -/
theorem Live.caught_up {w r : Framing} {wire : Bytes} {rest : List Bytes}
    (h : Live w r wire rest) (hsize : ¬r.awaited.size ≤ wire.length) :
    r.packets ++ rest = w.sent := by
  obtain ⟨pending, chunks, hdue, -, ha, hsent⟩ := h
  generalize r.awaited = a at hdue hsize
  cases hdue with
  | header =>
    cases pending with
    | nil => rwa [List.append_nil] at hsent
    | cons msg pending =>
      obtain ⟨rest, hwire, -⟩ := ha.head
      refine absurd ?_ hsize
      rw [hwire, List.length_append, length_emit_header]
      exact Nat.le_add_right _ _
  | frame msg pending =>
    obtain ⟨rest, hwire, -⟩ := ha.head
    refine absurd ?_ hsize
    rw [hwire, List.length_append, length_emit_body]
    exact Nat.le_add_right _ _

/-! ### The writer's steps -/

/-- The front of the queue is written. -/
theorem flow_write {s r : Framing} {wire : Bytes} (hmac : s.m_io.macEnc = r.m_io.macEnc)
    (hin : r.packets <+: s.sent) (hauth : r.m_dropped ≠ some .badFrame)
    (hshort : ∀ msg ∈ s.m_writeQueue, Short msg)
    (hlive : r.m_dropped = none → Live s r wire s.m_writeQueue) :
    Flow s.write.1 r (wire ++ s.write.2) := by
  obtain ⟨hw, hqueue, hsent⟩ := keepsReader_write s hshort
  refine ⟨hw.macEnc.trans hmac, hsent.symm ▸ hin, hauth, hqueue.symm ▸ hshort, fun hnone => ?_⟩
  rw [hqueue]
  exact (hlive hnone).write hmac hshort

/-- Another packet is to be sent. -/
def Framing.queued (w : Framing) (msg : Bytes) : Framing :=
  {w with m_writeQueue := w.m_writeQueue ++ [msg], sent := w.sent ++ [msg]}

theorem Live.queued {w r : Framing} {wire : Bytes} {waiting : List Bytes}
    (h : Live w r wire waiting) (msg : Bytes) : Live (w.queued msg) r wire (waiting ++ [msg]) := by
  obtain ⟨pending, chunks, hdue, hfit, ha, hsent⟩ := h
  refine ⟨pending, chunks, hdue, hfit, ha, ?_⟩
  rw [← List.append_assoc, hsent]
  rfl

theorem Flow.send {w r : Framing} {wire msg : Bytes} (hf : Flow w r wire) (hm : Short msg) :
    Flow (w.send msg).1 r (wire ++ (w.send msg).2) ∧ KeepsReader w (w.send msg).1 := by
  have hin : r.packets <+: (w.queued msg).sent := hf.inOrder.trans (List.prefix_append _ _)
  have hshort : ∀ m ∈ (w.queued msg).m_writeQueue, Short m := by
    rintro m hmem
    rcases List.mem_append.mp hmem with hold | hnew
    · exact hf.short m hold
    · exact List.mem_singleton.mp hnew ▸ hm
  have hsend : w.send msg = if w.m_dropped.isSome then (w, [])
    else if (w.queued msg).m_writeQueue.length = 1 then (w.queued msg).write
      else (w.queued msg, []) := rfl
  rw [hsend]
  split
  · rw [List.append_nil]
    exact ⟨hf, rfl, rfl, rfl, rfl, rfl⟩
  split
  case isTrue hone =>
    -- nothing was being written, and the packet is the front
    have hempty : w.m_writeQueue = [] := by
      refine List.length_eq_zero_iff.mp ?_
      rw [Framing.queued, List.length_append, List.length_singleton] at hone
      omega
    refine ⟨flow_write hf.macEnc hin hf.authentic hshort fun hnone => ?_, ?_⟩
    · have hlive := (hf.live hnone).queued msg
      rw [hempty] at hlive
      rw [Framing.queued, hempty]
      exact hlive
    · obtain ⟨hmac, hingress, hawaited, hdropped, hpackets⟩ := (keepsReader_write _ hshort).1
      exact ⟨hmac, hingress, hawaited, hdropped, hpackets⟩
  case isFalse hmore =>
    have hne : w.m_writeQueue ≠ [] := by
      intro hempty
      exact hmore (by rw [Framing.queued, hempty]; rfl)
    rw [List.append_nil]
    refine ⟨⟨hf.macEnc, hin, hf.authentic, hshort, fun hnone => ?_⟩, rfl, rfl, rfl, rfl, rfl⟩
    have htail : (w.queued msg).m_writeQueue.tail = w.m_writeQueue.tail ++ [msg] :=
      List.tail_append_of_ne_nil hne
    rw [htail]
    exact (hf.live hnone).queued msg

theorem Flow.onWritten {w r : Framing} {wire : Bytes} (hf : Flow w r wire) :
    Flow w.onWritten.1 r (wire ++ w.onWritten.2) ∧ KeepsReader w w.onWritten.1 := by
  unfold Framing.onWritten
  split
  · rw [List.append_nil]
    exact ⟨hf, rfl, rfl, rfl, rfl, rfl⟩
  · have hshort : ∀ m ∈ w.m_writeQueue.tail, Short m := fun m hmem =>
      hf.short m (List.mem_of_mem_tail hmem)
    obtain ⟨hmac, hingress, hawaited, hdropped, hpackets⟩ :=
      (keepsReader_write {w with m_writeQueue := w.m_writeQueue.tail} hshort).1
    exact ⟨flow_write hf.macEnc hf.inOrder hf.authentic hshort hf.live,
      hmac, hingress, hawaited, hdropped, hpackets⟩

/-! ### Runs of both sides -/

namespace Connection
variable {c : Connection} {b : Bool}

/-- Both directions. -/
def Flows (c : Connection) : Prop := ∀ b, Flow (c.side !b) (c.side b) (c.wire b)

theorem flow_opened {w r : RLPXFrameCoderImpl} (hmac : w.macEnc = r.macEnc)
    (hstep : w.egress = r.ingress) : Flow {m_io := w} {m_io := r} [] where
  macEnc := hmac
  inOrder := List.nil_prefix
  authentic h := by cases h
  short _ h := by cases h
  live _ := by
    refine ⟨[], [], .header [], (fun _ h => by cases h), ?_, rfl⟩
    show Ahead _ r.ingress w.egress [] []
    rw [hstep]
    exact .nil _

theorem opened_flows {m_io : Bool → RLPXFrameCoderImpl} (h : InStep (m_io true) (m_io false)) :
    (opened m_io).Flows := by
  rintro (_ | _)
  · exact flow_opened h.macEnc h.there
  · exact flow_opened h.macEnc.symm h.back.symm

theorem wrote_flows (hc : c.Flows) {written : Framing × Bytes}
    (hflow : Flow written.1 (c.side !b) (c.wire (!b) ++ written.2))
    (hwrites : KeepsReader (c.side b) written.1) : (c.wrote b written).Flows := by
  intro d
  by_cases hd : d = b
  · subst hd
    have h := (hc d).congr_reader hwrites
    simpa [wrote, Function.update] using h
  · obtain rfl : d = !b := by
      cases b <;> cases d <;> simp_all
    simpa [wrote, Function.update] using hflow

theorem read_flows (hc : c.Flows) {t : Framing} {rest : Bytes}
    (hflow : Flow (c.side !b) t rest) (hreads : KeepsWriter (c.side b) t) :
    Flows ⟨Function.update c.side b t, Function.update c.wire b rest⟩ := by
  intro d
  by_cases hd : d = b
  · subst hd
    simpa [Function.update] using hflow
  · obtain rfl : d = !b := by
      cases b <;> cases d <;> simp_all
    have h := (hc !b).congr_writer ((Bool.not_not b).symm ▸ hreads)
    simpa [Function.update] using h

/-- What one call or callback keeps. -/
theorem step_flows {goesOn : Bool → ℕ → Bytes → Bool} (hc : c.Flows) {e : Bool × FrameEvent}
    (hshort : ∀ msg, e.2 = .send msg → Short msg) : (step goesOn c e).Flows := by
  obtain ⟨b, e⟩ := e
  have hto : Flow (c.side b) (c.side !b) (c.wire !b) := by
    have h := hc !b
    rwa [Bool.not_not] at h
  cases e with
  | send msg =>
    obtain ⟨hflow, hwrites⟩ := hto.send (hshort msg rfl)
    exact wrote_flows hc hflow hwrites
  | written =>
    obtain ⟨hflow, hwrites⟩ := hto.onWritten
    exact wrote_flows hc hflow hwrites
  | read =>
    show Flows (if c.CanRead b then _ else c)
    split
    case isTrue hread =>
      obtain ⟨hflow, hreads⟩ := (hc b).read (goesOn b) hread.1 hread.2
      exact read_flows hc hflow hreads
    case isFalse => exact hc
  | fail =>
    show Flows (if (c.side b).m_dropped = none then _ else c)
    split
    case isTrue hnone =>
      have hflow : Flow (c.side !b) {c.side b with m_dropped := some .socket} (c.wire b) :=
        ⟨(hc b).macEnc, (hc b).inOrder, (fun h => by cases h), (hc b).short, (fun h => by cases h)⟩
      have hflows := read_flows hc hflow ⟨rfl, rfl, rfl, rfl⟩
      rw [Function.update_eq_self] at hflows
      exact hflows
    case isFalse => exact hc

/-- A side has read what the other one sent, in this order, and no frame is refused. It has read
all of it where nothing waits to be written and nothing is left to read. -/
structure Delivers (c : Connection) (b : Bool) : Prop where
  inOrder : (c.side b).packets <+: (c.side !b).sent
  authentic : (c.side b).m_dropped ≠ some .badFrame
  complete : (c.side b).m_dropped = none → (c.side !b).m_writeQueue.length ≤ 1 →
    ¬c.CanRead b → (c.side b).packets = (c.side !b).sent

theorem Flows.delivers (hc : c.Flows) (b : Bool) : c.Delivers b where
  inOrder := (hc b).inOrder
  authentic := (hc b).authentic
  complete hnone hqueue hread := by
    have hall := ((hc b).live hnone).caught_up fun hsize => hread ⟨hnone, hsize⟩
    have htail : (c.side !b).m_writeQueue.tail = [] := by
      refine List.length_eq_zero_iff.mp ?_
      rw [List.length_tail]
      omega
    rwa [htail, List.append_nil] at hall

/-- Any order of calls and callbacks delivers the packets of both sides. -/
theorem packets_delivered (goesOn : Bool → ℕ → Bytes → Bool) {m_io : Bool → RLPXFrameCoderImpl}
    (hstep : InStep (m_io true) (m_io false)) {events : List (Bool × FrameEvent)}
    (hshort : ∀ b msg, (b, .send msg) ∈ events → Short msg) (b : Bool) :
    (events.foldl (step goesOn) (opened m_io)).Delivers b := by
  have halong : Runs.Along (step goesOn) (fun _ e => ∀ msg, e.2 = .send msg → Short msg)
      (opened m_io) events := by
    refine .of_forall fun _ e he msg hmsg => hshort e.1 msg ?_
    rw [← hmsg]
    exact he
  have hflows : (events.foldl (step goesOn) (opened m_io)).Flows :=
    Runs.Along.foldl (P := Flows) (fun hc hs => step_flows hc hs) halong (opened_flows hstep)
  exact hflows.delivers b

end Connection
end Loops

namespace Connection

attribute [local instance] lastByteHash countingCiphers

/-- Two packets are sent at once: the second waits in the queue. -/
def sampleEvents : List (Bool × FrameEvent) :=
  [(true, .send [0x10, 0xc0]), (true, .send [0x11, 0xc0]), (false, .read), (true, .written),
    (false, .read), (false, .send [0x12, 0xc0]), (false, .read), (false, .read)]

theorem packets_delivered_queue :
    (∀ b msg, (b, .send msg) ∈ sampleEvents → Short msg) ∧
    (sampleEvents.foldl (step fun _ _ _ => true) (opened sampleCoder)).Delivers false ∧
    ((sampleEvents.foldl (step fun _ _ _ => true) (opened sampleCoder)).side false).packets =
      [[0x10, 0xc0], [0x11, 0xc0]] := by
  have hshort : ∀ b msg, (b, FrameEvent.send msg) ∈ sampleEvents → Short msg := by
    intro b msg hmem
    simp only [sampleEvents, List.mem_cons, Prod.mk.injEq, FrameEvent.send.injEq, List.not_mem_nil,
      reduceCtorEq, and_false, or_false, false_or] at hmem
    unfold Short
    rcases hmem with ⟨-, rfl⟩ | ⟨-, rfl⟩ | ⟨-, rfl⟩ <;> decide
  have h := packets_delivered (fun _ _ _ => true) inStep_sampleCoder hshort false
  exact ⟨hshort, h, (h.complete (by decide +kernel) (by decide +kernel) (by decide +kernel)).trans
    (by decide +kernel)⟩

end Connection
end Aleth.P2p
