import Aleth.Devcore.RlpFields
import Aleth.Libp2p.Common
import Aleth.Structure.Compaction
import Aleth.Structure.SortedMap

/-! Capabilities of a host and of its sessions (`Host.cpp`, `Session.cpp`, `CapabilityHost.cpp`).

A session is started with the capabilities that are left of the other side's
list. Each gets the packet ids behind those of the one before it; ids are
`unsigned`, and the wire carries one byte of them. -/
namespace Aleth.P2p
open Devcore

/-- What a session needs to know of a `CapabilityFace`. -/
structure Capability where
  messageCount : ℕ
  isUnsigned : messageCount < 2 ^ 32
deriving DecidableEq

structure Host where
  m_capabilities : SortedMap CapDesc Capability
  pin : Bool
  m_requiredPeers : List NodeID
  /-- The nodes in `m_sessions` whose session is alive and connected. -/
  m_sessions : List NodeID
  m_pendingPeerConns : ℕ
  m_idealPeerCount : ℕ
  m_stretchPeers : ℕ

/-- What `startPeerSession` reads of the other side's Hello packet. -/
structure Hello where
  protocolVersion : ℕ
  caps : List CapDesc
  pub : NodeID

structure Session where
  m_capabilities : SortedMap CapDesc Capability
  m_capabilityOffsets : SortedMap Bytes ℕ
  m_disabledCapabilities : List Bytes

namespace Session

def empty : Session := ⟨.empty, .empty, []⟩

def registerCapability (s : Session) (desc : CapDesc) (offset : ℕ) (p : Capability) : Session :=
  {s with
    m_capabilities := s.m_capabilities.insert desc p
    m_capabilityOffsets := s.m_capabilityOffsets.insert desc.name offset}

def capabilityOffset (s : Session) (name : Bytes) : Option ℕ := s.m_capabilityOffsets.find name

def canHandle (s : Session) (capability : Bytes) (messageCount packetType : ℕ) : Bool :=
  (s.capabilityOffset capability).any fun offset =>
    offset ≤ packetType && packetType < (messageCount + offset) % 2 ^ 32

def capabilityEnabled (s : Session) (capability : Bytes) : Bool :=
  !s.m_disabledCapabilities.contains capability

/-- Where a packet goes. -/
inductive Dispatch where
  /-- The session is disconnected for a bad packet. -/
  | badProtocol
  /-- `interpretP2pPacket`. -/
  | p2p (packetType : ℕ)
  /-- For a capability that is disabled: nothing is done. -/
  | ignored
  /-- `interpretCapabilityPacket` of the capability, with its own message id. -/
  | interpreted (desc : CapDesc) (id : ℕ)
  | notInterpreted
deriving DecidableEq

/-- The loop of `readPacket` over the capabilities. -/
def readPacketLoop (s : Session) (packetType : ℕ) : List (CapDesc × Capability) → Dispatch
  | [] => .notInterpreted
  | (desc, capability) :: rest =>
    if s.canHandle desc.name capability.messageCount packetType then
      if !s.capabilityEnabled desc.name then .ignored
      else .interpreted desc (packetType - (s.capabilityOffset desc.name).getD 0)
    else s.readPacketLoop packetType rest

def readPacket (s : Session) (capId packetType : ℕ) : Dispatch :=
  if capId = 0 ∧ packetType < UserPacket then .p2p packetType
  else s.readPacketLoop packetType s.m_capabilities.entries

/-- `Session::checkPacket`. -/
def checkPacket (msg : Bytes) : Except RLPException Bool :=
  if msg.head?.any (fun b => 0x7f < b.toNat) ∨ msg.length < 2 then .ok false
  else do
    let r ← RLPView.construct ((BytesConstRef.ofBytes msg).croppedFrom 1) VeryStrict
    return (← RLPView.actualSize r.content) + 1 = msg.length

/-- What `doRead` does with a frame whose header has been read. -/
def doRead (s : Session) (hProtocolId : ℕ) (frame : Bytes) : Except RLPException Dispatch := do
  if !(← checkPacket frame) then return .badProtocol
  else
    let first ← RLPView.construct ((BytesConstRef.ofBytes frame).cropped 0 1) VeryStrict
    let packetType ← first.toIntOf 4 Strict
    let _ ← RLPView.construct ((BytesConstRef.ofBytes frame).croppedFrom 1) VeryStrict
    return s.readPacket hProtocolId packetType

/-- `CapabilityHost::prep`, with the list that the capability appends behind it. -/
def prep (s : Session) (capabilityName : Bytes) (id : ℕ) (args : Bytes) : Option Bytes :=
  (s.capabilityOffset capabilityName).map fun offset =>
    UInt8.ofNat ((id + offset) % 2 ^ 32) :: args

end Session

namespace Host

def haveCapability (h : Host) (c : CapDesc) : Bool := (h.m_capabilities.find c).isSome

/-- `Host::caps`, what the host says about itself in its Hello packet. -/
def caps (h : Host) : List CapDesc := h.m_capabilities.entries.map Prod.fst

def isRequiredPeer (h : Host) (id : NodeID) : Bool := id ∈ h.m_requiredPeers

def peerCount (h : Host) : ℕ := h.m_sessions.length

/-- `peerSlotsAvailable(Ingress)`. -/
def peerSlotsAvailable (h : Host) : Bool :=
  h.peerCount + h.m_pendingPeerConns < (h.m_idealPeerCount * h.m_stretchPeers) % 2 ^ 32

/-- The predicate of the `remove_if`, which searches the list that is being compacted. -/
def notHighest (h : Host) (caps : List CapDesc) (r : CapDesc) : Bool :=
  !h.haveCapability r || caps.any fun o =>
    r.name = o.name && r.version < o.version && h.haveCapability o

/-- A pair that was moved from: the string is empty, the number is still there. -/
def movedFrom (c : CapDesc) : CapDesc := {c with name := []}

/-- What `startPeerSession` leaves of the other side's list. -/
def leaveHighest (h : Host) (caps : List CapDesc) : List CapDesc :=
  Compaction.removeIf movedFrom h.notHighest caps

/-- How `startPeerSession` ends. -/
inductive Started where
  | wrongID
  | disconnected (reason : DisconnectReason)
  /-- The session, and the capabilities whose `onConnect` was called, in order. -/
  | started (session : Session) (onConnect : List CapDesc)

/-- The loop of `startPeerSession` that registers the capabilities. -/
def registerCaps (h : Host) : Session → (offset : ℕ) → (onConnect : List CapDesc) →
    List CapDesc → Started
  | session, _, onConnect, [] => .started session onConnect
  | session, offset, onConnect, capDesc :: caps =>
    match h.m_capabilities.find capDesc with
    | none => .disconnected .IncompatibleProtocol
    | some capability =>
      h.registerCaps (session.registerCapability capDesc offset capability)
        ((offset + capability.messageCount) % 2 ^ 32) (onConnect ++ [capDesc]) caps

def startPeerSession (h : Host) (id : NodeID) (hello : Hello) : Started :=
  if hello.pub ≠ id then .wrongID
  else
    let caps := h.leaveHighest hello.caps
    if hello.protocolVersion < c_protocolVersion - 1 then .disconnected .IncompatibleProtocol
    else if caps = [] then .disconnected .UselessPeer
    else if h.pin && !h.isRequiredPeer id then .disconnected .UnexpectedIdentity
    else if id ∈ h.m_sessions then .disconnected .DuplicatePeer
    else if !h.peerSlotsAvailable then .disconnected .TooManyPeers
    else h.registerCaps .empty UserPacket [] caps

end Host
end Aleth.P2p
