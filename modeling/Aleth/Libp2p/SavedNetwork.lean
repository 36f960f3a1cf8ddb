import Aleth.Libp2p.IdentitySchemeV4
import Aleth.Libp2p.NodeTable
import Aleth.Libp2p.RLPxHandshake
import Aleth.Structure.InsertionMap

/-! The network configuration that a host saves and restores (`Host.cpp`).

What is saved is a list of the protocol's version, the key with the node record,
and the records of nodes and peers. Nodes from the table have six fields there,
peers have eleven; the first three of either are the endpoint. -/
namespace Aleth.Devcore

/-- `RLP::size`. -/
def RLPView.size (r : RLPView) : Except RLPException ℕ :=
  if isData r.content then length r.content else .ok 0

end Aleth.Devcore

namespace Aleth.P2p
open Devcore
open RLPView BytesConstRef RLPStream

inductive PeerType where
  | Optional
  | Required
deriving DecidableEq

/-- The clock counts nanoseconds since the epoch. -/
structure Peer extends Node where
  peerType : PeerType
  m_lastConnected : ℤ
  m_lastAttempted : ℤ
  m_failedAttempts : UInt32
  /-- A `DisconnectReason`. Any number may be read from a file. -/
  m_lastDisconnect : UInt32
  m_score : Int32
  m_rating : Int32
deriving DecidableEq

/-- `Peer(Node const&)`. -/
def Peer.ofNode (n : Node) (peerType : PeerType) : Peer := ⟨n, peerType, 0, 0, 0, 0xffff, 0, 0⟩

inductive NetworkException where
  | NetworkStartRequired
  | RLP (e : RLPException)
  | ENR (e : ENRException)
  /-- An `int` overflows, or an array is read outside. -/
  | undefined
deriving DecidableEq

/-- What saving and restoring need of a host. A peer is filed under its id. -/
structure NetworkHost where
  config : NodeTableConfig
  m_alias : H256
  /-- The one of the table, or `m_restoredENR`. -/
  enr : ENR
  isStarted : Bool
  m_run : Bool
  haveCapabilities : Bool
  m_nodeTable : Option NodeTable
  m_peers : InsertionMap NodeID Peer
  m_requiredPeers : List NodeID

/-! ### Saving -/

/-- `duration_cast<seconds>`. -/
def secondsOf (t : ℤ) : ℤ := t.tdiv (10 ^ 9)

/-- A signed number as an `unsigned`. -/
def toUnsigned (x : ℤ) : ℕ := (x % 2 ^ 32).toNat

/-- `NodeIPEndpoint::streamRLP`, without a list of its own. -/
def NodeIPEndpoint.streamInline (e : NodeIPEndpoint) :
    List (RLPStream → Except RLPException RLPStream) :=
  [append e.address.to_bytes false, appendUnsigned e.udpPort.toNat, appendUnsigned e.tcpPort.toNat]

def streamEntry (e : NodeEntry) : RLPStream → Except RLPException RLPStream := fun network => do
  calls (e.endpoint.streamInline ++ [append e.id.bytes false,
    appendUnsigned e.lastPongReceivedTime, appendUnsigned e.lastPongSentTime])
    (← RLPStream.appendList 6 network)

def streamPeer (p : Peer) : RLPStream → Except RLPException RLPStream := fun network => do
  calls (p.endpoint.streamInline ++ [append p.id.bytes false,
    appendUnsigned (if p.peerType = .Required then 1 else 0),
    appendUnsigned (toUnsigned (secondsOf p.m_lastConnected)),
    appendUnsigned (toUnsigned (secondsOf p.m_lastAttempted)),
    appendUnsigned p.m_failedAttempts.toNat, appendUnsigned p.m_lastDisconnect.toNat,
    appendUnsigned p.m_score.toUInt32.toNat, appendUnsigned p.m_rating.toUInt32.toNat])
    (← RLPStream.appendList 11 network)

/-- `NodeTable::snapshot`. -/
def NodeTable.snapshot (s : NodeTable) : List NodeEntry :=
  (((List.finRange s_bins).flatMap s.m_buckets).filter (s.holds [])).map s.objects

def Address.is_v4 : Address → Bool
  | .v4 _ _ => true
  | .v6 _ _ => false

namespace NetworkHost
variable (h : NetworkHost)

def isAllowedEndpoint (e : NodeIPEndpoint) : Bool := h.config.isAllowedEndpoint e

/-- The entries that are saved. -/
def nodeTableEntries : List NodeEntry := (h.m_nodeTable.map NodeTable.snapshot).getD []

/-- A peer that has connected within two days and can be reached. -/
def saves (now : ℤ) (p : Peer) : Bool :=
  p.endpoint.address.is_v4 && now - p.m_lastConnected < 3600 * 48 * 10 ^ 9 &&
    p.endpoint.isSpecified && p.id ≠ h.config.m_hostNodeID &&
    (p.peerType = .Required || h.isAllowedEndpoint p.endpoint)

/-- The peers that are saved. -/
def peers (now : ℤ) : List Peer := (h.m_peers.entries.map Prod.snd).filter (h.saves now)

def streamKey (ret : RLPStream) : Except RLPException RLPStream := do
  calls [append h.m_alias.bytes false, h.enr.streamRLP] (← RLPStream.appendList 2 ret)

def streamNetwork (network : Bytes) (count : ℕ) (ret : RLPStream) :
    Except RLPException RLPStream := do
  let ret ← RLPStream.appendList count ret
  if count ≠ 0 then appendRaw network count ret else return ret

/-- `saveNetwork`. What is saved is counted with an `int`. -/
def saveNetwork (now : ℤ) : Except NetworkException Bytes :=
  if h.m_run then .ok []
  else
    let count := h.nodeTableEntries.length + (h.peers now).length
    if 2 ^ 31 ≤ count then .error .undefined
    else Except.mapError .RLP do
      let network ← calls (h.nodeTableEntries.map streamEntry ++ (h.peers now).map streamPeer) empty
      let network ← out network
      out (← calls [appendUnsigned c_protocolVersion, h.streamKey, streamNetwork network count]
        (← RLPStream.appendList 3 empty))

end NetworkHost

/-! ### Restoring -/

def Address.ofBytes (b : Bytes) : Address :=
  if h : b.length = 4 then .v4 b h else if h : b.length = 16 then .v6 b h else .unspecified

def readAddress (r : RLPView) : Except RLPException Address := do
  let n ← r.size
  if n = 4 || n = 16 then return .ofBytes (← r.toBytes LaissezFaire) else return .unspecified

/-- A number of an item. -/
def numberAt (maxSize : ℕ) (r : RLPView) (i : ℕ) : Except RLPException ℕ := do
  (← item r i).toIntOf maxSize Strict

def NodeIPEndpoint.interpretRLP (r : RLPView) : Except RLPException NodeIPEndpoint := do
  let address ← readAddress (← item r 0)
  let udpPort ← numberAt 2 r 1
  let tcpPort ← numberAt 2 r 2
  return ⟨address, .ofNat udpPort, .ofNat tcpPort⟩

/-- What a saved peer has beside its node and its type. -/
def readPeer (node : Node) (peerType : PeerType) (r : RLPView) : Except RLPException Peer := do
  let lastConnected ← numberAt 4 r 5
  let lastAttempted ← numberAt 4 r 6
  let failedAttempts ← numberAt 4 r 7
  let lastDisconnect ← numberAt 4 r 8
  let score ← numberAt 4 r 9
  let rating ← numberAt 4 r 10
  return ⟨node, peerType, lastConnected * 10 ^ 9, lastAttempted * 10 ^ 9, .ofNat failedAttempts,
    .ofNat lastDisconnect, (UInt32.ofNat score).toInt32, (UInt32.ofNat rating).toInt32⟩

namespace NetworkHost
variable (h : NetworkHost)

def addNodeToNodeTable (m : Moment) (n : Node) : NetworkHost :=
  {h with m_nodeTable := h.m_nodeTable.map fun nodeTable => (nodeTable.addNode h.config m n).2}

/-- The table may use a bucket outside its array. -/
def addKnownNodeToNodeTable [Sha3] (m : Moment) (n : Node)
    (lastPongReceivedTime lastPongSentTime : UInt32) : Option NetworkHost :=
  match h.m_nodeTable with
  | none => some h
  | some nodeTable =>
    (nodeTable.addKnownNode h.config m n lastPongReceivedTime lastPongSentTime).map fun nodeTable =>
      {h with m_nodeTable := some nodeTable}

def requirePeer (m : Moment) (n : Node) : NetworkHost :=
  if !h.m_run || !h.haveCapabilities || n.id = h.config.m_hostNodeID || n.id.isZero then h
  else
    let p : Peer := match h.m_peers.find n.id with
      | some p => {p with endpoint := n.endpoint, peerType := .Required}
      | none => .ofNode n .Required
    let h := {h with
      m_requiredPeers := h.m_requiredPeers.insert n.id
      m_peers := h.m_peers.set n.id p}
    h.addNodeToNodeTable m p.toNode

/-- A node that was saved from the node table. -/
def restoreEntry [Sha3] (m : Moment) (node : Node) (nodeRLP : RLPView) :
    Except NetworkException NetworkHost := do
  let lastPongReceivedTime ← (numberAt 4 nodeRLP 4).mapError .RLP
  let lastPongSentTime ← (numberAt 4 nodeRLP 5).mapError .RLP
  match h.addKnownNodeToNodeTable m node (.ofNat lastPongReceivedTime)
    (.ofNat lastPongSentTime) with
  | none => .error .undefined
  | some h => .ok h

/-- A node that was saved from the list of peers. -/
def restorePeer (m : Moment) (node : Node) (nodeRLP : RLPView) :
    Except NetworkException NetworkHost := do
  let required ← (numberAt 1 nodeRLP 4).mapError .RLP
  let peerType : PeerType := if required ≠ 0 then .Required else .Optional
  if !h.isAllowedEndpoint node.endpoint && peerType = .Optional then return h
  let peer ← (readPeer node peerType nodeRLP).mapError .RLP
  let h := {h with m_peers := h.m_peers.set peer.id peer}
  return if peer.peerType = .Required then h.requirePeer m node
    else h.addNodeToNodeTable m peer.toNode

/-- The loop body of `restoreNetwork`. -/
def restoreRecord [Sha3] (m : Moment) (nodeRLP : RLPView) :
    Except NetworkException NetworkHost := do
  let address ← (item nodeRLP 0).mapError .RLP
  let addressItems ← (itemCount address.enough address).mapError .RLP
  let addressSize ← address.size.mapError .RLP
  if addressItems ≠ 4 && addressSize ≠ 4 then return h
  let id ← (do (← item nodeRLP 3).toHash 64 Strict).mapError .RLP
  let node : Node := ⟨.ofBytes id, ← (NodeIPEndpoint.interpretRLP nodeRLP).mapError .RLP⟩
  let items ← (itemCount nodeRLP.enough nodeRLP).mapError .RLP
  if items = 6 && h.isAllowedEndpoint node.endpoint then h.restoreEntry m node nodeRLP
  else if items = 11 then h.restorePeer m node nodeRLP
  else return h

/-- The version and the list of nodes, if there is one to be restored. -/
def savedNodes (b : Bytes) : Except RLPException (List RLPView) := do
  let r ← RLPView.construct (ofBytes b) VeryStrict
  let protocolVersion ← numberAt 4 r 0
  if 0 < (← itemCount r.enough r) && (← isInt (← item r 0).content) &&
      c_protocolVersion ≤ protocolVersion then
    let nodes ← item r 2
    elements nodes.enough nodes
  else return []

/-- `restoreNetwork`. -/
def restoreNetwork [Sha3] (m : Moment) (b : Bytes) : Except NetworkException NetworkHost :=
  if b = [] then .ok h
  else if !h.isStarted then .error .NetworkStartRequired
  else do
    let nodes ← (savedNodes b).mapError .RLP
    nodes.foldlM (fun h nodeRLP => h.restoreRecord m nodeRLP) h

end NetworkHost

/-! ### The key and the record -/

section RestoreENR
variable [Sha3] [Ecdsa H256]

/-- The secret key of the saved configuration, and where the node record is. -/
def readKeyAndRecord (r : RLPView) : Except RLPException (Option (H256 × Option RLPView)) := do
  if (← itemCount r.enough r) ≠ 3 then return none
  let version ← item r 0
  if !(← isInt version.content) then return none
  if (← version.toIntOf 4 Strict) < 3 then return none
  let key ← item r 1
  if isList key.content then
    let secret ← (← item key 0).toBytes LaissezFaire
    return some (.ofBytes secret, some (← item key 1))
  else return some (.ofBytes (← key.toBytes LaissezFaire), none)

/-- `restoreENR`. A new key is made (`created`) where there is none. -/
def restoreENR (created : H256) (address : Address) (listenPort : UInt16) (b : Bytes) :
    Except NetworkException (H256 × ENR) := do
  let r ← (RLPView.construct (ofBytes b) VeryStrict).mapError .RLP
  match ← (readKeyAndRecord r).mapError .RLP with
  | some (secret, some enrRlp) =>
    match IdentitySchemeV4.parseENR H256 enrRlp with
    | none => .error .undefined
    | some enr => return (secret, ← enr.mapError .ENR)
  | some (secret, none) =>
    return (secret,
      ← (IdentitySchemeV4.createENR secret address listenPort listenPort).mapError .RLP)
  | none =>
    return (created,
      ← (IdentitySchemeV4.createENR created address listenPort listenPort).mapError .RLP)

end RestoreENR

end Aleth.P2p
