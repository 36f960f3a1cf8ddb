import Aleth.Devcore.Sha3
import Aleth.Libp2p.Common
import Aleth.Structure.SortedMap

/-! The node table of the discovery protocol (`NodeTable.cpp`).

Buckets refer to node entries weakly; an entry lives as long as `m_allNodes`, a
sent ping, a discovery round or a running handler holds it. Every entry ever
made has a number (`Ref`) here, and an expired reference is the number of one
that nobody holds. A bucket index outside the array is undefined behaviour:
the step has no result.

What a Ping's hash is depends on the host's endpoint, its record and the time;
it is taken from the moment the ping is sent in. The trace keeps, newest first,
the packets received and sent and what happened to the entries. -/
namespace Aleth.P2p
open Devcore

/-- `std::shared_ptr<NodeEntry>`: which entry it is. -/
abbrev Ref := ℕ

structure NodeEntry where
  node : Node
  lastPongReceivedTime : ℕ
  lastPongSentTime : ℕ
deriving DecidableEq

namespace NodeEntry

def id (e : NodeEntry) : NodeID := e.node.id

def endpoint (e : NodeEntry) : NodeIPEndpoint := e.node.endpoint

end NodeEntry

structure NodeValidation where
  nodeID : NodeID
  tcpPort : UInt16
  pingSentTime : ℕ
  pingHash : H256
  replacementNodeEntry : Option Ref

/-- What a packet says, as far as the table reads it. -/
inductive Payload where
  | PingNode (source : NodeIPEndpoint)
  | Pong (echo : H256)
  | FindNode (target : NodeID)
  | Neighbours (neighbours : List Node)
  | ENRRequest
  | ENRResponse
deriving DecidableEq

/-- A `DiscoveryDatagram` that was received; `echo` is the hash of the packet itself. -/
structure DiscoveryDatagram where
  sourceid : NodeID
  echo : H256
  expiration : Option ℕ
  payload : Payload
deriving DecidableEq

def DiscoveryDatagram.isExpired (p : DiscoveryDatagram) (seconds : ℕ) : Bool :=
  p.expiration.any (· < seconds)

/-- What is sent in reply to a request that needs an endpoint proof. -/
inductive Reply where
  | Neighbours (nodes : List Node)
  | ENRResponse (echo : H256)
deriving DecidableEq

inductive Happening where
  | received (seconds : ℕ) (source : UdpEndpoint) (packet : DiscoveryDatagram)
  | pinged (time : ℕ) (dest : UdpEndpoint) (hash : H256)
  | timedOut (dest : UdpEndpoint) (hash : H256)
  | ponged (dest : UdpEndpoint) (echo : H256)
  | findNodeSent (dest : UdpEndpoint) (target : NodeID)
  | replied (seconds : ℕ) (dest : UdpEndpoint) (requester : NodeID) (reply : Reply)
  | nodeEntryAdded (id : NodeID)
  | nodeEntryDropped (time : ℕ) (entry : NodeEntry)
  | nodeEntryScheduledForEviction (id : NodeID)
deriving DecidableEq

def s_bins : ℕ := 255
def s_bucketSize : ℕ := 16
def s_alpha : ℕ := 3
def s_maxSteps : ℕ := 8
def c_bondingTimeSeconds : ℕ := 12 * 60 * 60
def c_reqTimeoutMs : ℕ := 300

/-- The most nodes in one Neighbours packet. -/
def nlimit : ℕ := (1280 - 109) / 90

/-- What a table is constructed with. -/
structure NodeTableConfig where
  m_hostNodeID : NodeID
  m_allowLocalDiscovery : Bool
  /-- In milliseconds. -/
  m_requestTimeToLive : ℕ

/-- The clocks when something happens: `secondsSinceEpoch` (a `uint32_t`), the steady clock in
milliseconds, and what `sign` returns for a Ping to an endpoint. -/
structure Moment where
  seconds : UInt32
  steady : ℕ
  pingHash : UdpEndpoint → H256

structure NodeTable where
  objects : Ref → NodeEntry
  next : Ref
  m_allNodes : NodeID → Option Ref
  m_buckets : Fin s_bins → List Ref
  m_sentFindNodes : List (NodeID × ℕ)
  m_sentPings : SortedMap UdpEndpoint NodeValidation
  /-- The pings that are scheduled and have not run. -/
  scheduled : List Node
  /-- The target, the number and the tried nodes of the discovery round that is waited for. -/
  round : Option (NodeID × ℕ × List Ref)
  isOpen : Bool
  trace : List Happening

/-! ### Entries -/

/-- `NodeTable::distance`: how often the difference can be shifted before it is zero. -/
def distance (a b : H256) : ℕ := Nat.log2 (fromBigEndian a.bytes ^^^ fromBigEndian b.bytes)

def NodeEntry.hasValidEndpointProof (m : Moment) (e : NodeEntry) : Bool :=
  m.seconds.toNat < (e.lastPongReceivedTime + c_bondingTimeSeconds) % 2 ^ 32

def NodeID.isZero (id : NodeID) : Bool := id.bytes.all (· = 0)

namespace NodeTableConfig
variable (c : NodeTableConfig)

/-- `m_buckets[distance - 1]`. -/
def bucket_UNSAFE [Sha3] (id : NodeID) : Option (Fin s_bins) :=
  let d := distance (sha3 c.m_hostNodeID.bytes) (sha3 id.bytes)
  if h : 0 < d ∧ d - 1 < s_bins then some ⟨d - 1, h.2⟩ else none

def isAllowedEndpoint (e : NodeIPEndpoint) : Bool :=
  P2p.isAllowedEndpoint c.m_allowLocalDiscovery e

def isValidNode (n : Node) : Bool :=
  n.endpoint.isSpecified && !n.id.isZero && c.isAllowedEndpoint n.endpoint &&
    c.m_hostNodeID ≠ n.id

end NodeTableConfig

namespace NodeTable

/-- The table after construction. -/
def initial : NodeTable where
  objects := fun _ => ⟨⟨⟨List.replicate 64 0, rfl⟩, ⟨.unspecified, 0, 0⟩⟩, 0, 0⟩
  next := 0
  m_allNodes := fun _ => none
  m_buckets := fun _ => []
  m_sentFindNodes := []
  m_sentPings := .empty
  scheduled := []
  round := none
  isOpen := true
  trace := []

section Functions
variable (c : NodeTableConfig) (m : Moment) (s : NodeTable)

def log (h : Happening) : NodeTable := {s with trace := h :: s.trace}

/-- `make_shared<NodeEntry>`. -/
def allocate (e : NodeEntry) : Ref × NodeTable :=
  (s.next, {s with objects := Function.update s.objects s.next e, next := s.next + 1})

def setEntry (r : Ref) (e : NodeEntry) : NodeTable :=
  {s with objects := Function.update s.objects r e}

def nodeEntry (id : NodeID) : Option Ref := s.m_allNodes id

/-- The replacements that wait behind sent pings. -/
def replacementsOf (pings : SortedMap UdpEndpoint NodeValidation) : List Ref :=
  pings.entries.filterMap fun e => e.2.replacementNodeEntry

def replacements : List Ref := replacementsOf s.m_sentPings

def tried : List Ref := (s.round.map fun x => x.2.2).getD []

/-- `weak_ptr::lock` succeeds: somebody holds the entry. -/
def holds (held : List Ref) (r : Ref) : Bool :=
  s.m_allNodes (s.objects r).id = some r || r ∈ s.replacements || r ∈ s.tried || r ∈ held

/-! ### Pings -/

def ping (n : Node) (replacement : Option Ref) : NodeTable :=
  if !s.isOpen then s
  else if (s.m_sentPings.find n.endpoint.udp).isSome then s
  else
    {s with
      m_sentPings := s.m_sentPings.insert n.endpoint.udp
        ⟨n.id, n.endpoint.tcpPort, m.steady, m.pingHash n.endpoint.udp, replacement⟩
      trace := .pinged m.steady n.endpoint.udp (m.pingHash n.endpoint.udp) :: s.trace}

def schedulePing (n : Node) : NodeTable := {s with scheduled := s.scheduled ++ [n]}

def evict (leastSeen : NodeEntry) (replacement : Ref) : NodeTable :=
  if !s.isOpen then s
  else (s.ping m leastSeen.node (some replacement)).log (.nodeEntryScheduledForEviction leastSeen.id)

/-! ### Buckets -/

def setBucket (b : Fin s_bins) (nodes : List Ref) : NodeTable :=
  {s with m_buckets := Function.update s.m_buckets b nodes}

/-- `m_allNodes.insert`, which leaves an id alone that is there. -/
def insertNode (r : Ref) : NodeTable :=
  {s with m_allNodes := fun id =>
    if id = (s.objects r).id ∧ s.m_allNodes id = none then some r else s.m_allNodes id}

/-- A node at the end of its bucket. -/
def addToBucket (b : Fin s_bins) (nodes : List Ref) (r : Ref) : NodeTable :=
  ((s.setBucket b (nodes ++ [r])).insertNode r).log (.nodeEntryAdded (s.objects r).id)

/-- The part of `noteActiveNode` that looks at the bucket. -/
def noteInBucket (held : List Ref) (r : Ref) (b : Fin s_bins) : NodeTable :=
  if r ∈ s.m_buckets b then s.setBucket b ((s.m_buckets b).erase r ++ [r])
  else if (s.m_buckets b).length < s_bucketSize then s.addToBucket b (s.m_buckets b) r
  else match s.m_buckets b with
    | [] => s
    | front :: rest =>
      if s.holds held front then s.evict m (s.objects front) r else s.addToBucket b rest r

/-- `held` are the entries that the callers hold. -/
def noteActiveNode [Sha3] (held : List Ref) (r : Ref) : Option NodeTable :=
  if (s.objects r).id = c.m_hostNodeID then some s
  else if !c.isAllowedEndpoint (s.objects r).endpoint then some s
  else if !(s.objects r).hasValidEndpointProof m then some s
  else (c.bucket_UNSAFE (s.objects r).id).map (s.noteInBucket m held r)

def dropNode [Sha3] (r : Ref) : Option NodeTable :=
  (c.bucket_UNSAFE (s.objects r).id).map fun b =>
    let s' := s.setBucket b ((s.m_buckets b).filter (· ≠ r))
    {s' with m_allNodes := Function.update s.m_allNodes (s.objects r).id none}.log
      (.nodeEntryDropped m.steady (s.objects r))

/-! ### Adding nodes -/

def addNode (n : Node) : Bool × NodeTable :=
  if !c.isValidNode n then (false, s)
  else if (s.m_allNodes n.id).all fun r =>
      (s.objects r).endpoint ≠ n.endpoint || !(s.objects r).hasValidEndpointProof m then
    (true, s.schedulePing n)
  else (true, s)

def addKnownNode [Sha3] (n : Node) (lastPongReceivedTime lastPongSentTime : UInt32) :
    Option NodeTable :=
  if !c.isValidNode n then some s
  else if (s.nodeEntry n.id).isSome then some s
  else
    let entry : NodeEntry := ⟨n, lastPongReceivedTime.toNat, lastPongSentTime.toNat⟩
    if entry.hasValidEndpointProof m then
      let (r, s) := s.allocate entry
      s.noteActiveNode c m [r] r
    else some (s.schedulePing n)

/-! ### Packets -/

/-- `handlePong` once the ping is found: a changed key drops the node that was pinged. -/
def dropChanged [Sha3] (sourceid : NodeID) (nodeID : NodeID) : Option NodeTable :=
  if sourceid ≠ nodeID then
    match s.nodeEntry nodeID with
    | none => some s
    | some r => s.dropNode c m r
  else some s

/-- The entry of the node that answered, made or updated. -/
def updateEntry (source : UdpEndpoint) (tcpPort : UInt16) (sourceid : NodeID) : Ref × NodeTable :=
  let endpoint : NodeIPEndpoint := ⟨source.address, source.port, tcpPort⟩
  match s.m_allNodes sourceid with
  | none => s.allocate ⟨⟨sourceid, endpoint⟩, m.seconds.toNat, 0⟩
  | some r =>
    let e := s.objects r
    let e := {e with lastPongReceivedTime := m.seconds.toNat}
    (r, s.setEntry r (if e.endpoint.udp ≠ source then {e with node := ⟨e.id, endpoint⟩} else e))

def handlePong [Sha3] (source : UdpEndpoint) (sourceid : NodeID) (echo : H256) :
    Option (Option Ref × NodeTable) :=
  match s.m_sentPings.find source with
  | none => some (none, s)
  | some nodeValidation =>
    if echo ≠ nodeValidation.pingHash then some (none, s)
    else (s.dropChanged c m sourceid nodeValidation.nodeID).map fun s =>
      let (r, s) := s.updateEntry m source nodeValidation.tcpPort sourceid
      (some r, {s with m_sentPings := s.m_sentPings.erase source})

/-- The entry of a node that sends from where it is known to be. -/
def knownSource (source : UdpEndpoint) (sourceid : NodeID) : Option Ref :=
  (s.nodeEntry sourceid).filter fun r => (s.objects r).endpoint.udp = source

def handleNeighbours (source : UdpEndpoint) (sourceid : NodeID) (neighbours : List Node) :
    Option Ref × NodeTable :=
  match s.knownSource source sourceid with
  | none => (none, s)
  | some r =>
    let expected := s.m_sentFindNodes.any fun t =>
      t.1 = sourceid && m.steady - t.2 < c_reqTimeoutMs
    let s := {s with m_sentFindNodes := s.m_sentFindNodes.filter (·.1 ≠ sourceid)}
    if !expected then (some r, s)
    else (some r, neighbours.foldl (fun s n => (s.addNode c m n).2) s)

/-- The loop body of `nearestNodeEntries`: a multiset ordered by distance keeps the nearest. -/
def keepNearest (found : List (ℕ × Ref)) (d : ℕ) (r : Ref) : List (ℕ × Ref) :=
  (found.takeWhile (·.1 ≤ d) ++ (d, r) :: found.dropWhile (·.1 ≤ d)).take s_bucketSize

def nearestNodeEntries [Sha3] (target : NodeID) : List Ref :=
  let live := ((List.finRange s_bins).flatMap s.m_buckets).filter (s.holds [])
  let found := live.foldl (fun found r =>
    keepNearest found (distance (sha3 target.bytes) (sha3 (s.objects r).id.bytes)) r) []
  found.map Prod.snd

/-- A node with a valid endpoint proof that sends a request from its endpoint. -/
def provenSource (source : UdpEndpoint) (sourceid : NodeID) : Option Ref :=
  (s.knownSource source sourceid).filter fun r =>
    (s.objects r).lastPongReceivedTime ≠ 0 && (s.objects r).hasValidEndpointProof m

/-- The loop of `handleFindNode` over the Neighbours packets. -/
def sendNeighbours (source : UdpEndpoint) (sourceid : NodeID) : (packets : ℕ) → List Node →
    NodeTable → NodeTable
  | 0, _, s => s
  | packets + 1, nearest, s =>
    if nearest = [] then s
    else sendNeighbours source sourceid packets (nearest.drop nlimit)
      (s.log (.replied m.seconds.toNat source sourceid (.Neighbours (nearest.take nlimit))))

def handleFindNode [Sha3] (source : UdpEndpoint) (sourceid target : NodeID) :
    Option Ref × NodeTable :=
  match s.provenSource m source sourceid with
  | none => (none, s)
  | some r =>
    let nearest := (s.nearestNodeEntries target).map fun r => (s.objects r).node
    (some r, sendNeighbours m source sourceid nearest.length nearest s)

def handlePingNode (source : UdpEndpoint) (sourceid : NodeID) (echo : H256)
    (pingSource : NodeIPEndpoint) : Option Ref × NodeTable :=
  let sourceEndpoint : NodeIPEndpoint := ⟨source.address, source.port, pingSource.tcpPort⟩
  let (added, s) := s.addNode c m ⟨sourceid, sourceEndpoint⟩
  if !added then (none, s)
  else
    let s := s.log (.ponged source echo)
    match s.nodeEntry sourceid with
    | none => (none, s)
    | some r => (some r, s.setEntry r {s.objects r with lastPongSentTime := m.seconds.toNat})

def handleENRRequest (source : UdpEndpoint) (sourceid : NodeID) (echo : H256) :
    Option Ref × NodeTable :=
  match s.provenSource m source sourceid with
  | none => (none, s)
  | some r => (some r, s.log (.replied m.seconds.toNat source sourceid (.ENRResponse echo)))

def handleENRResponse (source : UdpEndpoint) (sourceid : NodeID) : Option Ref × NodeTable :=
  (s.knownSource source sourceid, s)

/-- The `switch` of `onPacketReceived`. -/
def handlePacket [Sha3] (source : UdpEndpoint) (packet : DiscoveryDatagram) :
    Option (Option Ref × NodeTable) :=
  match packet.payload with
  | .Pong echo => s.handlePong c m source packet.sourceid echo
  | .Neighbours neighbours => some (s.handleNeighbours c m source packet.sourceid neighbours)
  | .FindNode target => some (s.handleFindNode m source packet.sourceid target)
  | .PingNode pingSource => some (s.handlePingNode c m source packet.sourceid packet.echo pingSource)
  | .ENRRequest => some (s.handleENRRequest m source packet.sourceid packet.echo)
  | .ENRResponse => some (s.handleENRResponse source packet.sourceid)

def onPacketReceived [Sha3] (source : UdpEndpoint) (packet : DiscoveryDatagram) :
    Option NodeTable :=
  let s := s.log (.received m.seconds.toNat source packet)
  if packet.isExpired m.seconds.toNat then some s
  else do
    let (sourceNodeEntry, s) ← s.handlePacket c m source packet
    match sourceNodeEntry with
    | none => some s
    | some r => s.noteActiveNode c m [r] r

/-! ### Timers -/

/-- The loop of `doDiscoveryRound` over the nearest nodes. -/
def askNearest (target : NodeID) : List Ref → (tried : List Ref) → (newTriedCount : ℕ) →
    NodeTable → (List Ref × ℕ × NodeTable)
  | [], tried, count, s => (tried, count, s)
  | r :: rest, tried, count, s =>
    if r ∈ tried then askNearest target rest tried count s
    else if !(s.objects r).hasValidEndpointProof m then
      askNearest target rest tried count (s.ping m (s.objects r).node none)
    else
      let s := {s with m_sentFindNodes := s.m_sentFindNodes ++ [((s.objects r).id, m.steady)]}
      let s := s.log (.findNodeSent (s.objects r).endpoint.udp target)
      if count + 1 = s_alpha then (tried ++ [r], count + 1, s)
      else askNearest target rest (tried ++ [r]) (count + 1) s

def doDiscoveryRound [Sha3] (target : NodeID) (round : ℕ) (tried : List Ref) : NodeTable :=
  if !s.isOpen then s
  else
    let (tried, newTriedCount, s) := askNearest m target (s.nearestNodeEntries target) tried 0 s
    if round = s_maxSteps ∨ newTriedCount = 0 then {s with round := none}
    else {s with round := some (target, round + 1, tried)}

/-- The discovery timer: the next round, or a new search for a random node. -/
def onDiscoveryTimer [Sha3] (randNodeId : NodeID) : NodeTable :=
  match s.round with
  | none => s.doDiscoveryRound m randNodeId 0 []
  | some (target, round, tried) => s.doDiscoveryRound m target round tried

/-- The node of a ping that timed out is dropped, and its replacement saved. -/
def dropPinged [Sha3] (v : NodeValidation) (nodesToActivate : List Ref) :
    Option (List Ref × NodeTable) :=
  match s.nodeEntry v.nodeID with
  | none => some (nodesToActivate, s)
  | some r => (s.dropNode c m r).map (nodesToActivate ++ v.replacementNodeEntry.toList, ·)

/-- The loop of `doHandleTimeouts` over the sent pings. -/
def dropTimedOut [Sha3] : List (UdpEndpoint × NodeValidation) → (nodesToActivate : List Ref) →
    NodeTable → Option (List Ref × NodeTable)
  | [], nodesToActivate, s => some (nodesToActivate, s)
  | (endpoint, v) :: rest, nodesToActivate, s =>
    if v.pingSentTime + c.m_requestTimeToLive < m.steady then do
      let (nodesToActivate, s) ← s.dropPinged c m v nodesToActivate
      let s := {s with m_sentPings := s.m_sentPings.erase endpoint}
      dropTimedOut rest nodesToActivate (s.log (.timedOut endpoint v.pingHash))
    else dropTimedOut rest nodesToActivate s

/-- The loop of `doHandleTimeouts` over the replacements. -/
def activate [Sha3] (held : List Ref) : List Ref → NodeTable → Option NodeTable
  | [], s => some s
  | r :: rest, s => do activate held rest (← s.noteActiveNode c m held r)

def doHandleTimeouts [Sha3] : Option NodeTable := do
  let (nodesToActivate, s) ← dropTimedOut c m s.m_sentPings.entries [] s
  activate c m nodesToActivate nodesToActivate s

end Functions

/-! ### Runs -/

inductive Event where
  | packet (source : UdpEndpoint) (packet : DiscoveryDatagram)
  /-- A scheduled ping runs. -/
  | scheduledPing (i : ℕ)
  | discoveryTimer (randNodeId : NodeID)
  | timeoutsTimer
  | addNode (n : Node)
  | addKnownNode (n : Node) (lastPongReceivedTime lastPongSentTime : UInt32)
  | stop

/-- One event. The result is missing where a bucket outside the array is used. -/
def step [Sha3] (c : NodeTableConfig) (m : Moment) (s : NodeTable) : Event → Option NodeTable
  | .packet source packet => s.onPacketReceived c m source packet
  | .scheduledPing i =>
    match s.scheduled[i]? with
    | none => some s
    | some n => some ({s with scheduled := s.scheduled.eraseIdx i}.ping m n none)
  | .discoveryTimer randNodeId => some (s.onDiscoveryTimer m randNodeId)
  | .timeoutsTimer => s.doHandleTimeouts c m
  | .addNode n => some (s.addNode c m n).2
  | .addKnownNode n received sent => s.addKnownNode c m n received sent
  | .stop => some {s with isOpen := false}

/-- A run of the table. -/
def runOf [Sha3] (c : NodeTableConfig) : NodeTable → List (Moment × Event) → Option NodeTable
  | s, [] => some s
  | s, (m, e) :: l => do runOf c (← s.step c m e) l

end NodeTable
end Aleth.P2p
