import Aleth.Ethcore.BlockHeader
import Aleth.Libp2p.Common
import Aleth.Structure.Throwing

/-! Downloading a snapshot (`WarpCapability.cpp`).

Packets are handled by one fiber; a fiber for each status message validates the
peer, and one fiber downloads the chunks. A step is what a fiber does up to the
next place where it waits or yields, and any fiber may be the next to go on.
There is no step where a fiber waits, and none from where the process ends: an
exception that leaves a fiber ends it, one that a handler throws is logged. -/
namespace Aleth.Ethereum
open Devcore Ethcore
open P2p (NodeID)
open RLPView BytesConstRef

inductive Asking where
  | warpManifest
  | blockHeaders
  | warpData
  | nothing
deriving DecidableEq

structure WarpPeerStatus where
  m_protocolVersion : ℕ := 0
  m_networkId : U256 := 0
  m_asking : Asking := .nothing
  m_genesisHash : H256 := H256.zero
deriving DecidableEq

/-- `boost::fibers::promise<bytes>`: whether its future was taken, and what was set (no bytes
stand for an exception). -/
structure Promise where
  retrieved : Bool := false
  result : Option (Option Bytes) := none
deriving DecidableEq

/-- `set_value` or `set_exception`; one that comes second throws. -/
def Promise.set (p : Promise) (result : Option Bytes) : Option Promise :=
  if p.result.isSome then none else some {p with result := some result}

/-- Where a fiber of `validatePeer` goes on. -/
inductive Validating where
  | start
  | waitForManifestResponse
  | waitForDaoForkBlockResponse (manifestBytes : Bytes) (snapshotHash : H256)
  /-- Before `m_freePeers.push`. -/
  | push
deriving DecidableEq

/-- Where the fiber of `downloadChunks` goes on. -/
inductive Downloading where
  | start
  /-- In `m_freePeers.value_pop`. -/
  | pop (chunkHash : H256)
  | finished
deriving DecidableEq

/-- Where the fiber that handles packets goes on. -/
inductive Handler where
  /-- With the next packet or connection. -/
  | next
  /-- In `onPeerData`, before `m_freePeers.push`. -/
  | push (peerID : NodeID)
  /-- In `onDisconnect`, behind the `yield` of `onPeerDisconnect`. -/
  | erase (peerID : NodeID)
deriving DecidableEq

/-- `WarpCapability` and its `WarpPeerObserver`. -/
structure WarpCapability where
  m_peers : NodeID → Option WarpPeerStatus := fun _ => none
  /-- The peers for which the host has disabled the capability. -/
  disabled : List NodeID := []
  m_manifest : Option Bytes := none
  m_syncingSnapshotHash : H256 := H256.zero
  m_neededChunks : List H256 := []
  m_freePeers : List NodeID := []
  /-- The chunk files in `m_snapshotDir`. -/
  files : H256 → Option Bytes := fun _ => none
  m_manifests : NodeID → Option Promise := fun _ => none
  m_daoForkHeaders : NodeID → Option Promise := fun _ => none
  m_requestedChunks : AList fun _ : NodeID => H256 := ∅
  m_downloadFiber : Option Downloading := none
  validating : List (NodeID × Validating) := []
  handler : Handler := .next

/-- What the capability is constructed with. -/
structure WarpParams where
  m_hostProtocolVersion : ℕ
  m_hostNetworkId : U256
  m_hostGenesisHash : H256
  m_daoForkBlock : ℕ
  /-- The peers that `m_freePeers` has room for. -/
  room : ℕ

inductive WarpPacket where
  | warpStatus
  | blockHeaders
  | snapshotManifest
  | snapshotData
  /-- Another packet, which is answered or not known. -/
  | other
deriving DecidableEq

/-! ### Manifests -/

/-- `RLP(b)`. -/
def rlpOf (b : Bytes) : Except RLPException RLPView := construct (ofBytes b) VeryStrict

def validateManifest (manifestRlp : RLPView) : Except RLPException Bool := do
  if !isList manifestRlp.content then return false
  if (← itemCount manifestRlp.enough manifestRlp) ≠ 1 then return false
  let manifest ← item manifestRlp 0
  return (← toIntOf 32 (← item manifest 0) Strict) = 2

/-- `toHash<h256>`. -/
def hashOf (flags : Devcore.Strictness) (r : RLPView) : Except RLPException H256 := do
  return H256.alignRight (← toHash 32 r flags)

def snapshotBlockHash (manifestRlp : RLPView) : Except RLPException H256 := do
  hashOf Strict (← item (← item manifestRlp 0) 5)

/-- `toVector<h256>`. -/
def toHashes (r : RLPView) : Except RLPException (List H256) := do
  if isList r.content then (← elements r.enough r).mapM (hashOf LaissezFaire) else return []

/-- The chunks of a manifest; the items behind them are read as well. -/
def chunkHashes (manifestBytes : Bytes) : Except RLPException (List H256) := do
  let manifest ← item (← rlpOf manifestBytes) 0
  let _version ← toIntOf 32 (← item manifest 0) Strict
  let stateHashes ← toHashes (← item manifest 1)
  let blockHashes ← toHashes (← item manifest 2)
  let _stateRoot ← hashOf Strict (← item manifest 3)
  let _blockNumber ← toIntOf 32 (← item manifest 4) Strict
  let _blockHash ← hashOf Strict (← item manifest 5)
  return stateHashes ++ blockHashes

namespace WarpCapability
variable [Sha3] (params : WarpParams) (peerID : NodeID)

/-! ### Peers -/

/-- `m_peers[peerID]`, made if there is none. -/
def peer (s : WarpCapability) : WarpPeerStatus := (s.m_peers peerID).getD {}

def setPeer (status : WarpPeerStatus) (s : WarpCapability) : WarpCapability :=
  {s with m_peers := Function.update s.m_peers peerID (some status)}

def setAsking (a : Asking) (s : WarpCapability) : WarpCapability :=
  (s.m_peers peerID).elim s fun status => s.setPeer peerID {status with m_asking := a}

def setIdle (s : WarpCapability) : WarpCapability := s.setAsking peerID .nothing

def disablePeer (s : WarpCapability) : WarpCapability := {s with disabled := peerID :: s.disabled}

/-- `requestManifest`, and the same for `requestBlockHeaders`. -/
def requestManifest (s : WarpCapability) : WarpCapability := s.setAsking peerID .warpManifest

def requestBlockHeaders (s : WarpCapability) : WarpCapability := s.setAsking peerID .blockHeaders

def requestData (s : WarpCapability) : Bool × WarpCapability :=
  (s.m_peers peerID).elim (false, s) fun _ => (true, s.setAsking peerID .warpData)

def validateStatus (s : WarpCapability) : Bool × WarpCapability :=
  (s.m_peers peerID).elim (false, s) fun status =>
    if status.m_genesisHash ≠ params.m_hostGenesisHash ∨
        status.m_protocolVersion ≠ params.m_hostProtocolVersion ∨
        status.m_networkId ≠ params.m_hostNetworkId ∨ status.m_asking ≠ .nothing then
      (false, s.disablePeer peerID)
    else (true, s)

/-- The fields of a status message; one that does not convert leaves those before it set. -/
def readStatus (r : RLPView) : Throwing WarpPeerStatus RLPException Unit := do
  let count ← Throwing.lift (itemCount r.enough r)
  if count < 7 then Throwing.throw .badRLP
  let version ← Throwing.lift (item r 0 >>= fun v => toIntOf 4 v Strict)
  Throwing.modify ({· with m_protocolVersion := version})
  let network ← Throwing.lift (item r 1 >>= toU256)
  Throwing.modify ({· with m_networkId := network})
  let _totalDifficulty ← Throwing.lift (item r 2 >>= toU256)
  let _latestHash ← Throwing.lift (item r 3 >>= hashOf Strict)
  let genesis ← Throwing.lift (item r 4 >>= hashOf Strict)
  Throwing.modify ({· with m_genesisHash := genesis})
  let _snapshotHash ← Throwing.lift (item r 5 >>= hashOf Strict)
  let _snapshotNumber ← Throwing.lift (item r 6 >>= toU256)

/-! ### Handlers -/

def onPeerStatus (s : WarpCapability) : WarpCapability :=
  {s with
    validating := s.validating ++ [(peerID, .start)]
    m_downloadFiber := some (s.m_downloadFiber.getD .start)}

def onPeerManifest (r : RLPView) (s : WarpCapability) : WarpCapability :=
  (((s.m_manifests peerID).getD {}).set (some r.content)).elim s fun p =>
    {s with m_manifests := Function.update s.m_manifests peerID (some p)}

def onPeerBlockHeaders (r : RLPView) (s : WarpCapability) : WarpCapability :=
  (((s.m_daoForkHeaders peerID).getD {}).set (some r.content)).elim s fun p =>
    {s with m_daoForkHeaders := Function.update s.m_daoForkHeaders peerID (some p)}

/-- The data of a reply; none if it is not a list of one item. -/
def replyData (r : RLPView) : Except RLPException (Option Bytes) := do
  if !isList r.content then return none
  if (← itemCount r.enough r) ≠ 1 then return none
  return some (← (← item r 0).toBytes LaissezFaire)

def onPeerData (data : Bytes) (s : WarpCapability) : WarpCapability :=
  (s.m_requestedChunks.lookup peerID).elim s fun askedHash =>
    let s := {s with
      m_requestedChunks := s.m_requestedChunks.erase peerID
      handler := .push peerID}
    if sha3 data = askedHash then
      {s with files := Function.update s.files askedHash (some data)}
    else {s with m_neededChunks := s.m_neededChunks ++ [askedHash]}

def interpretCapabilityPacket (type : WarpPacket) (r : RLPView) (s : WarpCapability) :
    WarpCapability :=
  let s := s.setPeer peerID (s.peer peerID)
  match type with
  | .warpStatus =>
    match (readStatus r).run (s.peer peerID) with
    | (.error _, status) => s.setPeer peerID status
    | (.ok _, status) => onPeerStatus peerID ((s.setPeer peerID status).setIdle peerID)
  | .blockHeaders => onPeerBlockHeaders peerID r (s.setIdle peerID)
  | .snapshotManifest => onPeerManifest peerID r (s.setIdle peerID)
  | .snapshotData =>
    match replyData r with
    | .ok (some data) => onPeerData peerID data (s.setIdle peerID)
    | .ok none | .error _ => s.setIdle peerID
  | .other => s

/-- The session passes on the packets of a capability that it has not disabled. -/
def readPacket (type : WarpPacket) (r : RLPView) (s : WarpCapability) : WarpCapability :=
  if peerID ∈ s.disabled then s else s.interpretCapabilityPacket peerID type r

def onConnect (s : WarpCapability) : WarpCapability :=
  {s.setPeer peerID (s.peer peerID) with disabled := s.disabled.filter (· ≠ peerID)}

/-- A promise that someone waits for is given up; one that was set ends the process. -/
def abandon (promises : NodeID → Option Promise) : Option (NodeID → Option Promise) :=
  (promises peerID).elim (some promises) fun p =>
    (p.set none).map fun p => Function.update promises peerID (some p)

def onPeerDisconnect (asking : Asking) (s : WarpCapability) : Option WarpCapability :=
  match asking with
  | .warpManifest => (abandon peerID s.m_manifests).map fun m_manifests => {s with m_manifests}
  | .blockHeaders =>
    (abandon peerID s.m_daoForkHeaders).map fun m_daoForkHeaders => {s with m_daoForkHeaders}
  | .warpData => some ((s.m_requestedChunks.lookup peerID).elim s fun askedHash => {s with
      m_neededChunks := s.m_neededChunks ++ [askedHash]
      m_requestedChunks := s.m_requestedChunks.erase peerID})
  | .nothing => some s

def onDisconnect (s : WarpCapability) : Option WarpCapability :=
  (onPeerDisconnect peerID (s.peer peerID).m_asking (s.setPeer peerID (s.peer peerID))).map
    fun s => {s with handler := .erase peerID}

/-- The handler behind its `push` or its `yield`. -/
def resume (s : WarpCapability) : Option WarpCapability :=
  match s.handler with
  | .next => none
  | .push peerID =>
    if s.m_freePeers.length < params.room then
      some {s with m_freePeers := s.m_freePeers ++ [peerID], handler := .next}
    else none
  | .erase peerID =>
    some {s with m_peers := Function.update s.m_peers peerID none, handler := .next}

/-! ### Validation -/

def verifyDaoChallengeResponse (r : RLPView) : Except HeaderException Bool := do
  if (← (itemCount r.enough r).mapError .rlp) ≠ 1 then return false
  let info ← BlockHeader.construct (← (item r 0).mapError .rlp).content .headerData H256.zero
  return info.m_number.toInt = params.m_daoForkBlock ∧ info.m_extraData =
    [0x64, 0x61, 0x6f, 0x2d, 0x68, 0x61, 0x72, 0x64, 0x2d, 0x66, 0x6f, 0x72, 0x6b]

/-- What a fiber of `validatePeer` comes to: the state, and where it goes on if it has not ended. -/
abbrev Validated := WarpCapability × Option Validating

/-- `promises[peerID].get_future()`; it can be taken once. -/
def getFuture (promises : NodeID → Option Promise) : Option (NodeID → Option Promise) :=
  let p := (promises peerID).getD {}
  if p.retrieved then none
  else some (Function.update promises peerID (some {p with retrieved := true}))

/-- `get`, and the promise is erased. -/
def getResult (promises : NodeID → Option Promise) : Option (Option Bytes) :=
  promises peerID >>= Promise.result

/-- The snapshot of this peer is the one to download. -/
def acceptManifest (manifestBytes : Bytes) (snapshotHash : H256) (s : WarpCapability) :
    Option Validated :=
  if s.m_manifest.isSome then none
  else some ({s with m_syncingSnapshotHash := snapshotHash, m_manifest := some manifestBytes},
    some .push)

def onManifest (manifestBytes : Bytes) (s : WarpCapability) : Option Validated := do
  let manifestRlp ← (rlpOf manifestBytes).toOption
  if ← (validateManifest manifestRlp).toOption then
    let snapshotHash ← (snapshotBlockHash manifestRlp).toOption
    if s.m_syncingSnapshotHash ≠ H256.zero then
      if snapshotHash = s.m_syncingSnapshotHash then return (s, some .push)
      else return (s.disablePeer peerID, none)
    else if params.m_daoForkBlock ≠ 0 then
      let s := s.requestBlockHeaders peerID
      let m_daoForkHeaders ← getFuture peerID s.m_daoForkHeaders
      return ({s with m_daoForkHeaders},
        some (.waitForDaoForkBlockResponse manifestBytes snapshotHash))
    else s.acceptManifest manifestBytes snapshotHash
  else return (s.disablePeer peerID, none)

def onDaoForkBlock (manifestBytes : Bytes) (snapshotHash : H256) (headerBytes : Bytes)
    (s : WarpCapability) : Option Validated := do
  let headerRlp ← (rlpOf headerBytes).toOption
  if ← (verifyDaoChallengeResponse params headerRlp).toOption then
    s.acceptManifest manifestBytes snapshotHash
  else return (s.disablePeer peerID, none)

/-- `validatePeer` up to its next wait. -/
def validatePeer (s : WarpCapability) : Validating → Option Validated
  | .start =>
    match s.validateStatus params peerID with
    | (false, s) => some (s, none)
    | (true, s) => (getFuture peerID s.m_manifests).map fun m_manifests =>
      ({s.requestManifest peerID with m_manifests}, some .waitForManifestResponse)
  | .waitForManifestResponse => do
    let result ← getResult peerID s.m_manifests
    let s := {s with m_manifests := Function.update s.m_manifests peerID none}
    match result with
    | none | some [] => return (s, none)
    | some manifestBytes => s.onManifest params peerID manifestBytes
  | .waitForDaoForkBlockResponse manifestBytes snapshotHash => do
    let result ← getResult peerID s.m_daoForkHeaders
    let s := {s with m_daoForkHeaders := Function.update s.m_daoForkHeaders peerID none}
    match result with
    | none | some [] => return (s, none)
    | some headerBytes => s.onDaoForkBlock params peerID manifestBytes snapshotHash headerBytes
  | .push =>
    if s.m_freePeers.length < params.room then
      some ({s with m_freePeers := s.m_freePeers ++ [peerID]}, none)
    else none

def validate (i : ℕ) (s : WarpCapability) : Option WarpCapability := do
  let (peerID, at_) ← s.validating[i]?
  let (s, next) ← s.validatePeer params peerID at_
  return {s with validating := next.elim (s.validating.eraseIdx i) fun v =>
    s.validating.set i (peerID, v)}

/-! ### Downloading -/

/-- The head of the loop. -/
def nextChunk (s : WarpCapability) : WarpCapability :=
  {s with m_downloadFiber := some (s.m_neededChunks.head?.elim .finished .pop)}

/-- `downloadChunks` up to its next wait, a turn of the inner loop at a time. -/
def downloadChunks (s : WarpCapability) : Option WarpCapability :=
  match s.m_downloadFiber with
  | none | some .finished => none
  | some .start => do
    let m_neededChunks ← (chunkHashes (← s.m_manifest)).toOption
    return nextChunk {s with m_neededChunks}
  | some (.pop chunkHash) =>
    match s.m_freePeers with
    | [] => none
    | peerID :: m_freePeers =>
      match requestData peerID {s with m_freePeers} with
      | (false, s) => some s
      | (true, s) => some (nextChunk {s with
          m_requestedChunks := s.m_requestedChunks.insert peerID chunkHash
          m_neededChunks := s.m_neededChunks.tail})

/-! ### Steps -/

inductive Event where
  | connect (peerID : NodeID)
  | packet (peerID : NodeID) (type : WarpPacket) (r : RLPView)
  | disconnect (peerID : NodeID)
  /-- The handler of the last packet goes on. -/
  | resume
  /-- A fiber of `validatePeer` goes on. -/
  | validate (i : ℕ)
  | download

def step (s : WarpCapability) : Event → Option WarpCapability
  | .connect peerID => if s.handler = .next then some (s.onConnect peerID) else none
  | .packet peerID type r => if s.handler = .next then some (s.readPacket peerID type r) else none
  | .disconnect peerID => if s.handler = .next then s.onDisconnect peerID else none
  | .resume => s.resume params
  | .validate i => s.validate params i
  | .download => s.downloadChunks

/-- A step of a run; the process may have ended. -/
def advance (s : Option WarpCapability) (e : Event) : Option WarpCapability :=
  s.bind fun s => s.step params e

def run (events : List Event) : Option WarpCapability := events.foldl (advance params) (some {})

end WarpCapability
end Aleth.Ethereum
