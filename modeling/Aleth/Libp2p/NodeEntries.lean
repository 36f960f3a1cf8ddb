import Aleth.Libp2p.NodeBuckets

/-! The entries of the node table can be reached.

Nodes are added with an endpoint that has an address and both ports, pings go to
such endpoints only, and an entry that is made for an answer has the endpoint
that was pinged. -/
namespace Aleth.P2p
open Devcore

/-- An entry with an id and an endpoint, whose times are words. -/
structure NodeEntry.Genuine (e : NodeEntry) : Prop where
  specified : e.node.endpoint.isSpecified = true
  named : e.node.id.isZero = false
  received : e.lastPongReceivedTime < 2 ^ 32
  sent : e.lastPongSentTime < 2 ^ 32

theorem NodeIPEndpoint.isSpecified_iff {e : NodeIPEndpoint} : e.isSpecified = true ↔
    e.address.is_unspecified = false ∧ e.udpPort ≠ 0 ∧ e.tcpPort ≠ 0 := by
  simp [isSpecified, and_assoc]

namespace NodeTable
variable {c : NodeTableConfig} {m : Moment} {s s' : NodeTable} {held : List Ref} {r : Ref}

structure Proper (s : NodeTable) : Prop where
  object : ∀ r < s.next, (s.objects r).Genuine
  bucket : ∀ {b r}, r ∈ s.m_buckets b → r < s.next
  listed : ∀ {id r}, s.m_allNodes id = some r → r < s.next
  pinged : ∀ {e v}, s.m_sentPings.find e = some v →
    (⟨e.address, e.port, v.tcpPort⟩ : NodeIPEndpoint).isSpecified = true ∧
      ∀ r, v.replacementNodeEntry = some r → r < s.next
  scheduled : ∀ n ∈ s.scheduled, n.endpoint.isSpecified = true

theorem proper_initial : Proper initial where
  object := nofun
  bucket := nofun
  listed := nofun
  pinged := nofun
  scheduled := nofun

namespace Proper

/-! ### Entries -/

theorem log (h : Proper s) (x : Happening) : Proper (s.log x) := { h with }

theorem allocate (h : Proper s) {e : NodeEntry} (he : e.Genuine) : Proper (s.allocate e).2 where
  object r hr := by
    show (Function.update s.objects s.next e r).Genuine
    by_cases hnew : r = s.next
    · rw [hnew, Function.update_self]
      exact he
    · rw [Function.update_of_ne hnew]
      exact h.object r (lt_of_le_of_ne (Nat.le_of_lt_succ hr) hnew)
  bucket hr := Nat.lt_succ_of_lt (h.bucket hr)
  listed hr := Nat.lt_succ_of_lt (h.listed hr)
  pinged hv := ⟨(h.pinged hv).1, fun r hr => Nat.lt_succ_of_lt ((h.pinged hv).2 r hr)⟩
  scheduled := h.scheduled

theorem setEntry (h : Proper s) {e : NodeEntry} (he : e.Genuine) : Proper (s.setEntry r e) :=
  { h with
    object := fun x hx => by
      show (Function.update s.objects r e x).Genuine
      by_cases hxr : x = r
      · rw [hxr, Function.update_self]
        exact he
      · rw [Function.update_of_ne hxr]
        exact h.object x hx }

/-! ### Pings -/

theorem ping (h : Proper s) {n : Node} {o : Option Ref} (hn : n.endpoint.isSpecified = true)
    (ho : ∀ r, o = some r → r < s.next) : Proper (s.ping m n o) := by
  unfold NodeTable.ping
  split
  · exact h
  · split
    · exact h
    · exact { h with
        pinged := fun {e v} hv => by
          rw [SortedMap.find_insert] at hv
          split at hv
          case isTrue he =>
            cases hv
            subst he
            exact ⟨hn, ho⟩
          case isFalse => exact h.pinged hv }

theorem evict (h : Proper s) {e : NodeEntry} (he : e.Genuine) (hr : r < s.next) :
    Proper (s.evict m e r) := by
  unfold NodeTable.evict
  split
  · exact h
  · apply log
    apply h.ping he.specified
    intro x hx
    cases hx
    exact hr

/-! ### Buckets -/

theorem setBucket (h : Proper s) {b : Fin s_bins} {nodes : List Ref}
    (hnodes : ∀ r ∈ nodes, r < s.next) : Proper (s.setBucket b nodes) :=
  { h with
    bucket := fun hr => by
      rw [mem_setBucket] at hr
      split at hr
      case isTrue => exact hnodes _ hr
      case isFalse => exact h.bucket hr }

theorem insertNode (h : Proper s) (hr : r < s.next) : Proper (s.insertNode r) :=
  { h with
    listed := fun {id x} hx => by
      have hx : (if id = (s.objects r).id ∧ s.m_allNodes id = none then some r
        else s.m_allNodes id) = some x := hx
      split at hx
      case isTrue =>
        cases hx
        exact hr
      case isFalse => exact h.listed hx }

theorem addToBucket (h : Proper s) {b : Fin s_bins} {nodes : List Ref}
    (hnodes : ∀ r ∈ nodes, r < s.next) (hr : r < s.next) : Proper (s.addToBucket b nodes r) := by
  apply log
  have hset : Proper (s.setBucket b (nodes ++ [r])) := by
    apply h.setBucket
    intro x hx
    rcases List.mem_append.mp hx with hx | hx
    · exact hnodes x hx
    · rw [List.mem_singleton.mp hx]
      exact hr
  exact hset.insertNode hr

theorem noteInBucket (h : Proper s) {b : Fin s_bins} (hr : r < s.next) :
    Proper (s.noteInBucket m held r b) := by
  unfold NodeTable.noteInBucket
  split
  · apply h.setBucket
    intro x hx
    rcases List.mem_append.mp hx with hx | hx
    · exact h.bucket (List.mem_of_mem_erase hx)
    · rw [List.mem_singleton.mp hx]
      exact hr
  · split
    · exact h.addToBucket (fun x hx => h.bucket hx) hr
    · split
      · exact h
      case h_2 front rest hb =>
        have hfront : front < s.next := h.bucket (b := b) (hb ▸ List.mem_cons_self)
        split
        · exact h.evict (h.object front hfront) hr
        · exact h.addToBucket
            (fun x hx => h.bucket (b := b) (hb ▸ List.mem_cons_of_mem front hx)) hr

theorem next_ping (n : Node) (o : Option Ref) : (s.ping m n o).next = s.next := by
  unfold NodeTable.ping
  split
  · rfl
  · split <;> rfl

theorem next_noteInBucket (b : Fin s_bins) : (s.noteInBucket m held r b).next = s.next := by
  unfold NodeTable.noteInBucket
  split
  · rfl
  · split
    · rfl
    · split
      · rfl
      · split
        · unfold NodeTable.evict
          split
          · rfl
          · exact next_ping _ _
        · rfl

theorem noteActiveNode [Sha3] (h : Proper s) (hr : r < s.next)
    (hs : s.noteActiveNode c m held r = some s') : Proper s' ∧ s'.next = s.next := by
  unfold NodeTable.noteActiveNode at hs
  split at hs
  · cases hs
    exact ⟨h, rfl⟩
  · split at hs
    · cases hs
      exact ⟨h, rfl⟩
    · split at hs
      · cases hs
        exact ⟨h, rfl⟩
      · obtain ⟨b, -, rfl⟩ := Option.map_eq_some_iff.mp hs
        exact ⟨h.noteInBucket hr, next_noteInBucket b⟩

theorem dropNode [Sha3] (h : Proper s) (hs : s.dropNode c m r = some s') :
    Proper s' ∧ s'.next = s.next ∧ s'.m_sentPings = s.m_sentPings := by
  obtain ⟨b, -, rfl⟩ := Option.map_eq_some_iff.mp hs
  have hset : Proper (s.setBucket b ((s.m_buckets b).filter (· ≠ r))) :=
    h.setBucket fun x hx => h.bucket (List.mem_of_mem_filter hx)
  have hlisted : ∀ {id x}, Function.update s.m_allNodes (s.objects r).id none id = some x →
      x < s.next := by
    intro id x hx
    by_cases hid : id = (s.objects r).id
    · rw [hid, Function.update_self] at hx
      cases hx
    · rw [Function.update_of_ne hid] at hx
      exact h.listed hx
  exact ⟨⟨h.object, hset.bucket, hlisted, h.pinged, h.scheduled⟩, rfl, rfl⟩

theorem erasePing (h : Proper s) (e : UdpEndpoint) :
    Proper {s with m_sentPings := s.m_sentPings.erase e} :=
  { h with
    pinged := fun {e' v} hv => by
      rw [SortedMap.find_erase] at hv
      split at hv
      case isTrue => cases hv
      case isFalse => exact h.pinged hv }

/-! ### Adding nodes -/

theorem valid_node {n : Node} (hn : c.isValidNode n = true) :
    n.endpoint.isSpecified = true ∧ n.id.isZero = false := by
  simp only [NodeTableConfig.isValidNode, Bool.and_eq_true, Bool.not_eq_true'] at hn
  exact ⟨hn.1.1.1, hn.1.1.2⟩

theorem schedulePing (h : Proper s) {n : Node} (hn : n.endpoint.isSpecified = true) :
    Proper (s.schedulePing n) :=
  { h with
    scheduled := fun x hx => by
      rcases List.mem_append.mp hx with hx | hx
      · exact h.scheduled x hx
      · rw [List.mem_singleton.mp hx]
        exact hn }

theorem addNode (h : Proper s) (n : Node) : Proper (s.addNode c m n).2 := by
  unfold NodeTable.addNode
  split
  · exact h
  case isFalse hvalid =>
    split
    · exact h.schedulePing (valid_node (c := c) (by simpa using hvalid)).1
    · exact h

theorem addNodes (h : Proper s) (l : List Node) :
    Proper (l.foldl (fun s n => (s.addNode c m n).2) s) := by
  induction l generalizing s with
  | nil => exact h
  | cons n l ih => exact ih (h.addNode n)

theorem next_addNode (n : Node) : (s.addNode c m n).2.next = s.next := by
  unfold NodeTable.addNode
  split
  · rfl
  · split <;> rfl

theorem next_addNodes (l : List Node) :
    (l.foldl (fun s n => (s.addNode c m n).2) s).next = s.next := by
  induction l generalizing s with
  | nil => rfl
  | cons n l ih => exact ih.trans (next_addNode n)

theorem genuine_known {n : Node} (hn : c.isValidNode n = true) (received sent : UInt32) :
    (⟨n, received.toNat, sent.toNat⟩ : NodeEntry).Genuine :=
  ⟨(valid_node hn).1, (valid_node hn).2, received.toNat_lt, sent.toNat_lt⟩

theorem addKnownNode [Sha3] (h : Proper s) {n : Node} {received sent : UInt32}
    (hs : s.addKnownNode c m n received sent = some s') : Proper s' := by
  unfold NodeTable.addKnownNode at hs
  split at hs
  · cases hs
    exact h
  case isFalse hvalid =>
    have hgenuine := genuine_known (by simpa using hvalid) received sent
    split at hs
    · cases hs
      exact h
    · dsimp only at hs
      split at hs
      · exact (noteActiveNode (h.allocate hgenuine) (Nat.lt_succ_self s.next) hs).1
      · cases hs
        exact h.schedulePing hgenuine.specified

/-! ### Packets -/

theorem genuine_update (h : Proper s) {source : UdpEndpoint} {tcpPort : UInt16} {sourceid : NodeID}
    (hendpoint : (⟨source.address, source.port, tcpPort⟩ : NodeIPEndpoint).isSpecified = true)
    (hid : sourceid.isZero = false) :
    Proper (s.updateEntry m source tcpPort sourceid).2 ∧
      (s.updateEntry m source tcpPort sourceid).1 <
        (s.updateEntry m source tcpPort sourceid).2.next := by
  have hzero : (0 : ℕ) < 2 ^ 32 := by norm_num
  unfold NodeTable.updateEntry
  dsimp only
  split
  · exact ⟨h.allocate ⟨hendpoint, hid, m.seconds.toNat_lt, hzero⟩, Nat.lt_succ_self _⟩
  case h_2 r hr =>
    have hlt := h.listed hr
    have hold := h.object r hlt
    refine ⟨h.setEntry ?_, hlt⟩
    split
    · exact ⟨hendpoint, hold.named, m.seconds.toNat_lt, hold.sent⟩
    · exact ⟨hold.specified, hold.named, m.seconds.toNat_lt, hold.sent⟩

theorem dropChanged [Sha3] (h : Proper s) {sourceid nodeID : NodeID}
    (hs : s.dropChanged c m sourceid nodeID = some s') :
    Proper s' ∧ s'.m_sentPings = s.m_sentPings := by
  unfold NodeTable.dropChanged at hs
  split at hs
  · split at hs
    · cases hs
      exact ⟨h, rfl⟩
    · exact ⟨(h.dropNode hs).1, (h.dropNode hs).2.2⟩
  · cases hs
    exact ⟨h, rfl⟩

/-- What a handler leaves: the entry it hands over was made. -/
def Leaves (o : Option Ref) (s : NodeTable) : Prop := Proper s ∧ ∀ r, o = some r → r < s.next

theorem leaves_none (h : Proper s) : Leaves none s := ⟨h, nofun⟩

theorem leaves_some (h : Proper s) (hr : r < s.next) : Leaves (some r) s := by
  refine ⟨h, fun x hx => ?_⟩
  cases hx
  exact hr

theorem handlePong [Sha3] (h : Proper s) {source : UdpEndpoint} {sourceid : NodeID} {echo : H256}
    {o : Option Ref} (hid : sourceid.isZero = false)
    (hs : s.handlePong c m source sourceid echo = some (o, s')) : Leaves o s' := by
  unfold NodeTable.handlePong at hs
  split at hs
  · cases hs
    exact leaves_none h
  case h_2 v hv =>
    split at hs
    · cases hs
      exact leaves_none h
    · obtain ⟨t, ht, hs⟩ := Option.map_eq_some_iff.mp hs
      obtain ⟨hproper, hpings⟩ := h.dropChanged ht
      obtain ⟨hupdate, hlt⟩ := hproper.genuine_update (m := m) (h.pinged hv).1 hid
      cases hs
      exact leaves_some (hupdate.erasePing source) hlt

theorem known_lt (h : Proper s) {source : UdpEndpoint} {sourceid : NodeID}
    (hr : s.knownSource source sourceid = some r) : r < s.next :=
  h.listed (knownSource_listed hr)

theorem handleNeighbours (h : Proper s) {source : UdpEndpoint} {sourceid : NodeID} {l : List Node} :
    Leaves (s.handleNeighbours c m source sourceid l).1
      (s.handleNeighbours c m source sourceid l).2 := by
  unfold NodeTable.handleNeighbours
  split
  · exact leaves_none h
  case h_2 r hr =>
    have hlt := h.known_lt hr
    have hcut : ∀ l, Proper {s with m_sentFindNodes := l} := fun l => { h with }
    dsimp only
    split
    · exact leaves_some (hcut _) hlt
    · refine leaves_some ((hcut _).addNodes l) ?_
      show r < (l.foldl (fun (s : NodeTable) n => (s.addNode c m n).2) _).next
      rw [next_addNodes]
      exact hlt

theorem sendNeighbours (h : Proper s) {source : UdpEndpoint} {sourceid : NodeID} (k : ℕ)
    (nearest : List Node) : Proper (sendNeighbours m source sourceid k nearest s) ∧
      (NodeTable.sendNeighbours m source sourceid k nearest s).next = s.next := by
  induction k generalizing s nearest with
  | zero => exact ⟨h, rfl⟩
  | succ k ih =>
    unfold NodeTable.sendNeighbours
    split
    · exact ⟨h, rfl⟩
    · exact ih (h.log _) _

theorem proven_lt (h : Proper s) {source : UdpEndpoint} {sourceid : NodeID}
    (hr : s.provenSource m source sourceid = some r) : r < s.next :=
  h.listed (provenSource_listed hr)

theorem handleFindNode [Sha3] (h : Proper s) {source : UdpEndpoint} {sourceid target : NodeID} :
    Leaves (s.handleFindNode m source sourceid target).1
      (s.handleFindNode m source sourceid target).2 := by
  unfold NodeTable.handleFindNode
  split
  · exact leaves_none h
  case h_2 r hr =>
    obtain ⟨hsent, hnext⟩ := @sendNeighbours m s h source sourceid _
      ((s.nearestNodeEntries target).map fun r => (s.objects r).node)
    exact leaves_some hsent ((h.proven_lt hr).trans_eq hnext.symm)

theorem handlePingNode (h : Proper s) {source : UdpEndpoint} {sourceid : NodeID} {echo : H256}
    {pingSource : NodeIPEndpoint} :
    Leaves (s.handlePingNode c m source sourceid echo pingSource).1
      (s.handlePingNode c m source sourceid echo pingSource).2 := by
  have hadded := h.addNode (c := c) (m := m) ⟨sourceid, ⟨source.address, source.port,
    pingSource.tcpPort⟩⟩
  unfold NodeTable.handlePingNode
  dsimp only
  generalize s.addNode c m _ = x at hadded ⊢
  split
  · exact leaves_none hadded
  · split
    · exact leaves_none (hadded.log _)
    case h_2 r hr =>
      have hlt : r < x.2.next := hadded.listed hr
      have hold := hadded.object r hlt
      exact leaves_some ((hadded.log _).setEntry
        ⟨hold.specified, hold.named, hold.received, m.seconds.toNat_lt⟩) hlt

theorem handlePacket [Sha3] (h : Proper s) {source : UdpEndpoint} {packet : DiscoveryDatagram}
    {o : Option Ref} (hid : packet.sourceid.isZero = false)
    (hs : s.handlePacket c m source packet = some (o, s')) : Leaves o s' := by
  unfold NodeTable.handlePacket at hs
  split at hs
  · exact h.handlePong hid hs
  · obtain ⟨rfl, rfl⟩ := eq_of_some_eq hs
    exact h.handleNeighbours
  · obtain ⟨rfl, rfl⟩ := eq_of_some_eq hs
    exact h.handleFindNode
  · obtain ⟨rfl, rfl⟩ := eq_of_some_eq hs
    exact h.handlePingNode
  · obtain ⟨rfl, rfl⟩ := eq_of_some_eq hs
    unfold NodeTable.handleENRRequest
    split
    · exact leaves_none h
    case h_2 r hr => exact leaves_some (h.log _) (h.proven_lt hr)
  · obtain ⟨rfl, rfl⟩ := eq_of_some_eq hs
    exact ⟨h, fun r hr => h.known_lt hr⟩

theorem onPacketReceived [Sha3] (h : Proper s) {source : UdpEndpoint} {packet : DiscoveryDatagram}
    (hid : packet.sourceid.isZero = false)
    (hs : s.onPacketReceived c m source packet = some s') : Proper s' := by
  unfold NodeTable.onPacketReceived at hs
  dsimp only at hs
  split at hs
  · cases hs
    exact h.log _
  · obtain ⟨⟨o, t⟩, ht, hs⟩ := Option.bind_eq_some_iff.mp hs
    obtain ⟨hproper, hlt⟩ := (h.log _).handlePacket hid ht
    cases o with
    | none =>
      cases hs
      exact hproper
    | some r => exact (hproper.noteActiveNode (hlt r rfl) hs).1

/-! ### Timers -/

theorem nearest_lt [Sha3] (h : Proper s) {target : NodeID} (hr : r ∈ s.nearestNodeEntries target) :
    r < s.next := by
  obtain ⟨x, hx, rfl⟩ := List.mem_map.mp hr
  have hx := (mem_foldl_keepNearest hx).resolve_right List.not_mem_nil
  obtain ⟨b, -, hb⟩ := List.mem_flatMap.mp (List.mem_of_mem_filter hx)
  exact h.bucket hb

theorem askNearest (h : Proper s) {target : NodeID} {l : List Ref} (tried : List Ref) (count : ℕ)
    (hl : ∀ r ∈ l, r < s.next) : Proper (askNearest m target l tried count s).2.2 := by
  induction l generalizing tried count s with
  | nil => exact h
  | cons r l ih =>
    have hrest : ∀ x ∈ l, x < s.next := fun x hx => hl x (List.mem_cons_of_mem r hx)
    have hentry := h.object r (hl r List.mem_cons_self)
    unfold NodeTable.askNearest
    split
    · exact ih h _ _ hrest
    · split
      · have hnone : ∀ r, (none : Option Ref) = some r → r < s.next := by
          intro r hr
          cases hr
        apply ih (h.ping hentry.specified hnone)
        intro x hx
        rw [next_ping]
        exact hrest x hx
      · have hsent : ∀ l, Proper {s with m_sentFindNodes := l} := fun l => { h with }
        dsimp only
        split
        · exact (hsent _).log _
        · exact ih ((hsent _).log _) _ _ hrest

theorem doDiscoveryRound [Sha3] (h : Proper s) (target : NodeID) (round : ℕ) (tried : List Ref) :
    Proper (s.doDiscoveryRound m target round tried) := by
  have hask : Proper (NodeTable.askNearest m target (s.nearestNodeEntries target) tried 0 s).2.2 :=
    h.askNearest tried 0 fun r hr => h.nearest_lt hr
  unfold NodeTable.doDiscoveryRound
  split
  · exact h
  · dsimp only
    split
    · exact { hask with }
    · exact { hask with }

theorem dropPinged [Sha3] (h : Proper s) {v : NodeValidation} {acts acts' : List Ref}
    (hv : ∀ r, v.replacementNodeEntry = some r → r < s.next) (hacts : ∀ r ∈ acts, r < s.next)
    (hs : s.dropPinged c m v acts = some (acts', s')) :
    Proper s' ∧ s'.next = s.next ∧ s'.m_sentPings = s.m_sentPings ∧ ∀ r ∈ acts', r < s.next := by
  unfold NodeTable.dropPinged at hs
  split at hs
  · cases hs
    exact ⟨h, rfl, rfl, hacts⟩
  · obtain ⟨t, ht, hs⟩ := Option.map_eq_some_iff.mp hs
    cases hs
    obtain ⟨hproper, hnext, hpings⟩ := h.dropNode ht
    refine ⟨hproper, hnext, hpings, fun r hr => ?_⟩
    rcases List.mem_append.mp hr with hr | hr
    · exact hacts r hr
    · exact hv r (Option.mem_toList.mp hr)

theorem dropTimedOut [Sha3] (h : Proper s) {l : List (UdpEndpoint × NodeValidation)}
    {acts acts' : List Ref}
    (hl : ∀ x ∈ l, ∀ r, x.2.replacementNodeEntry = some r → r < s.next)
    (hacts : ∀ r ∈ acts, r < s.next) (hs : dropTimedOut c m l acts s = some (acts', s')) :
    Proper s' ∧ ∀ r ∈ acts', r < s'.next := by
  induction l generalizing acts s with
  | nil =>
    cases hs
    exact ⟨h, hacts⟩
  | cons x l ih =>
    have hrest : ∀ y ∈ l, ∀ r, y.2.replacementNodeEntry = some r → r < s.next :=
      fun y hy => hl y (List.mem_cons_of_mem x hy)
    unfold NodeTable.dropTimedOut at hs
    split at hs
    · obtain ⟨⟨acts₁, t⟩, ht, hs⟩ := Option.bind_eq_some_iff.mp hs
      obtain ⟨hproper, hnext, -, hacts₁⟩ := h.dropPinged (hl x List.mem_cons_self) hacts ht
      apply ih ((hproper.erasePing x.1).log _) _ _ hs
      · intro y hy r hr
        exact (hrest y hy r hr).trans_eq hnext.symm
      · intro r hr
        exact (hacts₁ r hr).trans_eq hnext.symm
    · exact ih h hrest hacts hs

theorem activate [Sha3] (h : Proper s) {l : List Ref} (hl : ∀ r ∈ l, r < s.next)
    (hs : activate c m held l s = some s') : Proper s' := by
  induction l generalizing s with
  | nil =>
    cases hs
    exact h
  | cons r l ih =>
    obtain ⟨t, ht, hs⟩ := Option.bind_eq_some_iff.mp hs
    obtain ⟨hproper, hnext⟩ := h.noteActiveNode (hl r List.mem_cons_self) ht
    apply ih hproper _ hs
    intro x hx
    exact (hl x (List.mem_cons_of_mem r hx)).trans_eq hnext.symm

theorem doHandleTimeouts [Sha3] (h : Proper s) (hs : s.doHandleTimeouts c m = some s') :
    Proper s' := by
  obtain ⟨⟨acts, t⟩, ht, hs⟩ := Option.bind_eq_some_iff.mp hs
  have hpings : ∀ x ∈ s.m_sentPings.entries, ∀ r, x.2.replacementNodeEntry = some r → r < s.next :=
    fun x hx => (h.pinged (SortedMap.find_eq_some_iff.mpr hx)).2
  have hnone : ∀ r ∈ ([] : List Ref), r < s.next := nofun
  obtain ⟨hproper, hacts⟩ := h.dropTimedOut hpings hnone ht
  exact hproper.activate hacts hs

/-! ### Runs -/

/-- Packets are from a key, as what recovers it makes sure. -/
def Signed : Event → Prop
  | .packet _ packet => packet.sourceid.isZero = false
  | _ => True

theorem step [Sha3] {e : Event} (h : Proper s) (he : Signed e) (hs : s.step c m e = some s') :
    Proper s' := by
  cases e with
  | packet source packet => exact h.onPacketReceived he hs
  | scheduledPing i =>
    unfold NodeTable.step at hs
    dsimp only at hs
    split at hs
    · cases hs
      exact h
    case h_2 n hn =>
      cases hs
      have hcut : Proper {s with scheduled := s.scheduled.eraseIdx i} :=
        { h with scheduled := fun x hx => h.scheduled x (List.mem_of_mem_eraseIdx hx) }
      apply hcut.ping (h.scheduled n (List.mem_of_getElem? hn))
      intro r hr
      cases hr
  | discoveryTimer randNodeId =>
    cases hs
    unfold NodeTable.onDiscoveryTimer
    split
    · exact h.doDiscoveryRound _ _ _
    · exact h.doDiscoveryRound _ _ _
  | timeoutsTimer => exact h.doHandleTimeouts hs
  | addNode n =>
    cases hs
    exact h.addNode n
  | addKnownNode n received sent => exact h.addKnownNode hs
  | stop =>
    cases hs
    exact { h with }

theorem runOf [Sha3] {l : List (Moment × Event)} (h : Proper s) (hl : ∀ x ∈ l, Signed x.2)
    (hs : runOf c s l = some s') : Proper s' := by
  induction l generalizing s with
  | nil =>
    cases hs
    exact h
  | cons x l ih =>
    obtain ⟨t, ht, hs⟩ := Option.bind_eq_some_iff.mp hs
    exact ih (h.step (hl x List.mem_cons_self) ht)
      (fun y hy => hl y (List.mem_cons_of_mem x hy)) hs

end Proper
end NodeTable
end Aleth.P2p
