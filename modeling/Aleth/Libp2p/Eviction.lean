import Aleth.Libp2p.EndpointProof

/-! Entries leave the table for a ping to where they are, or for one to somewhere else.

A ping is kept by the endpoint it goes to and its node is dropped by id, so a
ping of a known node to another endpoint, which a Neighbours packet is enough
for, costs the node its entry. Where every ping that times out or is answered
with another key belongs to an entry at that endpoint, entries are dropped for
pings to their endpoints only (`runOf_drops_justified`). -/
namespace Aleth.P2p
open Devcore

/-! ### Drops in a trace -/

/-- A ping to the entry's endpoint timed out, or was just answered with a different key. -/
def Justified (c : NodeTableConfig) (time : ℕ) (e : NodeEntry) (past : List Happening) : Prop :=
  (∃ hash sent, Outstanding e.endpoint.udp hash sent past ∧
    sent + c.m_requestTimeToLive < time) ∨
  ∃ seconds p before hash sent, past = .received seconds e.endpoint.udp p :: before ∧
    p.payload = .Pong hash ∧ p.sourceid ≠ e.id ∧ Outstanding e.endpoint.udp hash sent before

def DropsJustified (c : NodeTableConfig) : List Happening → Prop
  | [] => True
  | .nodeEntryDropped time e :: past => Justified c time e past ∧ DropsJustified c past
  | _ :: past => DropsJustified c past

/-- Anything but a drop. -/
def Happening.Spares : Happening → Prop
  | .nodeEntryDropped .. => False
  | _ => True

theorem Happening.Quiet.spares {x : Happening} (h : x.Quiet) : x.Spares := by
  cases x with
  | nodeEntryDropped => exact h.elim
  | _ => trivial

theorem DropsJustified.append {c : NodeTableConfig} {trace new : List Happening}
    (h : DropsJustified c trace) (hn : ∀ x ∈ new, x.Spares) : DropsJustified c (new ++ trace) := by
  induction new with
  | nil => exact h
  | cons x new ih =>
    have htail := ih fun y hy => hn y (List.mem_cons_of_mem _ hy)
    have hx := hn x List.mem_cons_self
    cases x with
    | nodeEntryDropped => exact hx.elim
    | _ => exact htail

theorem DropsJustified.drop {c : NodeTableConfig} {trace newer past : List Happening} {time : ℕ}
    {e : NodeEntry} (h : DropsJustified c trace)
    (ht : trace = newer ++ .nodeEntryDropped time e :: past) : Justified c time e past := by
  subst ht
  induction newer with
  | nil => exact h.1
  | cons x newer ih =>
    cases x with
    | nodeEntryDropped => exact ih h.2
    | _ => exact ih h

/-- An outstanding ping was sent. -/
theorem Outstanding.sent {dest : UdpEndpoint} {hash : H256} {time : ℕ} {trace : List Happening}
    (h : Outstanding dest hash time trace) : .pinged time dest hash ∈ trace := by
  induction trace with
  | nil => exact h.elim
  | cons x trace ih =>
    rcases h with rfl | ⟨-, h⟩
    · exact List.mem_cons_self
    · exact List.mem_cons_of_mem _ (ih h)

/-! ### Pings of the entries where they are -/

def NodeValidation.TimedOut (c : NodeTableConfig) (m : Moment) (v : NodeValidation) : Prop :=
  v.pingSentTime + c.m_requestTimeToLive < m.steady

namespace NodeTable

/-- A ping of the entry's node to the entry's endpoint timed out too. -/
def TimedOutThere (c : NodeTableConfig) (m : Moment) (s : NodeTable)
    (pings : List (UdpEndpoint × NodeValidation)) (r : Ref) : Prop :=
  ∃ x ∈ pings, x.1 = (s.objects r).endpoint.udp ∧ x.2.nodeID = (s.objects r).id ∧
    x.2.TimedOut c m

/-- Of the pings, what times out for an entry times out at its endpoint. -/
def PingedThere (c : NodeTableConfig) (m : Moment) (s : NodeTable)
    (pings : List (UdpEndpoint × NodeValidation)) : Prop :=
  ∀ x ∈ pings, x.2.TimedOut c m → ∀ r, s.m_allNodes x.2.nodeID = some r →
    TimedOutThere c m s pings r

/-- The entries that the event drops were pinged where they are. -/
def Careful (c : NodeTableConfig) (m : Moment) (s : NodeTable) : Event → Prop
  | .packet source p => ∀ v r, p.isExpired m.seconds.toNat = false →
    s.m_sentPings.find source = some v → p.payload = .Pong v.pingHash → p.sourceid ≠ v.nodeID →
    s.m_allNodes v.nodeID = some r →
    (s.objects r).endpoint.udp = source ∨ TimedOutThere c m s s.m_sentPings.entries r
  | .timeoutsTimer => PingedThere c m s s.m_sentPings.entries
  | _ => True

section Drops
variable [Sha3] {c : NodeTableConfig} {m : Moment} {s s' : NodeTable} {hands held : List Ref}
  {r : Ref} {P : Prop} {F : NodeID → Prop}

/-- Every event of a run finds its entries so. -/
def CarefulRun (c : NodeTableConfig) : NodeTable → List (Moment × Event) → Prop
  | _, [] => True
  | s, (m, e) :: l => Careful c m s e ∧ ∀ s', s.step c m e = some s' → CarefulRun c s' l

/-! ### What does not drop -/

omit [Sha3] in
theorem drops_sends (h : DropsJustified c s.trace) (hs : Sends s s') :
    DropsJustified c s'.trace := by
  obtain ⟨new, ht, hn⟩ := hs.trace
  rw [ht]
  exact h.append fun x hx => (hn x hx).spares

omit [Sha3] in
theorem drops_sendNeighbours {source : UdpEndpoint} {sourceid : NodeID} (k : ℕ)
    (nearest : List Node) (h : DropsJustified c s.trace) :
    DropsJustified c (sendNeighbours m source sourceid k nearest s).trace := by
  induction k generalizing s nearest with
  | zero => exact h
  | succ k ih =>
    unfold NodeTable.sendNeighbours
    split
    · exact h
    · exact ih _ h

omit [Sha3] in
theorem drops_handlePingNode {source : UdpEndpoint} {sourceid : NodeID} {echo : H256}
    {pingSource : NodeIPEndpoint} (h : DropsJustified c s.trace) :
    DropsJustified c (s.handlePingNode c m source sourceid echo pingSource).2.trace := by
  unfold NodeTable.handlePingNode
  dsimp only
  have hadd := drops_sends h (sends_addNode (c := c) (m := m)
    ⟨sourceid, ⟨source.address, source.port, pingSource.tcpPort⟩⟩)
  generalize s.addNode c m ⟨sourceid, ⟨source.address, source.port, pingSource.tcpPort⟩⟩ = x
    at hadd ⊢
  split
  · exact hadd
  · split <;> exact hadd

theorem drops_handlePacket {source : UdpEndpoint} {packet : DiscoveryDatagram} {o : Option Ref}
    (h : DropsJustified c s.trace) (hpong : ∀ hash, packet.payload ≠ .Pong hash)
    (hs : s.handlePacket c m source packet = some (o, s')) : DropsJustified c s'.trace := by
  unfold NodeTable.handlePacket at hs
  split at hs
  case h_1 hp => exact absurd hp (hpong _)
  · obtain ⟨-, rfl⟩ := eq_of_some_eq hs
    unfold handleNeighbours
    split
    · exact h
    · have hcut : Sends s {s with
          m_sentFindNodes := s.m_sentFindNodes.filter (·.1 ≠ packet.sourceid)} :=
        .of_pings rfl rfl rfl [] rfl nofun
      dsimp only
      split
      · exact h
      · exact drops_sends h (hcut.trans (sends_addNodes _))
  · obtain ⟨-, rfl⟩ := eq_of_some_eq hs
    unfold handleFindNode
    split
    · exact h
    · exact drops_sendNeighbours _ _ h
  · obtain ⟨-, rfl⟩ := eq_of_some_eq hs
    exact drops_handlePingNode h
  · obtain ⟨-, rfl⟩ := eq_of_some_eq hs
    unfold handleENRRequest
    split <;> exact h
  · obtain ⟨-, rfl⟩ := eq_of_some_eq hs
    exact h

/-! ### What drops -/

omit [Sha3] in
/-- A ping that timed out where the entry is justifies the drop. -/
theorem justified_of_timedOut {pings : List (UdpEndpoint × NodeValidation)}
    (hb : Bonded P s) (hl : ∀ x ∈ pings, s.m_sentPings.find x.1 = some x.2)
    (hr : TimedOutThere c m s pings r) : Justified c m.steady (s.objects r) s.trace := by
  obtain ⟨x, hx, he, -, hlate⟩ := hr
  have hsent : Outstanding (s.objects r).endpoint.udp x.2.pingHash x.2.pingSentTime s.trace :=
    he ▸ hb.tracked (hl x hx)
  exact .inl ⟨_, _, hsent, hlate⟩

omit [Sha3] in
theorem updateEntry_trace (source : UdpEndpoint) (tcpPort : UInt16) (sourceid : NodeID) :
    (s.updateEntry m source tcpPort sourceid).2.trace = s.trace := by
  unfold NodeTable.updateEntry
  cases s.m_allNodes sourceid <;> rfl

theorem dropNode_trace (hs : s.dropNode c m r = some s') :
    s'.trace = .nodeEntryDropped m.steady (s.objects r) :: s.trace := by
  obtain ⟨b, -, rfl⟩ := Option.map_eq_some_iff.mp hs
  rfl

theorem dropNode_objects (hs : s.dropNode c m r = some s') : s'.objects = s.objects := by
  obtain ⟨b, -, rfl⟩ := Option.map_eq_some_iff.mp hs
  rfl

theorem dropNode_allNodes (hs : s.dropNode c m r = some s') :
    s'.m_allNodes = Function.update s.m_allNodes (s.objects r).id none := by
  obtain ⟨b, -, rfl⟩ := Option.map_eq_some_iff.mp hs
  rfl

/-- A Pong drops the node of its ping only if that was pinged where it is. -/
theorem drops_handlePong {source : UdpEndpoint} {p : DiscoveryDatagram} {echo : H256}
    {o : Option Ref} (h : DropsJustified c s.trace) (hb : Bonded P s) (hk : Kept c F s [])
    (hp : p.payload = .Pong echo) (hfresh : p.isExpired m.seconds.toNat = false)
    (hc : Careful c m s (.packet source p))
    (hs : (s.log (.received m.seconds.toNat source p)).handlePong c m source p.sourceid echo =
      some (o, s')) : DropsJustified c s'.trace := by
  unfold NodeTable.handlePong at hs
  split at hs
  case h_1 =>
    cases hs
    exact h
  case h_2 v hv =>
    have hv : s.m_sentPings.find source = some v := hv
    split at hs
    case isTrue =>
      cases hs
      exact h
    case isFalse hecho =>
      have hecho : echo = v.pingHash := not_not.mp hecho
      subst hecho
      obtain ⟨t, ht, he⟩ := Option.map_eq_some_iff.mp hs
      cases he
      show DropsJustified c (t.updateEntry m source v.tcpPort p.sourceid).2.trace
      rw [updateEntry_trace]
      unfold NodeTable.dropChanged at ht
      split at ht
      case isFalse =>
        cases ht
        exact h
      case isTrue hne =>
        split at ht
        case h_1 =>
          cases ht
          exact h
        case h_2 r hr =>
          have hr : s.m_allNodes v.nodeID = some r := hr
          rw [dropNode_trace ht]
          refine ⟨?_, h⟩
          show Justified c m.steady (s.objects r) (.received m.seconds.toNat source p :: s.trace)
          by_cases hthere : (s.objects r).endpoint.udp = source
          case pos =>
            have hid : p.sourceid ≠ (s.objects r).id := by
              rw [hk.id_eq hr]
              exact hne
            subst hthere
            exact .inr ⟨_, _, _, _, _, rfl, hp, hid, hb.tracked hv⟩
          case neg =>
            have hlate := (hc v r hfresh hv hp hne hr).resolve_left hthere
            obtain ⟨x, hx, he, -, hlate⟩ := hlate
            have hsent := hb.tracked (SortedMap.find_eq_some_iff.mpr hx)
            rw [he] at hsent
            have hopen : Outstanding (s.objects r).endpoint.udp x.2.pingHash x.2.pingSentTime
                (.received m.seconds.toNat source p :: s.trace) :=
              .inr ⟨fun hclosed => hthere hclosed.1.symm, hsent⟩
            exact .inl ⟨_, _, hopen, hlate⟩

theorem drops_onPacketReceived {source : UdpEndpoint} {packet : DiscoveryDatagram}
    (h : DropsJustified c s.trace) (hb : Bonded P s) (hk : Kept c F s [])
    (hc : Careful c m s (.packet source packet))
    (hs : s.onPacketReceived c m source packet = some s') : DropsJustified c s'.trace := by
  unfold NodeTable.onPacketReceived at hs
  dsimp only at hs
  split at hs
  case isTrue =>
    cases hs
    exact h
  case isFalse hfresh =>
    obtain ⟨⟨o, t⟩, ht, hs⟩ := Option.bind_eq_some_iff.mp hs
    have hd : DropsJustified c t.trace := by
      by_cases hpong : ∃ hash, packet.payload = .Pong hash
      · obtain ⟨hash, hp⟩ := hpong
        unfold NodeTable.handlePacket at ht
        rw [hp] at ht
        exact drops_handlePong h hb hk hp (Bool.eq_false_iff.mpr hfresh) hc ht
      · have hlog : DropsJustified c (s.log (.received m.seconds.toNat source packet)).trace := h
        exact drops_handlePacket hlog (fun hash hp => hpong ⟨hash, hp⟩) ht
    cases o with
    | none =>
      cases hs
      exact hd
    | some r => exact drops_sends hd (sends_noteActiveNode hs)

/-- A ping that timed out takes its own node only. -/
theorem drops_dropPinged {pings : List (UdpEndpoint × NodeValidation)} {endpoint : UdpEndpoint}
    {v : NodeValidation} {acts acts' : List Ref} {t : NodeTable} (h : DropsJustified c s.trace)
    (hb : Bonded P s) (hid : ∀ {id r}, s.m_allNodes id = some r → (s.objects r).id = id)
    (hl : ∀ x ∈ (endpoint, v) :: pings, s.m_sentPings.find x.1 = some x.2)
    (hlate : v.TimedOut c m) (hc : PingedThere c m s ((endpoint, v) :: pings))
    (ht : s.dropPinged c m v acts = some (acts', t)) :
    DropsJustified c t.trace ∧ (∀ {id r}, t.m_allNodes id = some r →
      id ≠ v.nodeID ∧ s.m_allNodes id = some r) ∧ t.objects = s.objects := by
  unfold NodeTable.dropPinged at ht
  split at ht
  case h_1 hnone =>
    cases ht
    have hnone : s.m_allNodes v.nodeID = none := hnone
    refine ⟨h, fun {id r} hr => ⟨?_, hr⟩, rfl⟩
    rintro rfl
    exact absurd (hr.symm.trans hnone) (by simp)
  case h_2 r hr =>
    obtain ⟨u, hu, he⟩ := Option.map_eq_some_iff.mp ht
    cases he
    have hr : s.m_allNodes v.nodeID = some r := hr
    refine ⟨?_, fun {id x} hx => ?_, dropNode_objects hu⟩
    · rw [dropNode_trace hu]
      exact ⟨justified_of_timedOut hb hl (hc _ List.mem_cons_self hlate r hr), h⟩
    · rw [dropNode_allNodes hu, hid hr] at hx
      by_cases hv : id = v.nodeID
      · rw [hv, Function.update_self] at hx
        cases hx
      · rw [Function.update_of_ne hv] at hx
        exact ⟨hv, hx⟩

/-- The loop drops what the pings that are left time out for, so these are still where they
were. -/
theorem drops_dropTimedOut {l : List (UdpEndpoint × NodeValidation)} {acts acts' : List Ref}
    (h : DropsJustified c s.trace) (hb : Bonded P s) (hk : Kept c F s acts)
    (hl : ∀ x ∈ l, s.m_sentPings.find x.1 = some x.2) (hn : (l.map Prod.fst).Nodup)
    (hc : PingedThere c m s l) (hs : dropTimedOut c m l acts s = some (acts', s')) :
    DropsJustified c s'.trace := by
  induction l generalizing s acts with
  | nil =>
    cases hs
    exact h
  | cons e l ih =>
    obtain ⟨endpoint, v⟩ := e
    obtain ⟨hnot, hn⟩ := List.nodup_cons.mp hn
    have hl' : ∀ x ∈ l, s.m_sentPings.find x.1 = some x.2 := fun x hx =>
      hl x (List.mem_cons_of_mem _ hx)
    unfold NodeTable.dropTimedOut at hs
    split at hs
    case isTrue hlate =>
      obtain ⟨⟨acts₁, t⟩, ht, hs⟩ := Option.bind_eq_some_iff.mp hs
      obtain ⟨hpings, hkt⟩ := hk.dropPinged (hl _ List.mem_cons_self) ht
      have hstill : ∀ x ∈ l, (t.m_sentPings.erase endpoint).find x.1 = some x.2 := by
        intro x hx
        have hne : x.1 ≠ endpoint := fun e => hnot (List.mem_map.mpr ⟨x, hx, e⟩)
        rw [SortedMap.find_erase, if_neg hne, hpings]
        exact hl' x hx
      obtain ⟨hdrops, hleft, hobjects⟩ := drops_dropPinged h hb hk.id_eq hl hlate hc ht
      have hlogged : DropsJustified c (NodeTable.log {t with
          m_sentPings := t.m_sentPings.erase endpoint} (.timedOut endpoint v.pingHash)).trace :=
        hdrops
      refine ih hlogged (hb.dropPinged ht) hkt hstill hn ?_ hs
      intro x hx hxlate r hr
      obtain ⟨hne, hr⟩ := hleft hr
      obtain ⟨y, hy, he, hid, hylate⟩ := hc x (List.mem_cons_of_mem _ hx) hxlate r hr
      have hys : y ∈ l := by
        rcases List.mem_cons.mp hy with rfl | hy
        · exact absurd ((hk.id_eq hr).symm.trans hid.symm) hne
        · exact hy
      rw [← hobjects] at he hid
      exact ⟨y, hys, he, hid, hylate⟩
    case isFalse hfresh =>
      refine ih h hb hk hl' hn ?_ hs
      intro x hx hlate r hr
      obtain ⟨y, hy, he, hid, hlate'⟩ := hc x (List.mem_cons_of_mem _ hx) hlate r hr
      rcases List.mem_cons.mp hy with rfl | hy
      · exact absurd hlate' hfresh
      · exact ⟨y, hy, he, hid, hlate'⟩

/-! ### Runs -/

theorem drops_addKnownNode {n : Node} {received sent : UInt32} (h : DropsJustified c s.trace)
    (hs : s.addKnownNode c m n received sent = some s') : DropsJustified c s'.trace := by
  unfold NodeTable.addKnownNode at hs
  split at hs
  · cases hs
    exact h
  · split at hs
    · cases hs
      exact h
    · dsimp only at hs
      split at hs
      · have hmade : DropsJustified c (s.allocate ⟨n, received.toNat, sent.toNat⟩).2.trace := h
        exact drops_sends hmade (sends_noteActiveNode hs)
      · cases hs
        exact h

theorem drops_step {e : Event} (h : DropsJustified c s.trace) (hb : Bonded P s)
    (hk : Kept c F s []) (hc : Careful c m s e) (hs : s.step c m e = some s') :
    DropsJustified c s'.trace := by
  cases e with
  | packet source packet => exact drops_onPacketReceived h hb hk hc hs
  | timeoutsTimer =>
    obtain ⟨⟨acts, t⟩, ht, hs⟩ := Option.bind_eq_some_iff.mp hs
    have hd := drops_dropTimedOut h hb hk (fun x hx => SortedMap.find_eq_some_iff.mpr hx)
      s.m_sentPings.keys_nodup hc ht
    exact drops_sends hd (sends_activate hs)
  | addKnownNode n received sent => exact drops_addKnownNode h hs
  | scheduledPing i =>
    unfold NodeTable.step at hs
    dsimp only at hs
    split at hs
    · cases hs
      exact h
    · cases hs
      have hcut : DropsJustified c {s with scheduled := s.scheduled.eraseIdx i}.trace := h
      exact drops_sends hcut (sends_ping _ _)
  | discoveryTimer id =>
    cases hs
    exact drops_sends h (sends_onDiscoveryTimer id)
  | addNode n =>
    cases hs
    exact drops_sends h (sends_addNode n)
  | stop =>
    cases hs
    exact h

theorem runOf_cons {t : NodeTable} {e : Event} {l : List (Moment × Event)}
    (hs : s.step c m e = some t) : runOf c s ((m, e) :: l) = runOf c t l := by
  show (s.step c m e).bind (runOf c · l) = runOf c t l
  rw [hs]
  rfl

theorem drops_runOf {l : List (Moment × Event)} (h : DropsJustified c s.trace)
    (hb : Bonded False s) (hk : Kept c (fun _ => True) s []) (hl : CarefulRun c s l)
    (hs : runOf c s l = some s') : DropsJustified c s'.trace := by
  induction l generalizing s with
  | nil =>
    cases hs
    exact h
  | cons x l ih =>
    obtain ⟨t, ht, hs⟩ := Option.bind_eq_some_iff.mp hs
    exact ih (drops_step h hb hk hl.1 ht) (hb.step hk False.elim ht)
      (hk.step (fun _ _ => trivial) ht) (hl.2 t ht) hs

/-- **Where pings time out for entries at their endpoints only, live nodes stay**: an entry is
dropped for a ping to its endpoint that timed out or that was answered with another key. -/
theorem runOf_drops_justified {l : List (Moment × Event)} {newer past : List Happening} {time : ℕ}
    {e : NodeEntry} (hl : CarefulRun c initial l) (hs : runOf c initial l = some s)
    (ht : s.trace = newer ++ .nodeEntryDropped time e :: past) : Justified c time e past := by
  have hinit : DropsJustified c initial.trace := trivial
  exact (drops_runOf hinit bonded_initial kept_initial hl hs).drop ht

end Drops

/-! ### A node at two endpoints -/

/-- A known node that is pinged where it is, and does not answer. -/
def silentRun : List (Moment × Event) :=
  [(at_ 0, .addKnownNode ⟨nodeOf 2 1, publicEndpoint 8⟩ 1000000 0),
    (at_ 1, .addNode ⟨nodeOf 2 1, {publicEndpoint 8 with tcpPort := 30304}⟩),
    (at_ 2, .scheduledPing 0), (at_ 63, .timeoutsTimer)]

theorem careful_silentRun : @CarefulRun firstHalfSha3 sampleConfig initial silentRun := by
  let _ := firstHalfSha3
  refine ⟨trivial, fun a ha => ⟨trivial, fun b hb => ⟨trivial, fun d hd => ⟨?_, fun _ _ =>
    trivial⟩⟩⟩⟩
  have hrun : runOf sampleConfig initial (silentRun.take 3) = some d :=
    (runOf_cons ha).trans ((runOf_cons hb).trans (runOf_cons hd))
  have hsent : (runOf sampleConfig initial (silentRun.take 3)).map (fun s =>
      (s.m_sentPings.entries.map fun x => (x.1, x.2.nodeID),
        (s.m_allNodes (nodeOf 2 1)).map fun r => ((s.objects r).endpoint.udp, (s.objects r).id))) =
      some ([((publicEndpoint 8).udp, nodeOf 2 1)], some ((publicEndpoint 8).udp, nodeOf 2 1)) := by
    decide +kernel
  rw [hrun] at hsent
  obtain ⟨hpings, hentry⟩ := Prod.mk.inj (Option.some.inj hsent)
  intro x hx hlate r hr
  have hxe : (x.1, x.2.nodeID) ∈ d.m_sentPings.entries.map fun x => (x.1, x.2.nodeID) :=
    List.mem_map.mpr ⟨x, hx, rfl⟩
  rw [hpings, List.mem_singleton] at hxe
  obtain ⟨he, hid⟩ := Prod.mk.inj hxe
  rw [← hid, hr] at hentry
  obtain ⟨hre, hrid⟩ := Prod.mk.inj (Option.some.inj hentry)
  exact ⟨x, hx, he.trans hre.symm, hrid.symm, hlate⟩

theorem runOf_drops_justified_silent : ∃ s e past,
    @runOf firstHalfSha3 sampleConfig initial silentRun = some s ∧
      s.trace = [.timedOut (publicEndpoint 8).udp (.alignRight [95])] ++
        .nodeEntryDropped 63000 e :: past ∧
      Justified sampleConfig 63000 e past := by
  have hrun : ((@runOf firstHalfSha3 sampleConfig initial silentRun).map fun s =>
      s.trace.take 2) = some [.timedOut (publicEndpoint 8).udp (.alignRight [95]),
        .nodeEntryDropped 63000 ⟨⟨nodeOf 2 1, publicEndpoint 8⟩, 1000000, 0⟩] := by
    decide +kernel
  obtain ⟨s, hs, htake⟩ := Option.map_eq_some_iff.mp hrun
  have ht : s.trace = [.timedOut (publicEndpoint 8).udp (.alignRight [95])] ++
      .nodeEntryDropped 63000 ⟨⟨nodeOf 2 1, publicEndpoint 8⟩, 1000000, 0⟩ :: s.trace.drop 2 := by
    rw [← List.take_append_drop 2 s.trace, htake]
    rfl
  exact ⟨s, _, _, hs, ht,
    @runOf_drops_justified firstHalfSha3 sampleConfig s silentRun _ _ _ _ careful_silentRun hs ht⟩

/-- A node the table knows is named at another endpoint by a neighbour, pinged there, and
dropped without a ping to where it is. -/
def evictingRun : List (Moment × Event) :=
  [(at_ 0, .addKnownNode ⟨nodeOf 2 1, publicEndpoint 8⟩ 1000000 0),
    (at_ 0, .addKnownNode ⟨nodeOf 3 1, publicEndpoint 9⟩ 1000000 0),
    (at_ 1, .discoveryTimer (nodeOf 4 1)),
    (at_ 1, .packet (publicEndpoint 9).udp ⟨nodeOf 3 1, .zero, some 1000010,
      .Neighbours [⟨nodeOf 2 1, publicEndpoint 7⟩]⟩),
    (at_ 2, .scheduledPing 0), (at_ 63, .timeoutsTimer)]

/-- The live node was dropped, with its endpoint recorded and no ping ever sent there. -/
theorem runOf_evicts : ∃ s past,
    @runOf firstHalfSha3 sampleConfig initial evictingRun = some s ∧
      s.trace = [.timedOut (publicEndpoint 7).udp (.alignRight [95])] ++ .nodeEntryDropped 63000
        ⟨⟨nodeOf 2 1, publicEndpoint 8⟩, 1000000, 0⟩ :: past ∧
      ¬Justified sampleConfig 63000 ⟨⟨nodeOf 2 1, publicEndpoint 8⟩, 1000000, 0⟩ past := by
  have hrun : ((@runOf firstHalfSha3 sampleConfig initial evictingRun).map fun s =>
      (s.trace.take 2, (s.trace.drop 2).all fun
        | .pinged _ dest _ => dest ≠ (publicEndpoint 8).udp
        | _ => true)) = some ([.timedOut (publicEndpoint 7).udp (.alignRight [95]),
        .nodeEntryDropped 63000 ⟨⟨nodeOf 2 1, publicEndpoint 8⟩, 1000000, 0⟩], true) := by
    decide +kernel
  obtain ⟨s, hs, hparts⟩ := Option.map_eq_some_iff.mp hrun
  obtain ⟨htake, hall⟩ := Prod.mk.inj hparts
  have hnever : ∀ sent hash, .pinged sent (publicEndpoint 8).udp hash ∉ s.trace.drop 2 := by
    intro sent hash hmem
    have hne := List.all_eq_true.mp hall _ hmem
    exact of_decide_eq_true hne rfl
  refine ⟨s, s.trace.drop 2, hs, ?_, ?_⟩
  · rw [← List.take_append_drop 2 s.trace, htake]
    rfl
  · rintro (⟨hash, sent, hout, -⟩ | ⟨_, _, before, hash, sent, hpast, -, -, hout⟩)
    · exact hnever sent hash hout.sent
    · apply hnever sent hash
      rw [hpast]
      exact List.mem_cons_of_mem _ hout.sent

end NodeTable
end Aleth.P2p
