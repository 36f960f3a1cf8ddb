import Aleth.Libp2p.NodeTableRuns

/-! Neighbours and ENRResponse packets go to proven endpoints only.

A ping is `Outstanding` in a trace from when it is sent until a Pong that echoes
it comes from where it went, or it is given up. Every sent ping of the table is
(`Tracked`), and without `addKnownNode` every entry's endpoint and pong time are
those of a Pong that answered an outstanding ping (`Proven`). -/
namespace Aleth.P2p
open Devcore

/-! ### Pings in a trace -/

/-- A Pong that is looked at, from the endpoint and with the echo. -/
def Answers (dest : UdpEndpoint) (hash : H256) (seconds : ℕ) (source : UdpEndpoint)
    (p : DiscoveryDatagram) : Prop :=
  source = dest ∧ p.payload = .Pong hash ∧ p.isExpired seconds = false

/-- After this the ping is not waited for. -/
def Closes (dest : UdpEndpoint) (hash : H256) : Happening → Prop
  | .received seconds source p => Answers dest hash seconds source p
  | .timedOut dest' hash' => dest' = dest ∧ hash' = hash
  | _ => False

/-- The ping was sent at the time, and neither answered nor given up since. -/
def Outstanding (dest : UdpEndpoint) (hash : H256) (time : ℕ) : List Happening → Prop
  | [] => False
  | x :: past => x = .pinged time dest hash ∨ (¬Closes dest hash x ∧ Outstanding dest hash time past)

/-- A Pong signed by the node came from the endpoint while a ping to there was outstanding. -/
def Proven (trace : List Happening) (source : UdpEndpoint) (id : NodeID) (seconds : ℕ) : Prop :=
  ∃ newer past p hash time, trace = newer ++ .received seconds source p :: past ∧ p.sourceid = id ∧
    p.payload = .Pong hash ∧ Outstanding source hash time past

/-- Every reply that needs an endpoint proof had one not older than the bonding time. -/
def RepliesProven : List Happening → Prop
  | [] => True
  | .replied seconds dest requester _ :: past =>
    (∃ proof, seconds < proof + c_bondingTimeSeconds ∧ Proven past dest requester proof) ∧
      RepliesProven past
  | _ :: past => RepliesProven past

/-- What neither closes a ping nor needs a reason. -/
def Happening.Quiet : Happening → Prop
  | .received .. | .timedOut .. | .replied .. | .nodeEntryDropped .. => False
  | _ => True

theorem Outstanding.append {dest : UdpEndpoint} {hash : H256} {time : ℕ}
    {new trace : List Happening} (h : Outstanding dest hash time trace)
    (hn : ∀ x ∈ new, x.Quiet) : Outstanding dest hash time (new ++ trace) := by
  induction new with
  | nil => exact h
  | cons x new ih =>
    refine .inr ⟨?_, ih fun y hy => hn y (List.mem_cons_of_mem _ hy)⟩
    have hx := hn x List.mem_cons_self
    cases x with
    | received | timedOut => exact hx.elim
    | _ => exact not_false

theorem Proven.append {trace : List Happening} {source : UdpEndpoint} {id : NodeID} {seconds : ℕ}
    (h : Proven trace source id seconds) (new : List Happening) :
    Proven (new ++ trace) source id seconds := by
  obtain ⟨newer, past, p, hash, time, rfl, hp⟩ := h
  exact ⟨new ++ newer, past, p, hash, time, (List.append_assoc ..).symm, hp⟩

theorem RepliesProven.append {trace new : List Happening} (h : RepliesProven trace)
    (hn : ∀ x ∈ new, x.Quiet) : RepliesProven (new ++ trace) := by
  induction new with
  | nil => exact h
  | cons x new ih =>
    have htail := ih fun y hy => hn y (List.mem_cons_of_mem _ hy)
    have hx := hn x List.mem_cons_self
    cases x with
    | replied => exact hx.elim
    | _ => exact htail

theorem RepliesProven.reply {trace newer past : List Happening} {seconds : ℕ} {dest : UdpEndpoint}
    {requester : NodeID} {reply : Reply} (h : RepliesProven trace)
    (ht : trace = newer ++ .replied seconds dest requester reply :: past) :
    ∃ proof, seconds < proof + c_bondingTimeSeconds ∧ Proven past dest requester proof := by
  subst ht
  induction newer with
  | nil => exact h.1
  | cons x newer ih =>
    cases x with
    | replied => exact ih h.2
    | _ => exact ih h

/-! ### Steps that only send -/

namespace NodeTable

def Tracked (s : NodeTable) : Prop :=
  ∀ {e v}, s.m_sentPings.find e = some v → Outstanding e v.pingHash v.pingSentTime s.trace

/-- What functions do that neither make entries nor forget pings. -/
structure Sends (s s' : NodeTable) : Prop where
  objects : s'.objects = s.objects
  next : s'.next = s.next
  trace : ∃ new, s'.trace = new ++ s.trace ∧ ∀ x ∈ new, x.Quiet
  tracked : Tracked s → Tracked s'

variable {c : NodeTableConfig} {m : Moment} {s s' s'' : NodeTable} {held : List Ref} {r : Ref}

theorem Sends.refl (s : NodeTable) : Sends s s := ⟨rfl, rfl, ⟨[], rfl, nofun⟩, id⟩

theorem Sends.trans (h : Sends s s') (h' : Sends s' s'') : Sends s s'' := by
  obtain ⟨new, ht, hn⟩ := h.trace
  obtain ⟨new', ht', hn'⟩ := h'.trace
  refine ⟨h'.objects.trans h.objects, h'.next.trans h.next, ⟨new' ++ new, ?_, ?_⟩,
    fun hs => h'.tracked (h.tracked hs)⟩
  · rw [ht', ht, List.append_assoc]
  · intro x hx
    exact (List.mem_append.mp hx).elim (hn' x) (hn x)

/-- The same pings, and a trace longer by something quiet. -/
theorem Sends.of_pings (ho : s'.objects = s.objects) (hnext : s'.next = s.next)
    (hp : s'.m_sentPings = s.m_sentPings) (new : List Happening)
    (ht : s'.trace = new ++ s.trace) (hn : ∀ x ∈ new, x.Quiet) : Sends s s' :=
  ⟨ho, hnext, ⟨new, ht, hn⟩, fun hs _ _ hf => ht ▸ (hs (hp ▸ hf)).append hn⟩

theorem sends_log {x : Happening} (hx : x.Quiet) : Sends s (s.log x) :=
  .of_pings rfl rfl rfl [x] rfl (by simpa using hx)

theorem sends_ping (n : Node) (replacement : Option Ref) : Sends s (s.ping m n replacement) := by
  unfold ping
  split
  · exact .refl s
  · split
    · exact .refl s
    · refine ⟨rfl, rfl, ⟨[_], rfl, by simp [Happening.Quiet]⟩, fun hs e v hf => ?_⟩
      have hf : (s.m_sentPings.insert n.endpoint.udp ⟨n.id, n.endpoint.tcpPort, m.steady,
        m.pingHash n.endpoint.udp, replacement⟩).find e = some v := hf
      rw [SortedMap.find_insert] at hf
      split at hf
      case isTrue he =>
        cases hf
        exact .inl (by rw [he])
      case isFalse => exact .inr ⟨not_false, hs hf⟩

theorem sends_evict (e : NodeEntry) (r : Ref) : Sends s (s.evict m e r) := by
  unfold evict
  split
  · exact .refl s
  · exact (sends_ping _ _).trans (sends_log trivial)

theorem sends_noteInBucket (b : Fin s_bins) : Sends s (s.noteInBucket m held r b) := by
  have hadd : ∀ nodes, Sends s (s.addToBucket b nodes r) := fun nodes =>
    .of_pings rfl rfl rfl [.nodeEntryAdded (s.objects r).id] rfl (by
      simp [Happening.Quiet])
  unfold noteInBucket
  split
  · exact .of_pings rfl rfl rfl [] rfl nofun
  · split
    · exact hadd _
    · split
      · exact .refl s
      · split
        · exact sends_evict _ _
        · exact hadd _

theorem sends_noteActiveNode [Sha3] (hs : s.noteActiveNode c m held r = some s') : Sends s s' := by
  unfold noteActiveNode at hs
  split at hs
  · cases hs
    exact .refl s
  · split at hs
    · cases hs
      exact .refl s
    · split at hs
      · cases hs
        exact .refl s
      · obtain ⟨b, -, rfl⟩ := Option.map_eq_some_iff.mp hs
        exact sends_noteInBucket b

theorem sends_activate [Sha3] {l : List Ref} (hs : activate c m held l s = some s') :
    Sends s s' := by
  induction l generalizing s with
  | nil =>
    cases hs
    exact .refl _
  | cons r l ih =>
    obtain ⟨t, ht, hs⟩ := Option.bind_eq_some_iff.mp hs
    exact (sends_noteActiveNode ht).trans (ih hs)

theorem sends_addNode (n : Node) : Sends s (s.addNode c m n).2 := by
  unfold addNode
  split
  · exact .refl s
  · split
    · exact .of_pings rfl rfl rfl [] rfl nofun
    · exact .refl s

theorem sends_addNodes (l : List Node) :
    Sends s (l.foldl (fun s n => (s.addNode c m n).2) s) := by
  induction l generalizing s with
  | nil => exact .refl s
  | cons n l ih => exact (sends_addNode n).trans ih

theorem sends_askNearest (target : NodeID) (l tried : List Ref) (count : ℕ) :
    Sends s (askNearest m target l tried count s).2.2 := by
  induction l generalizing tried count s with
  | nil => exact .refl s
  | cons r l ih =>
    have hsent : Sends s (NodeTable.log {s with m_sentFindNodes :=
        s.m_sentFindNodes ++ [((s.objects r).id, m.steady)]}
        (.findNodeSent (s.objects r).endpoint.udp target)) :=
      .of_pings rfl rfl rfl [.findNodeSent (s.objects r).endpoint.udp target] rfl (by
        simp [Happening.Quiet])
    unfold askNearest
    split
    · exact ih _ _
    · split
      · exact (sends_ping _ _).trans (ih _ _)
      · dsimp only
        split
        · exact hsent
        · exact hsent.trans (ih _ _)

theorem sends_onDiscoveryTimer [Sha3] (id : NodeID) : Sends s (s.onDiscoveryTimer m id) := by
  have hround : ∀ target round tried, Sends s (s.doDiscoveryRound m target round tried) := by
    intro target round tried
    unfold doDiscoveryRound
    split
    · exact .refl s
    · have hask := sends_askNearest (m := m) (s := s) target (s.nearestNodeEntries target) tried 0
      generalize askNearest m target (s.nearestNodeEntries target) tried 0 s = x at hask
      obtain ⟨tried', count, t⟩ := x
      dsimp only at hask ⊢
      split <;> exact hask.trans (.of_pings rfl rfl rfl [] rfl nofun)
  unfold onDiscoveryTimer
  split <;> exact hround _ _ _

/-! ### Entries and replies -/

structure Bonded (P : Prop) (s : NodeTable) : Prop where
  tracked : Tracked s
  proven : P → ∀ r < s.next, Proven s.trace (s.objects r).endpoint.udp (s.objects r).id
    (s.objects r).lastPongReceivedTime
  replies : P → RepliesProven s.trace

variable {P : Prop}

theorem Bonded.sends (h : Bonded P s) (hs : Sends s s') : Bonded P s' := by
  obtain ⟨new, ht, hn⟩ := hs.trace
  refine ⟨hs.tracked h.tracked, fun hP r hr => ?_, fun hP => ?_⟩
  · rw [hs.objects, ht]
    exact (h.proven hP r (hs.next ▸ hr)).append new
  · rw [ht]
    exact (h.replies hP).append hn

/-- One more happening, which closes no ping that is still there. -/
theorem Bonded.happen {x : Happening} {p : SortedMap UdpEndpoint NodeValidation} (h : Bonded P s)
    (hp : ∀ {e v}, p.find e = some v → s.m_sentPings.find e = some v ∧ ¬Closes e v.pingHash x)
    (hx : P → RepliesProven (x :: s.trace)) :
    Bonded P {s with m_sentPings := p, trace := x :: s.trace} where
  tracked := fun hf => .inr ⟨(hp hf).2, h.tracked (hp hf).1⟩
  proven := fun hP r hr => (h.proven hP r hr).append [x]
  replies := hx

theorem Bonded.dropNode [Sha3] (h : Bonded P s) (hs : s.dropNode c m r = some s') : Bonded P s' := by
  obtain ⟨b, -, rfl⟩ := Option.map_eq_some_iff.mp hs
  have hk := h.happen (x := .nodeEntryDropped m.steady (s.objects r))
    (fun hf => ⟨hf, not_false⟩) h.replies
  exact ⟨hk.tracked, hk.proven, hk.replies⟩

/-- A timed out ping is given up, and its node dropped. -/
theorem Bonded.dropPinged [Sha3] {endpoint : UdpEndpoint} {v : NodeValidation}
    {acts acts' : List Ref} {t : NodeTable} (h : Bonded P s)
    (ht : s.dropPinged c m v acts = some (acts', t)) :
    Bonded P (NodeTable.log {t with m_sentPings := t.m_sentPings.erase endpoint}
      (.timedOut endpoint v.pingHash)) := by
  have hb : Bonded P t := by
    unfold NodeTable.dropPinged at ht
    split at ht
    · cases ht
      exact h
    · obtain ⟨u, hu, he⟩ := Option.map_eq_some_iff.mp ht
      cases he
      exact h.dropNode hu
  have hreplies : P → RepliesProven (.timedOut endpoint v.pingHash :: t.trace) := hb.replies
  refine hb.happen (fun {e v'} hf => ?_) hreplies
  rw [SortedMap.find_erase] at hf
  split at hf
  · cases hf
  case isFalse hne => exact ⟨hf, fun hc => hne hc.1.symm⟩

theorem Bonded.dropTimedOut [Sha3] {l : List (UdpEndpoint × NodeValidation)}
    {acts acts' : List Ref} (h : Bonded P s) (hs : dropTimedOut c m l acts s = some (acts', s')) :
    Bonded P s' := by
  induction l generalizing s acts with
  | nil =>
    cases hs
    exact h
  | cons e l ih =>
    obtain ⟨endpoint, v⟩ := e
    unfold NodeTable.dropTimedOut at hs
    split at hs
    · obtain ⟨⟨acts₁, t⟩, ht, hs⟩ := Option.bind_eq_some_iff.mp hs
      exact ih (h.dropPinged ht) hs
    · exact ih h hs

/-- An entry with a proof in the trace. -/
theorem Bonded.setObjects {objects : Ref → NodeEntry} {next : Ref} (h : Bonded P s)
    (ho : P → ∀ r < next, r < s.next ∧ (objects r).endpoint.udp = (s.objects r).endpoint.udp ∧
        (objects r).id = (s.objects r).id ∧
        (objects r).lastPongReceivedTime = (s.objects r).lastPongReceivedTime ∨
      Proven s.trace (objects r).endpoint.udp (objects r).id (objects r).lastPongReceivedTime) :
    Bonded P {s with objects := objects, next := next} where
  tracked := h.tracked
  proven := fun hP r hr => by
    rcases ho hP r hr with ⟨hlt, he, hi, ht⟩ | hp
    · dsimp only
      rw [he, hi, ht]
      exact h.proven hP r hlt
    · exact hp
  replies := h.replies

theorem Bonded.updateEntry {source : UdpEndpoint} {tcpPort : UInt16} {sourceid : NodeID}
    (h : Bonded P s) (hid : ∀ r, s.m_allNodes sourceid = some r → (s.objects r).id = sourceid)
    (hp : Proven s.trace source sourceid m.seconds.toNat) :
    Bonded P (s.updateEntry m source tcpPort sourceid).2 := by
  unfold NodeTable.updateEntry
  cases hr : s.m_allNodes sourceid with
  | none =>
    apply h.setObjects
    intro _ r hlt
    rcases Nat.lt_succ_iff_lt_or_eq.mp hlt with hlt | rfl
    · left
      rw [Function.update_of_ne hlt.ne]
      exact ⟨hlt, rfl, rfl, rfl⟩
    · right
      rw [Function.update_self]
      exact hp
  | some x =>
    apply h.setObjects
    intro _ r hlt
    by_cases hrx : r = x
    · right
      subst hrx
      have hsid := hid r hr
      rw [Function.update_self]
      split
      · rw [← hsid] at hp
        exact hp
      case isFalse he =>
        have he : (s.objects r).endpoint.udp = source := not_not.mp he
        rw [← hsid, ← he] at hp
        exact hp
    · left
      rw [Function.update_of_ne hrx]
      exact ⟨hlt, rfl, rfl, rfl⟩

/-! ### Packets -/

/-- Dropping the node that was pinged does not look at the sent pings. -/
theorem dropChanged_setPings [Sha3] {sourceid nodeID : NodeID}
    (q : SortedMap UdpEndpoint NodeValidation) (hs : s.dropChanged c m sourceid nodeID = some s') :
    dropChanged c m {s with m_sentPings := q} sourceid nodeID =
      some {s' with m_sentPings := q} := by
  unfold NodeTable.dropChanged at hs ⊢
  split at hs
  case isTrue hne =>
    rw [if_pos hne]
    split at hs
    case h_1 hnone =>
      cases hs
      rw [show nodeEntry {s with m_sentPings := q} nodeID = none from hnone]
    case h_2 r hr =>
      obtain ⟨b, hb, rfl⟩ := Option.map_eq_some_iff.mp hs
      rw [show nodeEntry {s with m_sentPings := q} nodeID = some r from hr]
      exact Option.map_eq_some_iff.mpr ⟨b, hb, rfl⟩
  case isFalse he =>
    cases hs
    rw [if_neg he]

theorem updateEntry_setPings (source : UdpEndpoint) (tcpPort : UInt16) (sourceid : NodeID)
    (q : SortedMap UdpEndpoint NodeValidation) :
    (updateEntry m {s with m_sentPings := q} source tcpPort sourceid).2 =
      {(s.updateEntry m source tcpPort sourceid).2 with m_sentPings := q} := by
  unfold NodeTable.updateEntry
  cases s.m_allNodes sourceid <;> rfl

theorem dropChanged_trace [Sha3] {sourceid nodeID : NodeID}
    (hs : s.dropChanged c m sourceid nodeID = some s') : ∃ new, s'.trace = new ++ s.trace := by
  unfold NodeTable.dropChanged at hs
  split at hs
  · split at hs
    · cases hs
      exact ⟨[], rfl⟩
    case h_2 r hr =>
      obtain ⟨b, -, rfl⟩ := Option.map_eq_some_iff.mp hs
      exact ⟨[.nodeEntryDropped m.steady (s.objects r)], rfl⟩
  · cases hs
    exact ⟨[], rfl⟩

theorem Bonded.dropChanged [Sha3] {sourceid nodeID : NodeID} (h : Bonded P s)
    (hs : s.dropChanged c m sourceid nodeID = some s') : Bonded P s' := by
  unfold NodeTable.dropChanged at hs
  split at hs
  · split at hs
    · cases hs
      exact h
    · exact h.dropNode hs
  · cases hs
    exact h

/-- The rest of a Pong that answers: its ping is closed, and its entry has the proof. -/
theorem Bonded.answered [Sha3] {F : NodeID → Prop} {source : UdpEndpoint} {p : DiscoveryDatagram}
    {v : NodeValidation} {t : NodeTable} (h : Bonded P s) (hk : Kept c F s [])
    (hv : s.m_sentPings.find source = some v) (hp : p.payload = .Pong v.pingHash)
    (ht : (s.log (.received m.seconds.toNat source p)).dropChanged c m p.sourceid v.nodeID =
      some t) :
    Bonded P {(t.updateEntry m source v.tcpPort p.sourceid).2 with
      m_sentPings := (t.updateEntry m source v.tcpPort p.sourceid).2.m_sentPings.erase source} := by
  have hproof : Proven (.received m.seconds.toNat source p :: s.trace) source p.sourceid
      m.seconds.toNat :=
    ⟨[], s.trace, p, v.pingHash, v.pingSentTime, rfl, rfl, hp, h.tracked hv⟩
  have hreplies : P → RepliesProven (.received m.seconds.toNat source p :: s.trace) := h.replies
  have hclosed : Bonded P {s with
      m_sentPings := s.m_sentPings.erase source
      trace := .received m.seconds.toNat source p :: s.trace} := by
    apply h.happen (fun {e v'} hf => ?_) hreplies
    rw [SortedMap.find_erase] at hf
    split at hf
    · cases hf
    case isFalse hne => exact ⟨hf, fun hc => hne hc.1.symm⟩
  have htrace : ∃ new, t.trace = new ++ .received m.seconds.toNat source p :: s.trace :=
    dropChanged_trace ht
  obtain ⟨new, hnew⟩ := htrace
  have hdropped := hclosed.dropChanged (dropChanged_setPings (s.m_sentPings.erase source) ht)
  have hkt := (hk.log (.received m.seconds.toNat source p)).dropChanged ht
  have hproven : Proven t.trace source p.sourceid m.seconds.toNat := by
    rw [hnew]
    exact hproof.append new
  have hupdated := @Bonded.updateEntry m _ P source v.tcpPort p.sourceid hdropped
    (fun r hr => hkt.id_eq hr) hproven
  rw [updateEntry_setPings] at hupdated
  rw [updateEntry_pings, dropChanged_pings ht]
  exact hupdated

theorem Bonded.handlePong [Sha3] {F : NodeID → Prop} {source : UdpEndpoint} {echo : H256}
    {p : DiscoveryDatagram} {o : Option Ref} (h : Bonded P s) (hk : Kept c F s [])
    (hp : p.payload = .Pong echo)
    (hs : (s.log (.received m.seconds.toNat source p)).handlePong c m source p.sourceid echo =
      some (o, s')) : Bonded P s' := by
  have hclose : ∀ {e v}, s.m_sentPings.find e = some v →
      Closes e v.pingHash (.received m.seconds.toNat source p) →
      e = source ∧ echo = v.pingHash := by
    rintro e v - ⟨hse, hpay, -⟩
    rw [hp] at hpay
    exact ⟨hse.symm, Payload.Pong.inj hpay⟩
  have hreplies : P → RepliesProven (.received m.seconds.toNat source p :: s.trace) := h.replies
  unfold NodeTable.handlePong at hs
  split at hs
  case h_1 hnone =>
    cases hs
    apply h.happen (fun {e v} hf => ⟨hf, fun hc => ?_⟩) hreplies
    rw [(hclose hf hc).1] at hf
    exact absurd (hf.symm.trans hnone) (by simp)
  case h_2 v hv =>
    split at hs
    case isTrue hne =>
      cases hs
      apply h.happen (fun {e v'} hf => ⟨hf, fun hc => ?_⟩) hreplies
      obtain ⟨rfl, he⟩ := hclose hf hc
      have hvv : v = v' := Option.some.inj (hv.symm.trans hf)
      exact hne (hvv ▸ he)
    case isFalse heq =>
      obtain ⟨t, ht, he⟩ := Option.map_eq_some_iff.mp hs
      cases he
      exact h.answered hk hv (not_not.mp heq ▸ hp) ht

theorem Bonded.received {source : UdpEndpoint} {p : DiscoveryDatagram} {seconds : ℕ} (h : Bonded P s)
    (hp : ∀ hash, p.payload = .Pong hash → p.isExpired seconds = true) :
    Bonded P (s.log (.received seconds source p)) := by
  have hreplies : P → RepliesProven (.received seconds source p :: s.trace) := h.replies
  apply h.happen (fun {e v} hf => ⟨hf, ?_⟩) hreplies
  rintro ⟨-, hpay, hfresh⟩
  rw [hp _ hpay] at hfresh
  cases hfresh

/-- The source has a proof that is not too old. -/
def HasProof (m : Moment) (s : NodeTable) (source : UdpEndpoint) (sourceid : NodeID) : Prop :=
  ∃ proof, m.seconds.toNat < proof + c_bondingTimeSeconds ∧ Proven s.trace source sourceid proof

theorem Bonded.hasProof [Sha3] {F : NodeID → Prop} {hands : List Ref} {source : UdpEndpoint}
    {sourceid : NodeID} (h : Bonded P s) (hP : P) (hk : Kept c F s hands)
    (hr : s.provenSource m source sourceid = some r) : HasProof m s source sourceid := by
  obtain ⟨hknown, hvalid⟩ := Option.filter_eq_some_iff.mp hr
  obtain ⟨hid, hsource⟩ := Option.filter_eq_some_iff.mp hknown
  obtain ⟨b, hb⟩ := hk.listed hid
  have hp := h.proven hP r (hk.made hb)
  rw [of_decide_eq_true hsource, hk.id_eq hid] at hp
  refine ⟨_, ?_, hp⟩
  have hlt := of_decide_eq_true (Bool.and_eq_true_iff.mp hvalid).2
  exact lt_of_lt_of_le hlt (Nat.mod_le _ _)

theorem Bonded.reply {source : UdpEndpoint} {sourceid : NodeID} (h : Bonded P s)
    (hp : P → HasProof m s source sourceid) (reply : Reply) :
    Bonded P (s.log (.replied m.seconds.toNat source sourceid reply)) :=
  h.happen (fun hf => ⟨hf, not_false⟩) fun hP => ⟨hp hP, h.replies hP⟩

theorem Bonded.sendNeighbours {source : UdpEndpoint} {sourceid : NodeID} (h : Bonded P s)
    (hp : P → HasProof m s source sourceid) (k : ℕ) (nearest : List Node) :
    Bonded P (sendNeighbours m source sourceid k nearest s) := by
  induction k generalizing s nearest with
  | zero => exact h
  | succ k ih =>
    unfold NodeTable.sendNeighbours
    split
    · exact h
    · apply ih (h.reply hp _)
      intro hP
      obtain ⟨proof, hlt, hpr⟩ := hp hP
      exact ⟨proof, hlt, hpr.append [_]⟩

theorem Bonded.handlePingNode {source : UdpEndpoint} {sourceid : NodeID} {echo : H256}
    {pingSource : NodeIPEndpoint} (h : Bonded P s) :
    Bonded P (s.handlePingNode c m source sourceid echo pingSource).2 := by
  unfold NodeTable.handlePingNode
  dsimp only
  have hadd : Bonded P (s.addNode c m ⟨sourceid, ⟨source.address, source.port,
      pingSource.tcpPort⟩⟩).2 := h.sends (sends_addNode _)
  generalize s.addNode c m ⟨sourceid, ⟨source.address, source.port, pingSource.tcpPort⟩⟩ = x
    at hadd ⊢
  split
  · exact hadd
  · have hlog : Bonded P (x.2.log (.ponged source echo)) := hadd.sends (sends_log trivial)
    split
    · exact hlog
    case h_2 r hr =>
      apply hlog.setObjects
      intro _ y hy
      left
      by_cases hyr : y = r
      · subst hyr
        rw [Function.update_self]
        exact ⟨hy, rfl, rfl, rfl⟩
      · rw [Function.update_of_ne hyr]
        exact ⟨hy, rfl, rfl, rfl⟩

theorem Bonded.handlePacket [Sha3] {F : NodeID → Prop} {hands : List Ref} {source : UdpEndpoint}
    {packet : DiscoveryDatagram} {o : Option Ref} (h : Bonded P s) (hk : Kept c F s hands)
    (hpong : ∀ hash, packet.payload ≠ .Pong hash)
    (hs : s.handlePacket c m source packet = some (o, s')) : Bonded P s' := by
  unfold NodeTable.handlePacket at hs
  split at hs
  case h_1 hp => exact absurd hp (hpong _)
  · obtain ⟨-, rfl⟩ := eq_of_some_eq hs
    unfold handleNeighbours
    split
    · exact h
    · have hcut : Bonded P {s with
          m_sentFindNodes := s.m_sentFindNodes.filter (·.1 ≠ packet.sourceid)} :=
        h.sends (.of_pings rfl rfl rfl [] rfl nofun)
      dsimp only
      split
      · exact hcut
      · exact hcut.sends (sends_addNodes _)
  · obtain ⟨-, rfl⟩ := eq_of_some_eq hs
    unfold handleFindNode
    split
    · exact h
    case h_2 r hr => exact h.sendNeighbours (fun hP => h.hasProof hP hk hr) _ _
  · obtain ⟨-, rfl⟩ := eq_of_some_eq hs
    exact h.handlePingNode
  · obtain ⟨-, rfl⟩ := eq_of_some_eq hs
    unfold handleENRRequest
    split
    · exact h
    case h_2 r hr => exact h.reply (fun hP => h.hasProof hP hk hr) _
  · obtain ⟨-, rfl⟩ := eq_of_some_eq hs
    exact h

theorem Bonded.onPacketReceived [Sha3] {F : NodeID → Prop} {source : UdpEndpoint}
    {packet : DiscoveryDatagram} (h : Bonded P s) (hk : Kept c F s [])
    (hs : s.onPacketReceived c m source packet = some s') : Bonded P s' := by
  unfold NodeTable.onPacketReceived at hs
  dsimp only at hs
  split at hs
  case isTrue hexpired =>
    cases hs
    exact h.received fun _ _ => hexpired
  · obtain ⟨⟨o, t⟩, ht, hs⟩ := Option.bind_eq_some_iff.mp hs
    have hb : Bonded P t := by
      by_cases hpong : ∃ hash, packet.payload = .Pong hash
      · obtain ⟨hash, hp⟩ := hpong
        unfold NodeTable.handlePacket at ht
        rw [hp] at ht
        exact h.handlePong hk hp ht
      · have hno : ∀ hash, packet.payload ≠ .Pong hash := fun hash hp => hpong ⟨hash, hp⟩
        exact (h.received fun hash hp => absurd hp (hno hash)).handlePacket (hk.log _) hno ht
    cases o with
    | none =>
      cases hs
      exact hb
    | some r => exact hb.sends (sends_noteActiveNode hs)

theorem Bonded.addKnownNode [Sha3] {n : Node} {received sent : UInt32} (h : Bonded P s)
    (hP : ¬P) (hs : s.addKnownNode c m n received sent = some s') : Bonded P s' := by
  unfold NodeTable.addKnownNode at hs
  split at hs
  · cases hs
    exact h
  · split at hs
    · cases hs
      exact h
    · dsimp only at hs
      split at hs
      · refine Bonded.sends ?_ (sends_noteActiveNode hs)
        exact h.setObjects fun hp => absurd hp hP
      · cases hs
        exact h.sends (.of_pings rfl rfl rfl [] rfl nofun)

/-! ### Runs -/

theorem Bonded.step [Sha3] {F : NodeID → Prop} {e : Event} (h : Bonded P s) (hk : Kept c F s [])
    (he : P → ∀ n a b, e ≠ .addKnownNode n a b) (hs : s.step c m e = some s') : Bonded P s' := by
  cases e with
  | packet source packet => exact h.onPacketReceived hk hs
  | scheduledPing i =>
    unfold NodeTable.step at hs
    dsimp only at hs
    split at hs
    · cases hs
      exact h
    · cases hs
      have hcut : Sends s {s with scheduled := s.scheduled.eraseIdx i} :=
        .of_pings rfl rfl rfl [] rfl nofun
      exact h.sends (hcut.trans (sends_ping _ _))
  | discoveryTimer id =>
    cases hs
    exact h.sends (sends_onDiscoveryTimer id)
  | timeoutsTimer =>
    obtain ⟨⟨acts, t⟩, ht, hs⟩ := Option.bind_eq_some_iff.mp hs
    exact (h.dropTimedOut ht).sends (sends_activate hs)
  | addNode n =>
    cases hs
    exact h.sends (sends_addNode n)
  | addKnownNode n a b => exact h.addKnownNode (fun hP => he hP n a b rfl) hs
  | stop =>
    cases hs
    exact h.sends (.of_pings rfl rfl rfl [] rfl nofun)

theorem bonded_initial : Bonded P initial := ⟨nofun, fun _ => nofun, fun _ => trivial⟩

theorem Bonded.runOf [Sha3] {F : NodeID → Prop} {l : List (Moment × Event)} (h : Bonded P s)
    (hk : Kept c F s []) (hF : ∀ id, F id) (hl : P → ∀ x ∈ l, ∀ n a b, x.2 ≠ .addKnownNode n a b)
    (hs : runOf c s l = some s') : Bonded P s' := by
  induction l generalizing s with
  | nil =>
    cases hs
    exact h
  | cons x l ih =>
    obtain ⟨t, ht, hs⟩ := Option.bind_eq_some_iff.mp hs
    exact ih (h.step hk (fun hP => hl hP x List.mem_cons_self) ht) (hk.step (fun id _ => hF id) ht)
      (fun hP y hy => hl hP y (List.mem_cons_of_mem _ hy)) hs

/-- **No amplification**: in every run from the empty table without `addKnownNode`, a Neighbours
or ENRResponse packet that answers a request goes to an endpoint from which, within the bonding
time, a Pong of the requester came that echoed a ping outstanding to there. -/
theorem runOf_replies_proven [Sha3] {l : List (Moment × Event)} {newer past : List Happening}
    {seconds : ℕ} {dest : UdpEndpoint} {requester : NodeID} {reply : Reply}
    (hl : ∀ x ∈ l, ∀ n a b, x.2 ≠ .addKnownNode n a b) (hs : runOf c initial l = some s)
    (ht : s.trace = newer ++ .replied seconds dest requester reply :: past) :
    ∃ proof, seconds < proof + c_bondingTimeSeconds ∧ Proven past dest requester proof := by
  have hk : Kept c (fun _ => True) initial [] := kept_initial
  have hinit : Bonded True initial := bonded_initial
  exact ((hinit.runOf hk (fun _ => trivial) (fun _ => hl) hs).replies trivial).reply ht

/-! ### A node that proves its endpoint -/

/-- A node is added, pinged, answers, and asks for the host's record. -/
def provingRun : List (Moment × Event) :=
  let e := (publicEndpoint 8).udp
  let hash := H256.alignRight [e.port.toUInt8]
  [(at_ 0, .addNode ⟨nodeOf 2 1, publicEndpoint 8⟩), (at_ 1, .scheduledPing 0),
    (at_ 2, .packet e ⟨nodeOf 2 1, .zero, some 1000010, .Pong hash⟩),
    (at_ 3, .packet e ⟨nodeOf 2 1, .zero, none, .ENRRequest⟩)]

theorem runOf_replies_proven_enr : ∃ s past,
    @runOf firstHalfSha3 sampleConfig initial provingRun = some s ∧
      s.trace = [] ++ .replied 1000003 (publicEndpoint 8).udp (nodeOf 2 1) (.ENRResponse .zero) ::
        past ∧
      ∃ proof, 1000003 < proof + c_bondingTimeSeconds ∧
        Proven past (publicEndpoint 8).udp (nodeOf 2 1) proof := by
  have hrun : ((@runOf firstHalfSha3 sampleConfig initial provingRun).bind
      (·.trace.head?)) = some (.replied 1000003 (publicEndpoint 8).udp (nodeOf 2 1)
        (.ENRResponse .zero)) := by decide +kernel
  obtain ⟨s, hs, hhead⟩ := Option.bind_eq_some_iff.mp hrun
  obtain ⟨past, hpast⟩ := List.head?_eq_some_iff.mp hhead
  refine ⟨s, past, hs, hpast, @runOf_replies_proven sampleConfig s firstHalfSha3 provingRun [] past
    _ _ _ _ (fun x hx n a b => ?_) hs hpast⟩
  fin_cases hx <;> nofun

end NodeTable
end Aleth.P2p
