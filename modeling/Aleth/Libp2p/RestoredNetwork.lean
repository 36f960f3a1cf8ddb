import Aleth.Libp2p.NodeEntries
import Aleth.Libp2p.NodeTableRuns
import Aleth.Libp2p.SavedRecords

/-! A network configuration that was saved is restored.

A table lists an entry once, and no more than a bucket's size of them belong to
one bucket, so a fresh table of the same key has room for all of them: they are
added one after another (`Refilled`), and nothing is evicted. Peers only have
pings scheduled in the table, and are filed under their ids. -/
namespace Aleth.P2p
open Devcore

namespace NodeTable
variable [Sha3] {c : NodeTableConfig} {m : Moment} {F : NodeID → Prop} {s t t' : NodeTable}
  {e : NodeEntry} {done : List NodeEntry}

/-! ### What a table lists -/

/-- The table of a host that has just started. -/
def started (discovery : Bool) : NodeTable := {initial with isOpen := discovery}

theorem kept_started (discovery : Bool) : Kept c F (started discovery) [] := { kept_initial with }

omit [Sha3] in
theorem proper_started (discovery : Bool) : Proper (started discovery) := { proper_initial with }

theorem mem_snapshot (h : Kept c F s []) :
    e ∈ s.snapshot ↔ ∃ r, s.m_allNodes e.id = some r ∧ s.objects r = e := by
  constructor
  · intro he
    obtain ⟨r, hr, rfl⟩ := List.mem_map.mp he
    obtain ⟨hr, hheld⟩ := List.mem_filter.mp hr
    obtain ⟨b, -, hb⟩ := List.mem_flatMap.mp hr
    exact ⟨r, h.listed_of_holds hb hheld, rfl⟩
  · intro ⟨r, hr, hobject⟩
    obtain ⟨b, hb⟩ := h.listed hr
    have hheld : s.holds [] r = true := by
      rw [← hobject] at hr
      simp [holds, hr]
    exact List.mem_map.mpr ⟨r, List.mem_filter.mpr
      ⟨List.mem_flatMap.mpr ⟨b, List.mem_finRange b, hb⟩, hheld⟩, hobject⟩

/-- No entry is in two buckets. -/
theorem nodup_buckets (h : Kept c F s []) : ((List.finRange s_bins).flatMap s.m_buckets).Nodup := by
  rw [List.nodup_flatMap]
  refine ⟨fun b _ => h.nodup b, ?_⟩
  apply (List.nodup_finRange s_bins).imp
  intro b b' hne r hr hr'
  have hplace := (h.place hr).symm.trans (h.place hr')
  exact hne (Option.some.inj hplace)

theorem nodup_snapshot (h : Kept c F s []) : (s.snapshot.map NodeEntry.id).Nodup := by
  unfold snapshot
  rw [List.map_map]
  apply List.Nodup.map_on _ ((nodup_buckets h).filter _)
  intro r hr r' hr' hid
  obtain ⟨hr, hheld⟩ := List.mem_filter.mp hr
  obtain ⟨hr', hheld'⟩ := List.mem_filter.mp hr'
  obtain ⟨b, -, hb⟩ := List.mem_flatMap.mp hr
  obtain ⟨b', -, hb'⟩ := List.mem_flatMap.mp hr'
  have hlisted := h.listed_of_holds hb hheld
  have hid : (s.objects r).id = (s.objects r').id := hid
  rw [hid] at hlisted
  exact Option.some.inj (hlisted.symm.trans (h.listed_of_holds hb' hheld'))

/-- The entries that belong to a bucket. -/
def belonging (c : NodeTableConfig) (b : Fin s_bins) (l : List NodeEntry) : List NodeEntry :=
  l.filter fun e => c.bucket_UNSAFE e.id = some b

theorem length_belonging_le (h : Kept c F s []) (b : Fin s_bins) :
    (belonging c b s.snapshot).length ≤ s_bucketSize := by
  unfold belonging snapshot
  rw [List.filter_map, List.length_map]
  have hsub : (((List.finRange s_bins).flatMap s.m_buckets).filter (s.holds [])).filter
      ((fun e : NodeEntry => decide (c.bucket_UNSAFE e.id = some b)) ∘ s.objects) ⊆
        s.m_buckets b := by
    intro r hr
    obtain ⟨hr, hbucket⟩ := List.mem_filter.mp hr
    obtain ⟨b', -, hb'⟩ := List.mem_flatMap.mp (List.mem_of_mem_filter hr)
    have hbucket : c.bucket_UNSAFE (s.objects r).id = some b := of_decide_eq_true hbucket
    cases (h.place hb').symm.trans hbucket
    exact hb'
  exact ((List.subperm_of_subset (((nodup_buckets h).filter _).filter _) hsub).length_le).trans
    (h.size b)

/-- An entry that another table of the same host can take. -/
structure Fits (c : NodeTableConfig) (e : NodeEntry) : Prop where
  genuine : e.Genuine
  guest : e.id ≠ c.m_hostNodeID
  place : ∃ b, c.bucket_UNSAFE e.id = some b

theorem fits_of_snapshot (h : Kept c F s []) (hp : Proper s) (he : e ∈ s.snapshot) : Fits c e := by
  obtain ⟨r, hr, rfl⟩ := (mem_snapshot h).mp he
  obtain ⟨b, hb⟩ := h.listed hr
  exact ⟨hp.object r (h.made hb), h.guest hb, b, h.place hb⟩

/-! ### Filling a table -/

/-- An entry that is added again. -/
def addSaved (c : NodeTableConfig) (m : Moment) (e : NodeEntry) (t : NodeTable) :
    Option NodeTable :=
  t.addKnownNode c m e.node (.ofNat e.lastPongReceivedTime) (.ofNat e.lastPongSentTime)

/-- What a table has after these entries were added. -/
structure Refilled (c : NodeTableConfig) (m : Moment) (done : List NodeEntry) (t : NodeTable) :
    Prop where
  kept : Kept c (fun _ => True) t []
  known : ∀ {id r}, t.m_allNodes id = some r →
    t.objects r ∈ done ∧ (t.objects r).hasValidEndpointProof m = true
  restored : ∀ e ∈ done, e.hasValidEndpointProof m = true →
    ∃ r, t.m_allNodes e.id = some r ∧ t.objects r = e
  pinged : ∀ e ∈ done, e.hasValidEndpointProof m = false → e.node ∈ t.scheduled
  room : ∀ b, (t.m_buckets b).length ≤ (belonging c b done).length

theorem refilled_started (discovery : Bool) : Refilled c m [] (started discovery) where
  kept := kept_started discovery
  known := nofun
  restored := nofun
  pinged := nofun
  room := fun _ => le_rfl

omit [Sha3] in
theorem genuine_eq (h : e.Genuine) : (⟨e.node, (UInt32.ofNat e.lastPongReceivedTime).toNat,
    (UInt32.ofNat e.lastPongSentTime).toNat⟩ : NodeEntry) = e := by
  have hreceived : (UInt32.ofNat e.lastPongReceivedTime).toNat = e.lastPongReceivedTime :=
    UInt32.toNat_ofNat_of_lt h.received
  have hsent : (UInt32.ofNat e.lastPongSentTime).toNat = e.lastPongSentTime :=
    UInt32.toNat_ofNat_of_lt h.sent
  rw [hreceived, hsent]

theorem isValidNode_of_fits (h : Fits c e) (ha : c.isAllowedEndpoint e.endpoint = true) :
    c.isValidNode e.node = true := by
  have hne : c.m_hostNodeID ≠ e.node.id := h.guest.symm
  have ha : c.isAllowedEndpoint e.node.endpoint = true := ha
  simp [NodeTableConfig.isValidNode, h.genuine.specified, h.genuine.named, ha, hne]

theorem addSaved_eq (h : Fits c e) (ha : c.isAllowedEndpoint e.endpoint = true)
    (hnew : t.m_allNodes e.id = none) : addSaved c m e t =
      if e.hasValidEndpointProof m then (t.allocate e).2.noteActiveNode c m [t.next] t.next
      else some (t.schedulePing e.node) := by
  have hnone : (t.nodeEntry e.node.id).isSome = false := congrArg Option.isSome hnew
  rw [addSaved, addKnownNode, isValidNode_of_fits h ha, if_neg (by simp), hnone,
    if_neg Bool.false_ne_true]
  dsimp only
  rw [genuine_eq h.genuine]
  rfl

/-- An entry whose endpoint proof is valid takes the last place of its bucket. -/
theorem noteActiveNode_new (h : Fits c e) (ha : c.isAllowedEndpoint e.endpoint = true)
    (hproof : e.hasValidEndpointProof m = true) {b : Fin s_bins}
    (hb : c.bucket_UNSAFE e.id = some b) (hmade : t.next ∉ t.m_buckets b)
    (hroom : (t.m_buckets b).length < s_bucketSize) :
    (t.allocate e).2.noteActiveNode c m [t.next] t.next =
      some ((t.allocate e).2.addToBucket b (t.m_buckets b) t.next) := by
  have hobject : (t.allocate e).2.objects t.next = e := Function.update_self ..
  have hbucket : (t.allocate e).2.m_buckets = t.m_buckets := rfl
  rw [NodeTable.noteActiveNode, hobject, if_neg h.guest, ha, if_neg (by simp), hproof,
    if_neg (by simp), hb, Option.map_some, noteInBucket, hbucket, if_neg hmade, if_pos hroom]

omit [Sha3] in
/-- What is in the table is in it still. -/
theorem addToBucket_allNodes (hnew : t.m_allNodes e.id = none) {b : Fin s_bins} (id : NodeID) :
    ((t.allocate e).2.addToBucket b (t.m_buckets b) t.next).m_allNodes id =
      if id = e.id then some t.next else t.m_allNodes id := by
  have hobject : (t.allocate e).2.objects t.next = e := Function.update_self ..
  show (if id = ((t.allocate e).2.objects t.next).id ∧ t.m_allNodes id = none then some t.next
    else t.m_allNodes id) = _
  rw [hobject]
  by_cases hid : id = e.id
  · rw [if_pos hid, if_pos ⟨hid, hid ▸ hnew⟩]
  · rw [if_neg hid, if_neg fun h => hid h.1]

theorem belonging_append (b : Fin s_bins) (l l' : List NodeEntry) :
    belonging c b (l ++ l') = belonging c b l ++ belonging c b l' := List.filter_append ..

namespace Refilled

theorem listed_lt (h : Refilled c m done t) {id : NodeID} {r : Ref}
    (hr : t.m_allNodes id = some r) : r < t.next := by
  obtain ⟨b, hb⟩ := h.kept.listed hr
  exact h.kept.made hb

theorem allNodes_new (h : Refilled c m done t) (hnew : e.id ∉ done.map NodeEntry.id) :
    t.m_allNodes e.id = none := by
  apply Option.eq_none_iff_forall_ne_some.mpr
  intro r hr
  apply hnew
  rw [← h.kept.id_eq hr]
  exact List.mem_map_of_mem (h.known hr).1

theorem object_new (h : Refilled c m done t) {id : NodeID} {r : Ref}
    (hr : t.m_allNodes id = some r) : Function.update t.objects t.next e r = t.objects r :=
  Function.update_of_ne (h.listed_lt hr).ne ..

theorem length_belonging_append {b b' : Fin s_bins} (hb : c.bucket_UNSAFE e.id = some b) :
    (belonging c b' (done ++ [e])).length =
      (belonging c b' done).length + if b' = b then 1 else 0 := by
  have hone : (belonging c b' [e]).length = if b' = b then 1 else 0 := by
    by_cases hbb : b' = b
    · simp [belonging, hb, hbb]
    · simp [belonging, hb, hbb, Ne.symm hbb]
  rw [belonging_append, List.length_append, hone]

/-- One more entry with a valid endpoint proof. -/
theorem add_proven (h : Refilled c m done t) (hfits : Fits c e)
    (ha : c.isAllowedEndpoint e.endpoint = true) (hnew : e.id ∉ done.map NodeEntry.id)
    (hproof : e.hasValidEndpointProof m = true)
    (hroom : ∀ b, (belonging c b (done ++ [e])).length ≤ s_bucketSize) :
    ∃ t', addSaved c m e t = some t' ∧ Refilled c m (done ++ [e]) t' := by
  obtain ⟨b, hb⟩ := hfits.place
  have hnone := h.allNodes_new hnew
  have hmade : t.next ∉ t.m_buckets b := fun hin => (h.kept.made hin).false
  have hlt : (t.m_buckets b).length < s_bucketSize := by
    have hle := hroom b
    rw [length_belonging_append hb, if_pos rfl] at hle
    exact Nat.lt_of_lt_of_le (Nat.lt_succ_of_le (h.room b)) hle
  have hsaved : addSaved c m e t =
      some ((t.allocate e).2.addToBucket b (t.m_buckets b) t.next) := by
    rw [addSaved_eq hfits ha hnone, if_pos hproof]
    exact noteActiveNode_new hfits ha hproof hb hmade hlt
  refine ⟨_, hsaved, ?_⟩
  have hobjects : ((t.allocate e).2.addToBucket b (t.m_buckets b) t.next).objects =
      Function.update t.objects t.next e := rfl
  have hself : Function.update t.objects t.next e t.next = e := Function.update_self ..
  exact {
    kept := h.kept.addKnownNode trivial hsaved
    known := by
      intro id r hr
      rw [addToBucket_allNodes hnone] at hr
      rw [hobjects]
      split at hr
      case isTrue =>
        cases hr
        rw [hself]
        exact ⟨List.mem_append_right _ List.mem_cons_self, hproof⟩
      case isFalse =>
        rw [h.object_new hr]
        exact ⟨List.mem_append_left _ (h.known hr).1, (h.known hr).2⟩
    restored := by
      intro x hx hxproof
      rw [hobjects]
      rcases List.mem_append.mp hx with hx | hx
      · obtain ⟨r, hr, hobject⟩ := h.restored x hx hxproof
        have hne : x.id ≠ e.id := fun hid => hnew (hid ▸ List.mem_map_of_mem hx)
        refine ⟨r, ?_, (h.object_new hr).trans hobject⟩
        rw [addToBucket_allNodes hnone, if_neg hne, hr]
      · rw [List.mem_singleton.mp hx]
        refine ⟨t.next, ?_, hself⟩
        rw [addToBucket_allNodes hnone, if_pos rfl]
    pinged := by
      intro x hx hxproof
      rcases List.mem_append.mp hx with hx | hx
      · exact h.pinged x hx hxproof
      · rw [List.mem_singleton.mp hx, hproof] at hxproof
        cases hxproof
    room := by
      intro b'
      have hle := h.room b'
      show (Function.update t.m_buckets b (t.m_buckets b ++ [t.next]) b').length ≤ _
      rw [length_belonging_append hb]
      by_cases hbb : b' = b
      · rw [if_pos hbb, hbb, Function.update_self, List.length_append]
        exact Nat.succ_le_succ (hbb ▸ hle)
      · rw [if_neg hbb, Function.update_of_ne hbb]
        exact hle }

/-- One more entry without one. -/
theorem add_unproven (h : Refilled c m done t) (hfits : Fits c e)
    (ha : c.isAllowedEndpoint e.endpoint = true) (hnew : e.id ∉ done.map NodeEntry.id)
    (hproof : e.hasValidEndpointProof m = false) :
    ∃ t', addSaved c m e t = some t' ∧ Refilled c m (done ++ [e]) t' := by
  have hsaved : addSaved c m e t = some (t.schedulePing e.node) := by
    rw [addSaved_eq hfits ha (h.allNodes_new hnew), hproof, if_neg Bool.false_ne_true]
  refine ⟨_, hsaved, ?_⟩
  exact {
    kept := h.kept.addKnownNode trivial hsaved
    known := fun hr => ⟨List.mem_append_left _ (h.known hr).1, (h.known hr).2⟩
    restored := by
      intro x hx hxproof
      rcases List.mem_append.mp hx with hx | hx
      · exact h.restored x hx hxproof
      · rw [List.mem_singleton.mp hx, hproof] at hxproof
        cases hxproof
    pinged := by
      intro x hx hxproof
      rcases List.mem_append.mp hx with hx | hx
      · exact List.mem_append_left _ (h.pinged x hx hxproof)
      · rw [List.mem_singleton.mp hx]
        exact List.mem_append_right _ List.mem_cons_self
    room := fun b => (h.room b).trans (by
      rw [belonging_append, List.length_append]
      exact Nat.le_add_right _ _) }

/-- All the entries of a table, one after another. -/
theorem addAll {l : List NodeEntry} (h : Refilled c m done t) (hfits : ∀ e ∈ l, Fits c e)
    (ha : ∀ e ∈ l, c.isAllowedEndpoint e.endpoint = true)
    (hnodup : ((done ++ l).map NodeEntry.id).Nodup)
    (hroom : ∀ b, (belonging c b (done ++ l)).length ≤ s_bucketSize) :
    ∃ t', l.foldlM (fun t e => addSaved c m e t) t = some t' ∧ Refilled c m (done ++ l) t' := by
  induction l generalizing done t with
  | nil => exact ⟨t, rfl, by rwa [List.append_nil]⟩
  | cons e l ih =>
    have hsplit : done ++ e :: l = done ++ [e] ++ l := by simp
    rw [hsplit] at hnodup hroom ⊢
    have hnew : e.id ∉ done.map NodeEntry.id := by
      rw [List.map_append, List.map_append, List.append_assoc] at hnodup
      intro hin
      exact (List.disjoint_of_nodup_append hnodup) hin (by simp)
    have hroomOne : ∀ b, (belonging c b (done ++ [e])).length ≤ s_bucketSize := by
      intro b
      have hle := hroom b
      rw [belonging_append, List.length_append] at hle
      exact (Nat.le_add_right _ _).trans hle
    have hadded : ∃ t', addSaved c m e t = some t' ∧ Refilled c m (done ++ [e]) t' := by
      cases hproof : e.hasValidEndpointProof m with
      | true =>
        exact h.add_proven (hfits e List.mem_cons_self) (ha e List.mem_cons_self) hnew hproof
          hroomOne
      | false =>
        exact h.add_unproven (hfits e List.mem_cons_self) (ha e List.mem_cons_self) hnew hproof
    obtain ⟨t', hsaved, ht'⟩ := hadded
    obtain ⟨t'', hfold, ht''⟩ := ih ht' (fun x hx => hfits x (List.mem_cons_of_mem e hx))
      (fun x hx => ha x (List.mem_cons_of_mem e hx)) hnodup hroom
    refine ⟨t'', ?_, ht''⟩
    rw [List.foldlM_cons, hsaved]
    exact hfold

/-- The table lists the entries whose endpoint proofs are valid. -/
theorem mem_snapshot_iff (h : Refilled c m done t) :
    e ∈ t.snapshot ↔ e ∈ done ∧ e.hasValidEndpointProof m = true := by
  rw [mem_snapshot h.kept]
  constructor
  · intro ⟨r, hr, hobject⟩
    rw [← hobject]
    exact h.known hr
  · intro ⟨he, hproof⟩
    exact h.restored e he hproof

end Refilled

theorem bucket_UNSAFE_congr {c' : NodeTableConfig} (hid : c'.m_hostNodeID = c.m_hostNodeID) :
    c'.bucket_UNSAFE = c.bucket_UNSAFE := by
  cases c
  cases c'
  cases hid
  rfl

/-- A fresh table of the same host takes any of the entries of another one. -/
theorem refill {c' : NodeTableConfig} (discovery : Bool) (hid : c'.m_hostNodeID = c.m_hostNodeID)
    (h : Kept c F s []) (hp : Proper s) {takes : NodeEntry → Bool}
    (ha : ∀ e, takes e = true → c'.isAllowedEndpoint e.endpoint = true) :
    ∃ t, (s.snapshot.filter takes).foldlM (fun t e => addSaved c' m e t) (started discovery) =
      some t ∧ Refilled c' m (s.snapshot.filter takes) t := by
  have hbucket := bucket_UNSAFE_congr (c := c) hid
  have hfits : ∀ e ∈ s.snapshot.filter takes, Fits c' e := by
    intro e he
    obtain ⟨hgenuine, hguest, hplace⟩ := fits_of_snapshot h hp (List.mem_of_mem_filter he)
    exact ⟨hgenuine, hid ▸ hguest, hbucket ▸ hplace⟩
  have hnodup : ((s.snapshot.filter takes).map NodeEntry.id).Nodup :=
    (nodup_snapshot h).sublist (List.filter_sublist.map _)
  have hroom : ∀ b, (belonging c' b (s.snapshot.filter takes)).length ≤ s_bucketSize := by
    intro b
    have hle : (belonging c b (s.snapshot.filter takes)).length ≤
        (belonging c b s.snapshot).length := (List.filter_sublist.filter _).length_le
    unfold belonging at hle ⊢
    rw [hbucket]
    exact hle.trans (length_belonging_le h b)
  exact (refilled_started discovery).addAll hfits
    (fun e he => ha e (List.mem_filter.mp he).2) hnodup hroom

end NodeTable

namespace NetworkHost
variable {h f f' : NetworkHost} {now : ℤ} {m : Moment} {p : Peer} {t : NodeTable}

/-! ### The entries of the table -/

/-- Whether the record of an entry is for the table. -/
def takes (f : NetworkHost) (e : NodeEntry) : Bool :=
  e.node.endpoint.address.is_v4 && f.isAllowedEndpoint e.node.endpoint

theorem putEntry_eq [Sha3] (ht : f.m_nodeTable = some t) (e : NodeEntry) : f.putEntry m e =
    if f.takes e then
      (NodeTable.addSaved f.config m e t).map fun t => {f with m_nodeTable := some t}
    else some f := by
  rw [putEntry, addKnownNodeToNodeTable, ht]
  rfl

theorem foldlM_putEntry [Sha3] (l : List NodeEntry) (ht : f.m_nodeTable = some t) :
    l.foldlM (fun f e => f.putEntry m e) f =
      ((l.filter f.takes).foldlM (fun t e => NodeTable.addSaved f.config m e t) t).map fun t =>
        {f with m_nodeTable := some t} := by
  induction l generalizing f t with
  | nil =>
    show some f = some {f with m_nodeTable := some t}
    rw [← ht]
  | cons e l ih =>
    rw [List.foldlM_cons]
    rw [putEntry_eq ht]
    cases htakes : f.takes e with
    | false =>
      rw [List.filter_cons_of_neg (by simp [htakes]), if_neg Bool.false_ne_true]
      exact ih ht
    | true =>
      rw [List.filter_cons_of_pos htakes, List.foldlM_cons, if_pos rfl]
      cases NodeTable.addSaved f.config m e t with
      | none => rfl
      | some t' => exact ih (f := {f with m_nodeTable := some t'}) rfl

/-! ### Peers -/

/-- Whether the record of a peer makes a peer. -/
def accepts (f : NetworkHost) (p : Peer) : Bool :=
  p.peerType = .Required || f.isAllowedEndpoint p.endpoint

/-- Nodes are only scheduled for pings. -/
structure Schedules (f f' : NetworkHost) : Prop where
  config : f'.config = f.config
  table : ∀ {t}, f.m_nodeTable = some t →
    ∃ l, f'.m_nodeTable = some {t with scheduled := t.scheduled ++ l}

namespace Schedules

theorem refl (f : NetworkHost) : Schedules f f := ⟨rfl, fun ht => ⟨[], by simp [ht]⟩⟩

theorem trans {g : NetworkHost} (h : Schedules f f') (h' : Schedules f' g) : Schedules f g := by
  refine ⟨h'.config.trans h.config, fun {t} ht => ?_⟩
  obtain ⟨l, hl⟩ := h.table ht
  obtain ⟨l', hl'⟩ := h'.table hl
  exact ⟨l ++ l', by rw [hl', List.append_assoc]⟩

end Schedules

theorem schedules_addNode (n : Node) : Schedules f (f.addNodeToNodeTable m n) := by
  refine ⟨rfl, fun {t} ht => ?_⟩
  have htable : (f.addNodeToNodeTable m n).m_nodeTable = some (t.addNode f.config m n).2 := by
    rw [addNodeToNodeTable, ht]
    rfl
  rw [htable, NodeTable.addNode]
  split
  · exact ⟨[], by simp⟩
  · split
    · exact ⟨[n], rfl⟩
    · exact ⟨[], by simp⟩

/-- Peers and what is required of them do not matter to the table. -/
theorem schedules_set (f : NetworkHost) (required : List NodeID)
    (peers : InsertionMap NodeID Peer) :
    Schedules f {f with m_requiredPeers := required, m_peers := peers} :=
  ⟨rfl, fun ht => ⟨[], by simp [ht]⟩⟩

/-- A peer that is there already is required from then on. -/
theorem requirePeer_find {q : Peer} (hq : f.m_peers.find q.id = some q)
    (hrequired : q.peerType = .Required) :
    (f.requirePeer m q.toNode).m_peers.find = f.m_peers.find ∧
      Schedules f (f.requirePeer m q.toNode) := by
  unfold requirePeer
  split
  · exact ⟨rfl, .refl f⟩
  · have hsame : {q with endpoint := q.endpoint, peerType := .Required} = q := by
      rw [← hrequired]
    rw [hq]
    dsimp only
    rw [hsame]
    refine ⟨?_, (schedules_set f _ _).trans (schedules_addNode _)⟩
    show (f.m_peers.set q.id q).find = f.m_peers.find
    rw [InsertionMap.set_self hq]

theorem accepts_congr (hconfig : f'.config = f.config) (p : Peer) :
    f'.accepts p = f.accepts p := by
  unfold accepts isAllowedEndpoint
  rw [hconfig]

/-- What the record of a peer does: nothing, or the peer is filed. -/
theorem putPeer_spec (m : Moment) (f : NetworkHost) (p : Peer) : Schedules f (f.putPeer m p) ∧
    ∀ id, (f.putPeer m p).m_peers.find id =
      if id = p.id ∧ f.accepts p = true then some p.reloaded else f.m_peers.find id := by
  have hskips : (!f.isAllowedEndpoint p.endpoint && p.peerType = .Optional) = !f.accepts p := by
    unfold accepts
    cases p.peerType <;> simp
  rw [putPeer, hskips]
  cases haccepts : f.accepts p with
  | false => exact ⟨.refl f, fun id => by simp⟩
  | true =>
    rw [if_neg (by simp)]
    dsimp only
    have hset := schedules_set f f.m_requiredPeers (f.m_peers.set p.id p.reloaded)
    have hfind : ∀ id, (f.m_peers.set p.id p.reloaded).find id =
        if id = p.id ∧ true = true then some p.reloaded else f.m_peers.find id := by simp
    split
    case isTrue hrequired =>
      have hself : (f.m_peers.set p.id p.reloaded).find p.reloaded.id = some p.reloaded :=
        if_pos rfl
      obtain ⟨hsame, hschedules⟩ := @requirePeer_find
        {f with m_peers := f.m_peers.set p.id p.reloaded} m p.reloaded hself hrequired
      refine ⟨hset.trans hschedules, fun id => ?_⟩
      rw [← hfind id]
      exact congrFun hsame id
    case isFalse => exact ⟨hset.trans (schedules_addNode _), hfind⟩

/-- What a host has after these peers were restored. -/
structure Gained (f : NetworkHost) (done : List Peer) (f' : NetworkHost) : Prop where
  schedules : Schedules f f'
  gained : ∀ p ∈ done, f.accepts p = true → f'.m_peers.find p.id = some p.reloaded
  only : ∀ {id q}, f'.m_peers.find id = some q → ∃ p ∈ done, f.accepts p = true ∧ p.id = id

theorem Gained.put {done : List Peer} (h : Gained f done f') (hnew : p.id ∉ done.map (·.id)) :
    Gained f (done ++ [p]) (f'.putPeer m p) := by
  obtain ⟨hschedules, hfind⟩ := putPeer_spec m f' p
  rw [accepts_congr h.schedules.config] at hfind
  refine ⟨h.schedules.trans hschedules, fun x hx haccepts => ?_, fun {id q} hq => ?_⟩
  · rw [hfind]
    rcases List.mem_append.mp hx with hx | hx
    · have hne : x.id ≠ p.id := fun hid => hnew (hid ▸ List.mem_map_of_mem hx)
      rw [if_neg fun hand => hne hand.1]
      exact h.gained x hx haccepts
    · rw [List.mem_singleton] at hx
      rw [hx] at haccepts ⊢
      exact if_pos ⟨rfl, haccepts⟩
  · rw [hfind] at hq
    split at hq
    case isTrue hand =>
      exact ⟨p, List.mem_append_right _ List.mem_cons_self, hand.2, hand.1.symm⟩
    case isFalse =>
      obtain ⟨x, hx, hx'⟩ := h.only hq
      exact ⟨x, List.mem_append_left _ hx, hx'⟩

theorem Gained.putAll {done l : List Peer} (h : Gained f done f')
    (hnodup : ((done ++ l).map (·.id)).Nodup) :
    Gained f (done ++ l) (l.foldl (fun f p => f.putPeer m p) f') := by
  induction l generalizing done f' with
  | nil => rwa [List.append_nil]
  | cons p l ih =>
    have hsplit : done ++ p :: l = done ++ [p] ++ l := by simp
    rw [hsplit] at hnodup ⊢
    have hnew : p.id ∉ done.map (·.id) := by
      rw [List.map_append, List.map_append, List.append_assoc] at hnodup
      intro hin
      exact (List.disjoint_of_nodup_append hnodup) hin (by simp)
    exact ih (h.put hnew) hnodup

/-! ### The host that saved -/

/-- A peer is filed under its id, and the table has been through a run. -/
structure Lived [Sha3] (h : NetworkHost) : Prop where
  filed : ∀ {id p}, h.m_peers.find id = some p → p.id = id
  table : ∀ {s}, h.m_nodeTable = some s → ∃ discovery l, (∀ x ∈ l, NodeTable.Proper.Signed x.2) ∧
    NodeTable.runOf h.config (.started discovery) l = some s

/-- A host that has just started with the same key. -/
structure Fresh (h f : NetworkHost) : Prop where
  started : f.isStarted = true
  same : f.config.m_hostNodeID = h.config.m_hostNodeID
  table : ∃ discovery, f.m_nodeTable = some (.started discovery)
  peers : f.m_peers = .empty

theorem nodup_peers [Sha3] (hl : h.Lived) : ((h.peers now).map (·.id)).Nodup := by
  have hkeys : (h.m_peers.entries.map fun x => x.2.id).Nodup := by
    have heq : (h.m_peers.entries.map fun x => x.2.id) = h.m_peers.keys := by
      unfold InsertionMap.entries
      rw [List.map_filterMap]
      conv_rhs => rw [← List.filterMap_some (l := h.m_peers.keys)]
      apply List.filterMap_congr
      intro id hid
      obtain ⟨p, hp⟩ := Option.isSome_iff_exists.mp ((h.m_peers.mem_keys id).mp hid)
      rw [hp]
      exact congrArg some (hl.filed hp)
    rw [heq]
    exact h.m_peers.nodup
  have hsub : ((h.peers now).map (·.id)).Sublist (h.m_peers.entries.map fun x => x.2.id) := by
    have hmap : (h.m_peers.entries.map fun x => x.2.id) =
        (h.m_peers.entries.map Prod.snd).map (·.id) := by rw [List.map_map]; rfl
    rw [hmap]
    exact List.filter_sublist.map _
  exact hkeys.sublist hsub

/-- What comes back of a peer: times in whole seconds that fit in 32 bits, and all the rest. -/
structure Same (p q : Peer) : Prop where
  node : q.toNode = p.toNode
  peerType : q.peerType = p.peerType
  lastConnected : 0 ≤ secondsOf p.m_lastConnected → secondsOf p.m_lastConnected < 2 ^ 32 →
    secondsOf q.m_lastConnected = secondsOf p.m_lastConnected
  lastAttempted : 0 ≤ secondsOf p.m_lastAttempted → secondsOf p.m_lastAttempted < 2 ^ 32 →
    secondsOf q.m_lastAttempted = secondsOf p.m_lastAttempted
  failedAttempts : q.m_failedAttempts = p.m_failedAttempts
  lastDisconnect : q.m_lastDisconnect = p.m_lastDisconnect
  score : q.m_score = p.m_score
  rating : q.m_rating = p.m_rating

theorem secondsOf_reloaded {t : ℤ} (h : 0 ≤ secondsOf t) (hlt : secondsOf t < 2 ^ 32) :
    secondsOf (toUnsigned (secondsOf t) * 10 ^ 9) = secondsOf t := by
  have hword : (toUnsigned (secondsOf t) : ℤ) = secondsOf t := by
    unfold toUnsigned
    omega
  rw [hword]
  exact Int.mul_tdiv_cancel _ (by norm_num)

theorem same_reloaded (p : Peer) : Same p p.reloaded :=
  ⟨rfl, rfl, secondsOf_reloaded, secondsOf_reloaded, rfl, rfl, rfl, rfl⟩

/-- The table lists again what it listed, if it may and the endpoint proof is still valid, and
pings the rest; the peers are there again; and nothing else is. -/
structure Restored [Sha3] (h f : NetworkHost) (now : ℤ) (m : Moment) (f' : NetworkHost) : Prop where
  entries : ∀ e, e ∈ f'.nodeTableEntries ↔
    e ∈ h.nodeTableEntries ∧ f.takes e = true ∧ e.hasValidEndpointProof m = true
  once : (f'.nodeTableEntries.map NodeEntry.id).Nodup
  pinged : ∀ e ∈ h.nodeTableEntries, f.takes e = true → e.hasValidEndpointProof m = false →
    ∃ t, f'.m_nodeTable = some t ∧ e.node ∈ t.scheduled
  peers : ∀ p ∈ h.peers now, f.accepts p = true → ∃ q, f'.m_peers.find p.id = some q ∧ Same p q
  onlyPeers : ∀ {id q}, f'.m_peers.find id = some q →
    ∃ p ∈ h.peers now, f.accepts p = true ∧ p.id = id

/-- The nodes that are saved come back in the other host. -/
def RestoresNodes [Sha3] (h f : NetworkHost) (now : ℤ) (m : Moment) : Prop :=
  ∃ b f', h.saveNetwork now = .ok b ∧ f.restoreNetwork m b = .ok f' ∧ Restored h f now m f'

/-- The key and the record come back. -/
def RestoresRecord [Sha3] [Ecdsa H256] (h : NetworkHost) (now : ℤ) (created : H256)
    (address : Address) (listenPort : UInt16) : Prop :=
  ∃ b, h.saveNetwork now = .ok b ∧
    restoreENR created address listenPort b = .ok (h.m_alias, h.enr)

/-- The table after the entries were restored. -/
theorem refill_entries [Sha3] (hl : h.Lived) (hf : Fresh h f) :
    ∃ t, h.nodeTableEntries.foldlM (fun f e => f.putEntry m e) f =
      some {f with m_nodeTable := some t} ∧
      NodeTable.Refilled f.config m (h.nodeTableEntries.filter f.takes) t := by
  obtain ⟨discovery, ht⟩ := hf.table
  cases hs : h.m_nodeTable with
  | none =>
    have hnil : h.nodeTableEntries = [] := by
      unfold nodeTableEntries
      rw [hs]
      rfl
    rw [hnil]
    refine ⟨_, ?_, NodeTable.refilled_started discovery⟩
    rw [← ht]
    rfl
  | some s =>
    obtain ⟨discovery', l, hsigned, hrun⟩ := hl.table hs
    have hkept : NodeTable.Kept h.config (fun _ => True) s [] :=
      (NodeTable.kept_started discovery').runOf (fun _ _ _ _ => trivial) hrun
    have hproper := (NodeTable.proper_started discovery').runOf hsigned hrun
    have hsnapshot : h.nodeTableEntries = s.snapshot := by
      unfold nodeTableEntries
      rw [hs]
      rfl
    have hallowed : ∀ e, f.takes e = true → f.config.isAllowedEndpoint e.endpoint = true :=
      fun e he => (Bool.and_eq_true_iff.mp he).2
    obtain ⟨t, hfold, ht'⟩ := NodeTable.refill (m := m) discovery hf.same hkept hproper
      hallowed
    rw [hsnapshot, foldlM_putEntry _ ht, hfold]
    exact ⟨t, rfl, ht'⟩

/-- The hosts agree once the saved nodes are put into the fresh one. -/
theorem putNodes_restored [Sha3] (now : ℤ) (m : Moment) (hl : h.Lived) (hf : Fresh h f) :
    ∃ f', f.putNodes m h.nodeTableEntries (h.peers now) = some f' ∧ Restored h f now m f' := by
  obtain ⟨t, hfold, hrefilled⟩ := refill_entries (m := m) hl hf
  let g : NetworkHost := {f with m_nodeTable := some t}
  have hstart : Gained g [] g := by
    refine ⟨.refl g, nofun, fun {id q} hq => ?_⟩
    have hempty : g.m_peers = .empty := hf.peers
    rw [hempty] at hq
    cases hq
  have hgained : Gained g (h.peers now) ((h.peers now).foldl (fun f p => f.putPeer m p) g) :=
    hstart.putAll (nodup_peers hl)
  obtain ⟨scheduled, htable⟩ := hgained.schedules.table rfl
  have hlisted : ((h.peers now).foldl (fun f p => f.putPeer m p) g).nodeTableEntries =
      t.snapshot := by
    unfold nodeTableEntries
    rw [htable]
    rfl
  refine ⟨(h.peers now).foldl (fun f p => f.putPeer m p) g, ?_, ?_⟩
  · rw [putNodes, hfold]
    rfl
  · exact {
      entries := fun e => by
        rw [hlisted, hrefilled.mem_snapshot_iff, List.mem_filter, and_assoc]
      once := by
        rw [hlisted]
        exact NodeTable.nodup_snapshot hrefilled.kept
      pinged := fun e he htakes hproof => ⟨_, htable, List.mem_append_left _
        (hrefilled.pinged e (List.mem_filter.mpr ⟨he, htakes⟩) hproof)⟩
      peers := fun p hp haccepts => ⟨p.reloaded, hgained.gained p hp haccepts, same_reloaded p⟩
      onlyPeers := hgained.only }

/-- **A host that is not running saves what a fresh host with its key restores**: the entries of
the node table, the peers, the key, and the record if its number fits in 32 bits. -/
theorem saveNetwork_restored [Sha3] [Ecdsa H256] (hl : h.Lived) (hown : h.OwnsRecord)
    (hsign : IdentitySchemeV4.SignsWell h.m_alias) (hrun : h.m_run = false)
    (hfew : h.nodeTableEntries.length + (h.peers now).length < 2 ^ 31) (hf : Fresh h f)
    (created : H256) (address : Address) (listenPort : UInt16) :
    h.RestoresNodes f now m ∧
      (h.enr.m_seq.toNat < 2 ^ 32 → h.RestoresRecord now created address listenPort) := by
  have hshort := shortRecord_of_owns hown
  have hsaved := saveNetwork_eq hrun hshort hfew
  constructor
  · obtain ⟨f', hput, hrestored⟩ := putNodes_restored now m hl hf
    refine ⟨_, f', hsaved, ?_, hrestored⟩
    rw [restoreNetwork_eq hshort hfew hf.started, hput]
  · intro hseq
    refine ⟨_, hsaved, ?_⟩
    rw [restoreENR_eq hown hsign hfew, ENR.cut_eq_iff.mpr hseq]

theorem ownsRecord_of_createENR [Sha3] [Ecdsa H256] (ip : Address) (tcpPort udpPort : UInt16)
    (hcreate : IdentitySchemeV4.createENR h.m_alias ip tcpPort udpPort = .ok h.enr) :
    h.OwnsRecord := by
  obtain ⟨kvs, hkvs, hcreate⟩ := bind_eq_ok.mp hcreate
  obtain ⟨content, hcontent, henr⟩ := bind_eq_ok.mp hcreate
  have hseq : h.enr.m_seq = 1 := by rw [← Except.ok.inj henr]
  exact ⟨ip, tcpPort, udpPort, kvs, hkvs, hseq ▸ hcreate⟩

/-! ### A host with a node and a peer -/

/-- The signature names the hash and the key. -/
@[reducible] def namedEcdsa : Ecdsa H256 where
  toPublicCompressed s := ⟨2 :: s.bytes, by rw [List.length_cons, s.size]⟩
  sign s h := ⟨h.bytes ++ 2 :: s.bytes, by
    rw [List.length_append, List.length_cons, h.size, s.size]⟩
  verify key sig h := sig = h.bytes ++ key.take 32

theorem signsWell_named (s : H256) : @IdentitySchemeV4.SignsWell H256 namedEcdsa s := by
  intro h
  apply decide_eq_true
  show (h.bytes ++ 2 :: s.bytes).take 64 = _
  rw [List.take_append, h.size, List.take_of_length_le (by rw [h.size]; norm_num)]
  rfl

attribute [local instance] NodeTable.firstHalfSha3
attribute [local instance] namedEcdsa

/-- A required peer that has scored badly. -/
def samplePeer : Peer :=
  {Peer.ofNode ⟨NodeTable.nodeOf 3 1, NodeTable.publicEndpoint 9⟩ .Required with
    m_lastConnected := 1000000 * 10 ^ 9 + 5
    m_score := -3
    m_rating := -1}

def sampleEvents : List (Moment × NodeTable.Event) :=
  [(NodeTable.at_ 0, .addKnownNode ⟨NodeTable.nodeOf 2 1, NodeTable.publicEndpoint 8⟩ 1000000 0)]

def sampleTable : NodeTable :=
  (NodeTable.runOf NodeTable.sampleConfig (.started true) sampleEvents).getD (.started true)

def createdENR : Except RLPException ENR :=
  IdentitySchemeV4.createENR H256.zero (.v4 [8, 8, 8, 8] rfl) 30303 30303

def sampleHost (run : Bool) : NetworkHost where
  config := NodeTable.sampleConfig
  m_alias := .zero
  enr := createdENR.toOption.getD ⟨0, .empty, []⟩
  isStarted := run
  m_run := run
  haveCapabilities := true
  m_nodeTable := some sampleTable
  m_peers := InsertionMap.empty.set samplePeer.id samplePeer
  m_requiredPeers := [samplePeer.id]

def freshHost : NetworkHost := {sampleHost true with
  m_nodeTable := some (.started true)
  m_peers := .empty
  m_requiredPeers := []}

theorem runOf_sample :
    NodeTable.runOf NodeTable.sampleConfig (.started true) sampleEvents = some sampleTable := by
  have hsome : (NodeTable.runOf NodeTable.sampleConfig (.started true) sampleEvents).isSome =
      true := by decide +kernel
  obtain ⟨s, hs⟩ := Option.isSome_iff_exists.mp hsome
  rw [sampleTable, hs]
  rfl

theorem lived_sample (run : Bool) : (sampleHost run).Lived where
  filed := fun {id p} hp => by
    have hp : (if id = samplePeer.id then some samplePeer else none) = some p := hp
    split at hp
    case isTrue hid =>
      cases hp
      exact hid.symm
    case isFalse => cases hp
  table := fun {s} hs => by
    cases hs
    refine ⟨true, sampleEvents, fun x hx => ?_, runOf_sample⟩
    rw [List.mem_singleton.mp hx]
    trivial

theorem fresh_sample (run : Bool) : Fresh (sampleHost run) freshHost :=
  ⟨rfl, rfl, ⟨true, rfl⟩, rfl⟩

theorem ownsRecord_sample (run : Bool) : (sampleHost run).OwnsRecord := by
  have hsome : createdENR.toOption.isSome = true := by decide +kernel
  apply ownsRecord_of_createENR (.v4 [8, 8, 8, 8] rfl) 30303 30303
  show createdENR = .ok (createdENR.toOption.getD ⟨0, .empty, []⟩)
  cases henr : createdENR with
  | error e =>
    rw [henr] at hsome
    cases hsome
  | ok e => rfl

/-- Both are restored an hour later. -/
theorem saveNetwork_restored_sample :
    (sampleHost false).RestoresNodes freshHost (1003600 * 10 ^ 9) (NodeTable.at_ 3600) ∧
      ((sampleHost false).enr.m_seq.toNat < 2 ^ 32 →
        (sampleHost false).RestoresRecord (1003600 * 10 ^ 9) .zero .unspecified 0) :=
  saveNetwork_restored (lived_sample false) (ownsRecord_sample false) (signsWell_named _) rfl
    (by decide +kernel) (fresh_sample false) .zero .unspecified 0

/-- A host that is running saves nothing. -/
theorem running_not_restored : (sampleHost true).Lived ∧ (sampleHost true).OwnsRecord ∧
    Fresh (sampleHost true) freshHost ∧
    ¬(sampleHost true).RestoresNodes freshHost (1003600 * 10 ^ 9) (NodeTable.at_ 3600) := by
  refine ⟨lived_sample true, ownsRecord_sample true, fresh_sample true, ?_⟩
  intro ⟨b, f', hb, hf', hrestored⟩
  cases hb
  cases hf'
  have hsaved : samplePeer ∈ (sampleHost true).peers (1003600 * 10 ^ 9) := by decide +kernel
  obtain ⟨q, hq, -⟩ := hrestored.peers samplePeer hsaved rfl
  cases hq

end NetworkHost
end Aleth.P2p
