import Aleth.Libp2p.NodeTable
import Mathlib.Data.List.Nodup
import Mathlib.Data.List.Perm.Subperm

/-! The buckets of the node table are consistent.

`Kept` is the invariant, in the middle of a handler too: `hands` are the new
entries and replacements the handler has in hand. What waits to enter the table
(`parked`) is in no bucket, was in no discovery round and is parked once, so an
entry that reaches a bucket without reaching `m_allNodes`, because another one
of its id is there, is held by nobody when the handler ends. -/
namespace Aleth.P2p
open Devcore

namespace NodeTable
variable {c : NodeTableConfig} {m : Moment} {s s' : NodeTable} {hands held : List Ref} {r : Ref}

/-- The entries that wait to enter the table. -/
def parked (s : NodeTable) (hands : List Ref) : List Ref := s.replacements ++ hands

structure Kept [Sha3] (c : NodeTableConfig) (F : NodeID → Prop) (s : NodeTable) (hands : List Ref) : Prop where
  id_eq : ∀ {id r}, s.m_allNodes id = some r → (s.objects r).id = id
  listed : ∀ {id r}, s.m_allNodes id = some r → ∃ b, r ∈ s.m_buckets b
  place : ∀ {b r}, r ∈ s.m_buckets b → c.bucket_UNSAFE (s.objects r).id = some b
  nodup : ∀ b, (s.m_buckets b).Nodup
  size : ∀ b, (s.m_buckets b).length ≤ s_bucketSize
  guest : ∀ {b r}, r ∈ s.m_buckets b → (s.objects r).id ≠ c.m_hostNodeID
  allowed : ∀ {b r}, r ∈ s.m_buckets b → c.isAllowedEndpoint (s.objects r).endpoint = true
  made : ∀ {b r}, r ∈ s.m_buckets b → r < s.next
  parkedMade : ∀ {r}, r ∈ s.parked hands → r < s.next
  triedMade : ∀ {r}, r ∈ s.tried → r < s.next
  parkedNodup : (s.parked hands).Nodup
  parkedOut : ∀ {r}, r ∈ s.parked hands → ∀ b, r ∉ s.m_buckets b
  parkedUntried : ∀ {r}, r ∈ s.parked hands → r ∉ s.tried
  triedListed : ∀ {b r}, r ∈ s.tried → r ∈ s.m_buckets b → s.m_allNodes (s.objects r).id = some r
  pinged : ∀ {e v}, s.m_sentPings.find e = some v →
    isAllowedAddress c.m_allowLocalDiscovery e.address = true
  scheduledAllowed : ∀ {n}, n ∈ s.scheduled → c.isAllowedEndpoint n.endpoint = true
  entered : ∀ r < s.next, F (s.objects r).id

/-! ### Parking -/

theorem eq_of_some_eq {α β : Type} {p : α × β} {a : α} {b : β} (h : some p = some (a, b)) :
    p.1 = a ∧ p.2 = b := by
  cases h
  exact ⟨rfl, rfl⟩

theorem nodup_of_subperm {l l' : List Ref} (h : l.Subperm l') (hn : l'.Nodup) : l.Nodup := by
  obtain ⟨x, hp, hs⟩ := h
  exact hp.nodup_iff.mp (hn.sublist hs)

theorem replacementsOf_insert {p : SortedMap UdpEndpoint NodeValidation} {e : UdpEndpoint}
    (he : p.find e = none) (v : NodeValidation) :
    (replacementsOf (p.insert e v)).Perm (v.replacementNodeEntry.toList ++ replacementsOf p) := by
  have hp := (SortedMap.insert_perm he v).filterMap fun x => x.2.replacementNodeEntry
  unfold replacementsOf
  cases hv : v.replacementNodeEntry with
  | none => simpa [hv] using hp
  | some r => simpa [hv] using hp

theorem replacementsOf_erase {p : SortedMap UdpEndpoint NodeValidation} {e : UdpEndpoint}
    {v : NodeValidation} (he : p.find e = some v) :
    (replacementsOf p).Perm (v.replacementNodeEntry.toList ++ replacementsOf (p.erase e)) := by
  have hp := (SortedMap.erase_perm he).filterMap fun x => x.2.replacementNodeEntry
  unfold replacementsOf
  cases hv : v.replacementNodeEntry with
  | none => simpa [hv] using hp
  | some r => simpa [hv] using hp

/-- Moving something from one part of a list to the other. -/
theorem append_move (x l hands : List Ref) : ((x ++ l) ++ hands).Perm (l ++ (x ++ hands)) := by
  rw [← List.append_assoc]
  exact List.perm_append_comm.append_right hands

theorem mem_setBucket {b b' : Fin s_bins} {nodes : List Ref} :
    r ∈ (s.setBucket b nodes).m_buckets b' ↔ if b' = b then r ∈ nodes else r ∈ s.m_buckets b' := by
  unfold setBucket
  by_cases hb : b' = b
  · subst hb
    simp
  · simp [hb]

/-- The nodes an event may make an entry for: who answers a ping, and who is known. -/
def Event.Enters (id : NodeID) : Event → Prop
  | .packet _ p => p.sourceid = id ∧ ∃ echo, p.payload = .Pong echo
  | .addKnownNode n _ _ => n.id = id
  | _ => False

/-- What `noteActiveNode` may get: an entry of the table, or one in the handler's hands. -/
inductive Active (s : NodeTable) (hands : List Ref) (r : Ref) : List Ref → Prop where
  | listed {id : NodeID} (h : s.m_allNodes id = some r) : Active s hands r hands
  | parked : Active s hands r (r :: hands)

/-- What a handler may hand over. -/
def Handed (s : NodeTable) (hands : List Ref) : Option Ref → List Ref → Prop
  | none, hands' => hands' = hands
  | some r, hands' => Active s hands r hands'

theorem Active.of_allNodes {hands' : List Ref} (h : Active s hands r hands')
    (hs : s'.m_allNodes = s.m_allNodes) : Active s' hands r hands' := by
  cases h with
  | listed hid => exact .listed (hs ▸ hid)
  | parked => exact .parked

/-! ### What the handlers leave alone -/

theorem allowed_of_isValidNode {n : Node} (h : c.isValidNode n = true) :
    c.isAllowedEndpoint n.endpoint = true := by
  simp only [NodeTableConfig.isValidNode, Bool.and_eq_true] at h
  exact h.1.2

theorem updateEntry_pings (source : UdpEndpoint) (tcpPort : UInt16) (sourceid : NodeID) :
    (s.updateEntry m source tcpPort sourceid).2.m_sentPings = s.m_sentPings := by
  unfold NodeTable.updateEntry
  cases s.m_allNodes sourceid <;> rfl

theorem knownSource_listed {source : UdpEndpoint} {sourceid : NodeID}
    (h : s.knownSource source sourceid = some r) : s.m_allNodes sourceid = some r :=
  (Option.filter_eq_some_iff.mp h).1

theorem provenSource_listed {source : UdpEndpoint} {sourceid : NodeID}
    (h : s.provenSource m source sourceid = some r) : s.m_allNodes sourceid = some r :=
  knownSource_listed (Option.filter_eq_some_iff.mp h).1

theorem addNode_allNodes (n : Node) : (s.addNode c m n).2.m_allNodes = s.m_allNodes := by
  unfold NodeTable.addNode
  split
  · rfl
  · split <;> rfl

theorem addNodes_allNodes (l : List Node) :
    (l.foldl (fun s n => (s.addNode c m n).2) s).m_allNodes = s.m_allNodes := by
  induction l generalizing s with
  | nil => rfl
  | cons n l ih => exact ih.trans (addNode_allNodes n)

theorem sendNeighbours_allNodes {source : UdpEndpoint} {sourceid : NodeID} (k : ℕ)
    (nearest : List Node) :
    (sendNeighbours m source sourceid k nearest s).m_allNodes = s.m_allNodes := by
  induction k generalizing s nearest with
  | zero => rfl
  | succ k ih =>
    unfold sendNeighbours
    split
    · rfl
    · exact ih _

theorem mem_keepNearest {found : List (ℕ × Ref)} {d : ℕ} {x : ℕ × Ref}
    (hx : x ∈ keepNearest found d r) : x.2 = r ∨ x ∈ found := by
  have hx := List.mem_of_mem_take hx
  rcases List.mem_append.mp hx with hx | hx
  · exact .inr ((List.takeWhile_sublist _).subset hx)
  · rcases List.mem_cons.mp hx with rfl | hx
    · exact .inl rfl
    · exact .inr ((List.dropWhile_sublist _).subset hx)

theorem mem_foldl_keepNearest {d : Ref → ℕ} {l : List Ref} {found : List (ℕ × Ref)} {x : ℕ × Ref}
    (hx : x ∈ l.foldl (fun found r => keepNearest found (d r) r) found) :
    x.2 ∈ l ∨ x ∈ found := by
  induction l generalizing found with
  | nil => exact .inr hx
  | cons r l ih =>
    rcases ih hx with hx | hx
    · exact .inl (List.mem_cons_of_mem _ hx)
    · rcases mem_keepNearest hx with hx | hx
      · exact .inl (hx ▸ List.mem_cons_self)
      · exact .inr hx

theorem ping_allNodes (n : Node) (o : Option Ref) : (s.ping m n o).m_allNodes = s.m_allNodes := by
  unfold NodeTable.ping
  split
  · rfl
  · split <;> rfl

theorem ping_objects (n : Node) (o : Option Ref) : (s.ping m n o).objects = s.objects := by
  unfold NodeTable.ping
  split
  · rfl
  · split <;> rfl

theorem ping_round (n : Node) (o : Option Ref) : (s.ping m n o).round = s.round := by
  unfold NodeTable.ping
  split
  · rfl
  · split <;> rfl

/-- The loop over the nearest nodes changes no node and tries only what it is given. -/
theorem askNearest_frame (m : Moment) (target : NodeID) (l tried : List Ref) (count : ℕ)
    (s : NodeTable) :
    (askNearest m target l tried count s).2.2.m_allNodes = s.m_allNodes ∧
      (askNearest m target l tried count s).2.2.objects = s.objects ∧
      (askNearest m target l tried count s).2.2.round = s.round ∧
      ∀ r ∈ (askNearest m target l tried count s).1, r ∈ tried ∨ r ∈ l := by
  induction l generalizing tried count s with
  | nil => exact ⟨rfl, rfl, rfl, fun r hr => .inl hr⟩
  | cons x l ih =>
    have hwiden : ∀ {t' : List Ref} {r : Ref}, (r ∈ t' ∨ r ∈ l) → (r ∈ t' → r ∈ tried ∨ r = x) →
        r ∈ tried ∨ r ∈ x :: l := by
      intro t' r hr ht
      rcases hr with hr | hr
      · rcases ht hr with hr | rfl
        · exact .inl hr
        · exact .inr List.mem_cons_self
      · exact .inr (List.mem_cons_of_mem _ hr)
    unfold askNearest
    split
    · obtain ⟨ha, ho, hr, ht⟩ := ih tried count s
      exact ⟨ha, ho, hr, fun r hr => hwiden (ht r hr) .inl⟩
    · split
      · obtain ⟨ha, ho, hr, ht⟩ := ih tried count (s.ping m (s.objects x).node none)
        exact ⟨ha.trans (ping_allNodes _ _), ho.trans (ping_objects _ _),
          hr.trans (ping_round _ _), fun r hr => hwiden (ht r hr) .inl⟩
      · have hsnoc : ∀ {r : Ref}, r ∈ tried ++ [x] → r ∈ tried ∨ r = x := fun hr =>
          (List.mem_append.mp hr).imp_right List.mem_singleton.mp
        dsimp only
        split
        · exact ⟨rfl, rfl, rfl, fun r hr => hwiden (.inl hr) hsnoc⟩
        · obtain ⟨ha, ho, hr, ht⟩ := ih (tried ++ [x]) (count + 1)
            (NodeTable.log {s with m_sentFindNodes :=
              s.m_sentFindNodes ++ [((s.objects x).id, m.steady)]}
              (.findNodeSent (s.objects x).endpoint.udp target))
          exact ⟨ha, ho, hr, fun r hr => hwiden (ht r hr) hsnoc⟩

variable [Sha3] {F : NodeID → Prop}

/-- Fewer entries parked. -/
theorem Kept.park {hands' : List Ref} (h : Kept c F s hands')
    {p : SortedMap UdpEndpoint NodeValidation} {t : List Happening}
    (hsub : ({s with m_sentPings := p, trace := t}.parked hands).Subperm (s.parked hands'))
    (hp : ∀ {e v}, p.find e = some v → isAllowedAddress c.m_allowLocalDiscovery e.address = true) :
    Kept c F {s with m_sentPings := p, trace := t} hands := { h with
  parkedMade := fun hr => h.parkedMade (hsub.subset hr)
  parkedNodup := nodup_of_subperm hsub h.parkedNodup
  parkedOut := fun hr => h.parkedOut (hsub.subset hr)
  parkedUntried := fun hr => h.parkedUntried (hsub.subset hr)
  pinged := hp }

theorem Kept.weaken {hands' : List Ref} (h : Kept c F s hands') (hs : hands.Subperm hands') :
    Kept c F s hands := h.park ((List.subperm_append_left _).mpr hs) h.pinged

theorem Kept.log (h : Kept c F s hands) (x : Happening) : Kept c F (s.log x) hands := { h with }

/-! ### Pings -/

/-- A ping takes its replacement out of the handler's hands. -/
theorem Kept.ping {n : Node} {replacement : Option Ref}
    (h : Kept c F s (replacement.toList ++ hands)) (hn : c.isAllowedEndpoint n.endpoint = true) :
    Kept c F (s.ping m n replacement) hands := by
  have hdrop : Kept c F s hands := h.weaken (List.sublist_append_right _ _).subperm
  unfold NodeTable.ping
  split
  · exact hdrop
  · split
    · exact hdrop
    case isFalse hfree =>
      have hfree : s.m_sentPings.find n.endpoint.udp = none := by simpa using hfree
      apply h.park
      · exact (((replacementsOf_insert hfree _).append_right hands).trans
          (append_move _ _ _)).subperm
      · intro e v hf
        rw [SortedMap.find_insert] at hf
        split at hf
        case isTrue he => rw [he]; exact hn
        case isFalse => exact h.pinged hf

/-- A ping that is over puts its replacement back. -/
theorem Kept.erasePing {e : UdpEndpoint} {v : NodeValidation} (h : Kept c F s hands)
    (he : s.m_sentPings.find e = some v) (t : List Happening) :
    Kept c F {s with m_sentPings := s.m_sentPings.erase e, trace := t}
      (v.replacementNodeEntry.toList ++ hands) := by
  apply h.park
  · exact (((replacementsOf_erase he).append_right hands).trans
      (append_move _ _ _)).symm.subperm
  · intro e' v' hf
    rw [SortedMap.find_erase] at hf
    split at hf
    · cases hf
    · exact h.pinged hf

theorem Kept.evict {front : Ref} {b : Fin s_bins} (h : Kept c F s (r :: hands))
    (hf : front ∈ s.m_buckets b) : Kept c F (s.evict m (s.objects front) r) hands := by
  unfold NodeTable.evict
  split
  · exact h.weaken (List.sublist_cons_self _ _).subperm
  · have hping : Kept c F (s.ping m (s.objects front).node (some r)) hands :=
      Kept.ping h (h.allowed hf)
    exact hping.log _

/-! ### Buckets -/

/-- A bucket in another order. -/
theorem Kept.reorder {b : Fin s_bins} {nodes : List Ref} (h : Kept c F s hands)
    (hp : nodes.Perm (s.m_buckets b)) : Kept c F (s.setBucket b nodes) hands := by
  have hmem : ∀ {b' r}, r ∈ (s.setBucket b nodes).m_buckets b' ↔ r ∈ s.m_buckets b' := by
    intro b' r
    rw [mem_setBucket]
    split
    case isTrue e => rw [e, hp.mem_iff]
    case isFalse => rfl
  have hperm : ∀ b', ((s.setBucket b nodes).m_buckets b').Perm (s.m_buckets b') := by
    intro b'
    by_cases hb : b' = b
    · subst hb
      simpa [setBucket] using hp
    · simp [setBucket, hb]
  exact { h with
    listed := fun hr => (h.listed hr).imp fun b' => hmem.mpr
    place := fun hr => h.place (hmem.mp hr)
    nodup := fun b' => (hperm b').nodup_iff.mpr (h.nodup b')
    size := fun b' => (hperm b').length_eq ▸ h.size b'
    guest := fun hr => h.guest (hmem.mp hr)
    allowed := fun hr => h.allowed (hmem.mp hr)
    made := fun hr => h.made (hmem.mp hr)
    parkedOut := fun hr b' hb => h.parkedOut hr b' (hmem.mp hb)
    triedListed := fun ht hr => h.triedListed ht (hmem.mp hr) }

/-- A parked entry takes the last place of its bucket, after expired ones may have left it. -/
theorem Kept.addToBucket {b : Fin s_bins} {nodes : List Ref} (h : Kept c F s (r :: hands))
    (hb : c.bucket_UNSAFE (s.objects r).id = some b) (hsub : List.Sublist nodes (s.m_buckets b))
    (hlen : nodes.length < s_bucketSize)
    (hgone : ∀ x ∈ s.m_buckets b, x ∉ nodes → ∀ id, s.m_allNodes id ≠ some x)
    (hguest : (s.objects r).id ≠ c.m_hostNodeID)
    (hallowed : c.isAllowedEndpoint (s.objects r).endpoint = true) :
    Kept c F (s.addToBucket b nodes r) hands := by
  have hrp : r ∈ s.parked (r :: hands) := List.mem_append_right _ List.mem_cons_self
  have hmem : ∀ {b' x}, x ∈ (s.addToBucket b nodes r).m_buckets b' →
      x ∈ s.m_buckets b' ∨ (x = r ∧ b' = b) := by
    intro b' x hx
    rw [show (s.addToBucket b nodes r).m_buckets = (s.setBucket b (nodes ++ [r])).m_buckets from rfl,
      mem_setBucket] at hx
    split at hx
    case isTrue e =>
      rcases List.mem_append.mp hx with hx | hx
      · exact .inl (e ▸ hsub.subset hx)
      · exact .inr ⟨List.mem_singleton.mp hx, e⟩
    case isFalse => exact .inl hx
  have hall : ∀ {id x}, (s.addToBucket b nodes r).m_allNodes id = some x →
      (x = r ∧ id = (s.objects r).id) ∨ s.m_allNodes id = some x := by
    intro id x hx
    have hx : (if id = (s.objects r).id ∧ s.m_allNodes id = none then some r
      else s.m_allNodes id) = some x := hx
    split at hx
    case isTrue e => exact .inl ⟨(Option.some.inj hx).symm, e.1⟩
    case isFalse => exact .inr hx
  have hkeep : ∀ {id x}, s.m_allNodes id = some x →
      (s.addToBucket b nodes r).m_allNodes id = some x := by
    intro id x hx
    show (if id = (s.objects r).id ∧ s.m_allNodes id = none then some r
      else s.m_allNodes id) = some x
    rw [if_neg (by simp [hx]), hx]
  have hpark : (s.parked hands).Subperm (s.parked (r :: hands)) :=
    (List.subperm_append_left _).mpr (List.sublist_cons_self _ _).subperm
  have hne : ∀ {x}, x ∈ s.parked hands → x ≠ r := by
    rintro x hx rfl
    have hn := h.parkedNodup
    rw [parked, List.nodup_append] at hn
    rcases List.mem_append.mp hx with hx | hx
    · exact hn.2.2 x hx x List.mem_cons_self rfl
    · exact (List.nodup_cons.mp hn.2.1).1 hx
  exact {
    id_eq := fun hx => by
      rcases hall hx with ⟨rfl, rfl⟩ | hx
      · rfl
      · exact h.id_eq hx
    listed := fun {id x} hx => by
      rcases hall hx with ⟨rfl, -⟩ | hx'
      · exact ⟨b, mem_setBucket.mpr (by simp)⟩
      · obtain ⟨b', hb'⟩ := h.listed hx'
        refine ⟨b', mem_setBucket.mpr ?_⟩
        split
        case isTrue e =>
          subst e
          refine List.mem_append_left _ (by_contra fun hno => hgone x hb' hno id hx')
        case isFalse => exact hb'
    place := fun hx => by
      rcases hmem hx with hx | ⟨rfl, rfl⟩
      · exact h.place hx
      · exact hb
    nodup := fun b' => by
      by_cases e : b' = b
      · subst e
        have hnot : r ∉ nodes := fun hr => h.parkedOut hrp b' (hsub.subset hr)
        have hn : (nodes ++ [r]).Nodup := by
          rw [List.nodup_append]
          refine ⟨(h.nodup b').sublist hsub, List.nodup_singleton r, ?_⟩
          rintro x hx y hy rfl
          exact hnot (List.mem_singleton.mp hy ▸ hx)
        simpa [NodeTable.addToBucket, setBucket, insertNode, NodeTable.log] using hn
      · simpa [NodeTable.addToBucket, setBucket, insertNode, NodeTable.log, e] using h.nodup b'
    size := fun b' => by
      by_cases e : b' = b
      · subst e
        simpa [NodeTable.addToBucket, setBucket, insertNode, NodeTable.log] using hlen
      · simpa [NodeTable.addToBucket, setBucket, insertNode, NodeTable.log, e] using h.size b'
    guest := fun hx => by
      rcases hmem hx with hx | ⟨rfl, rfl⟩
      · exact h.guest hx
      · exact hguest
    allowed := fun hx => by
      rcases hmem hx with hx | ⟨rfl, rfl⟩
      · exact h.allowed hx
      · exact hallowed
    made := fun hx => by
      rcases hmem hx with hx | ⟨rfl, rfl⟩
      · exact h.made hx
      · exact h.parkedMade hrp
    parkedMade := fun hx => h.parkedMade (hpark.subset hx)
    triedMade := h.triedMade
    parkedNodup := nodup_of_subperm hpark h.parkedNodup
    parkedOut := fun hx b' hb' => by
      rcases hmem hb' with hb' | ⟨rfl, -⟩
      · exact h.parkedOut (hpark.subset hx) b' hb'
      · exact hne hx rfl
    parkedUntried := fun hx => h.parkedUntried (hpark.subset hx)
    triedListed := fun ht hx => by
      rcases hmem hx with hx | ⟨rfl, -⟩
      · exact hkeep (h.triedListed ht hx)
      · exact absurd ht (h.parkedUntried hrp)
    pinged := h.pinged
    scheduledAllowed := h.scheduledAllowed
    entered := h.entered }

theorem Kept.noteInBucket {b : Fin s_bins} {hands' : List Ref} (h : Kept c F s hands')
    (hr : Active s hands r hands') (hb : c.bucket_UNSAFE (s.objects r).id = some b)
    (hguest : (s.objects r).id ≠ c.m_hostNodeID)
    (hallowed : c.isAllowedEndpoint (s.objects r).endpoint = true) :
    Kept c F (s.noteInBucket m held r b) hands := by
  unfold NodeTable.noteInBucket
  cases hr with
  | listed hid =>
    obtain ⟨b', hb'⟩ := h.listed hid
    have hbb : b' = b := Option.some.inj ((h.place hb').symm.trans hb)
    rw [if_pos (hbb ▸ hb')]
    apply h.reorder
    exact List.perm_append_comm.trans (List.perm_cons_erase (hbb ▸ hb')).symm
  | parked =>
    have hnot : r ∉ s.m_buckets b :=
      h.parkedOut (List.mem_append_right _ List.mem_cons_self) b
    rw [if_neg hnot]
    split
    case isTrue hlen =>
      exact h.addToBucket hb (List.Sublist.refl _) hlen (fun x hx hno => absurd hx hno) hguest
        hallowed
    case isFalse =>
      split
      · exact h.weaken (List.sublist_cons_self _ _).subperm
      case h_2 front rest hbucket =>
        have hfront : front ∈ s.m_buckets b := hbucket ▸ List.mem_cons_self
        split
        · exact h.evict hfront
        case isFalse hexpired =>
          have hlen := hbucket ▸ h.size b
          apply h.addToBucket hb (hbucket ▸ List.sublist_cons_self front rest)
            (by rw [List.length_cons] at hlen; omega) ?_ hguest hallowed
          rintro x hx hno id hid
          rw [hbucket] at hx
          have hxf : x = front := (List.mem_cons.mp hx).resolve_right hno
          have hobj := h.id_eq hid
          apply hexpired
          subst hxf
          simp [holds, hobj, hid]

theorem Kept.noteActiveNode {hands' : List Ref} (h : Kept c F s hands')
    (hr : Active s hands r hands') (hs : s.noteActiveNode c m held r = some s') :
    Kept c F s' hands := by
  have hdrop : Kept c F s hands := by
    cases hr with
    | listed => exact h
    | parked => exact h.weaken (List.sublist_cons_self _ _).subperm
  unfold NodeTable.noteActiveNode at hs
  split at hs
  · cases hs
    exact hdrop
  case isFalse hguest =>
    split at hs
    · cases hs
      exact hdrop
    case isFalse hallowed =>
      split at hs
      · cases hs
        exact hdrop
      · obtain ⟨b, hb, rfl⟩ := Option.map_eq_some_iff.mp hs
        exact h.noteInBucket hr hb hguest (by simpa using hallowed)

theorem Kept.dropNode {id : NodeID} (h : Kept c F s hands) (hr : s.m_allNodes id = some r)
    (hs : s.dropNode c m r = some s') : Kept c F s' hands := by
  obtain ⟨b, hb, rfl⟩ := Option.map_eq_some_iff.mp hs
  have hid := h.id_eq hr
  have hmem : ∀ {b' x}, x ∈ (s.setBucket b ((s.m_buckets b).filter (· ≠ r))).m_buckets b' ↔
      x ∈ s.m_buckets b' ∧ x ≠ r := by
    intro b' x
    rw [mem_setBucket]
    split
    case isTrue e => simp [e]
    case isFalse e =>
      refine ⟨fun hx => ⟨hx, ?_⟩, And.left⟩
      rintro rfl
      exact e (Option.some.inj ((h.place hx).symm.trans hb))
  have hall : ∀ {id' x}, Function.update s.m_allNodes (s.objects r).id none id' = some x ↔
      s.m_allNodes id' = some x ∧ x ≠ r := by
    intro id' x
    rw [Function.update_apply]
    split
    case isTrue e =>
      simp only [reduceCtorEq, false_iff, not_and, not_not]
      intro hx
      rw [e, hid, hr] at hx
      exact (Option.some.inj hx).symm
    case isFalse e =>
      refine ⟨fun hx => ⟨hx, ?_⟩, And.left⟩
      rintro rfl
      exact e (h.id_eq hx).symm
  have hkept : Kept c F {s.setBucket b ((s.m_buckets b).filter (· ≠ r)) with
      m_allNodes := Function.update s.m_allNodes (s.objects r).id none} hands := { h with
    id_eq := fun hx => h.id_eq (hall.mp hx).1
    listed := fun hx => (h.listed (hall.mp hx).1).imp fun b' hb' => hmem.mpr ⟨hb', (hall.mp hx).2⟩
    place := fun hx => h.place (hmem.mp hx).1
    nodup := fun b' => by
      by_cases e : b' = b
      · subst e
        simpa [setBucket] using (h.nodup b').filter _
      · simpa [setBucket, e] using h.nodup b'
    size := fun b' => by
      by_cases e : b' = b
      · subst e
        simpa [setBucket] using (List.length_filter_le _ _).trans (h.size b')
      · simpa [setBucket, e] using h.size b'
    guest := fun hx => h.guest (hmem.mp hx).1
    allowed := fun hx => h.allowed (hmem.mp hx).1
    made := fun hx => h.made (hmem.mp hx).1
    parkedOut := fun hx b' hb' => h.parkedOut hx b' (hmem.mp hb').1
    triedListed := fun ht hx =>
      hall.mpr ⟨h.triedListed ht (hmem.mp hx).1, (hmem.mp hx).2⟩ }
  exact hkept.log _

/-! ### Entries -/

theorem Kept.schedule {n : Node} (h : Kept c F s hands)
    (hn : c.isAllowedEndpoint n.endpoint = true) : Kept c F (s.schedulePing n) hands := { h with
  scheduledAllowed := fun hx => by
    rcases List.mem_append.mp hx with hx | hx
    · exact h.scheduledAllowed hx
    · exact List.mem_singleton.mp hx ▸ hn }

theorem Kept.addNode (h : Kept c F s hands) (n : Node) : Kept c F (s.addNode c m n).2 hands := by
  unfold NodeTable.addNode
  split
  · exact h
  case isFalse hvalid =>
    split
    · exact h.schedule (allowed_of_isValidNode (by simpa using hvalid))
    · exact h

theorem Kept.addNodes (h : Kept c F s hands) (l : List Node) :
    Kept c F (l.foldl (fun s n => (s.addNode c m n).2) s) hands := by
  induction l generalizing s with
  | nil => exact h
  | cons n l ih => exact ih (h.addNode n)

/-- Fields that depend on the objects see the ones made so far only. -/
theorem Kept.setObjects {objects : Ref → NodeEntry} {next : Ref} (h : Kept c F s hands)
    (hid : ∀ r < s.next, (objects r).id = (s.objects r).id)
    (hallowed : ∀ b, ∀ r ∈ s.m_buckets b, c.isAllowedEndpoint (objects r).endpoint = true)
    (hnext : s.next ≤ next) (hF : ∀ r < next, F (objects r).id) :
    Kept c F {s with objects := objects, next := next} hands := { h with
  id_eq := fun hr => by
    obtain ⟨b, hb⟩ := h.listed hr
    exact (hid _ (h.made hb)).trans (h.id_eq hr)
  place := fun hr => (congrArg c.bucket_UNSAFE (hid _ (h.made hr))).trans (h.place hr)
  guest := fun hr => (hid _ (h.made hr)).symm ▸ h.guest hr
  allowed := fun {b r} hr => hallowed b r hr
  made := fun hr => lt_of_lt_of_le (h.made hr) hnext
  parkedMade := fun hr => lt_of_lt_of_le (h.parkedMade hr) hnext
  triedMade := fun hr => lt_of_lt_of_le (h.triedMade hr) hnext
  triedListed := fun ht hr =>
    (congrArg s.m_allNodes (hid _ (h.made hr))).trans (h.triedListed ht hr)
  entered := hF }

/-- A new entry is in the handler's hands. -/
theorem Kept.allocate (h : Kept c F s hands) (e : NodeEntry) (he : F e.id) :
    Kept c F (s.allocate e).2 (s.next :: hands) := by
  have hold : ∀ r < s.next, Function.update s.objects s.next e r = s.objects r := fun r hr =>
    Function.update_of_ne hr.ne _ _
  have h' : Kept c F (s.allocate e).2 hands := h.setObjects (fun r hr => by rw [hold r hr])
    (fun b r hr => by rw [hold r (h.made hr)]; exact h.allowed hr) (Nat.le_succ _) (by
      intro r hr
      rcases Nat.lt_succ_iff_lt_or_eq.mp hr with hr | rfl
      · rw [hold r hr]
        exact h.entered r hr
      · rw [Function.update_self]
        exact he)
  have hpark : ∀ {x}, x ∈ (s.allocate e).2.parked (s.next :: hands) →
      x = s.next ∨ x ∈ s.parked hands := by
    intro x hx
    rcases List.mem_append.mp hx with hx | hx
    · exact .inr (List.mem_append_left _ hx)
    · exact (List.mem_cons.mp hx).imp_right (List.mem_append_right _)
  exact { h' with
    parkedMade := fun hx => (hpark hx).elim (fun e => e ▸ Nat.lt_succ_self _) (h'.parkedMade ·)
    parkedNodup := by
      refine (List.perm_middle.nodup_iff).mpr (List.nodup_cons.mpr ⟨fun hx => ?_, h.parkedNodup⟩)
      exact lt_irrefl _ (h.parkedMade hx)
    parkedOut := fun hx b hb => (hpark hx).elim
      (fun e => lt_irrefl _ (h.made (e ▸ hb))) (fun hx => h.parkedOut hx b hb)
    parkedUntried := fun hx ht => (hpark hx).elim
      (fun e => lt_irrefl _ (h.triedMade (e ▸ ht))) (fun hx => h.parkedUntried hx ht) }

theorem Kept.setEntry {e : NodeEntry} (h : Kept c F s hands) (hid : e.id = (s.objects r).id)
    (hallowed : c.isAllowedEndpoint e.endpoint = true) : Kept c F (s.setEntry r e) hands := by
  have hids : ∀ x, (Function.update s.objects r e x).id = (s.objects x).id := by
    intro x
    by_cases hx : x = r
    · rw [hx, Function.update_self, hid]
    · rw [Function.update_of_ne hx]
  apply h.setObjects (fun x _ => hids x) _ (le_refl s.next) (fun x hx => hids x ▸ h.entered x hx)
  · intro b x hb
    by_cases hx : x = r
    · rw [hx, Function.update_self]
      exact hallowed
    · rw [Function.update_of_ne hx]
      exact h.allowed hb

theorem Kept.allowed_of_listed {id : NodeID} (h : Kept c F s hands) (hr : s.m_allNodes id = some r) :
    c.isAllowedEndpoint (s.objects r).endpoint = true := by
  obtain ⟨b, hb⟩ := h.listed hr
  exact h.allowed hb

/-! ### Packets -/

theorem Kept.updateEntry {source : UdpEndpoint} {sourceid : NodeID} (h : Kept c F s hands)
    (m : Moment) (tcpPort : UInt16) (hF : F sourceid)
    (hallowed : isAllowedAddress c.m_allowLocalDiscovery source.address = true) :
    ∃ hands', Kept c F (s.updateEntry m source tcpPort sourceid).2 hands' ∧
      Active (s.updateEntry m source tcpPort sourceid).2 hands
        (s.updateEntry m source tcpPort sourceid).1 hands' := by
  unfold NodeTable.updateEntry
  cases hid : s.m_allNodes sourceid with
  | none => exact ⟨_, h.allocate _ hF, .parked⟩
  | some r =>
    refine ⟨hands, h.setEntry ?_ ?_, .listed hid⟩
    · split <;> rfl
    · split
      · exact hallowed
      · exact h.allowed_of_listed hid

theorem Kept.dropChanged {sourceid nodeID : NodeID} (h : Kept c F s hands)
    (hs : s.dropChanged c m sourceid nodeID = some s') : Kept c F s' hands := by
  unfold NodeTable.dropChanged at hs
  split at hs
  · split at hs
    · cases hs
      exact h
    case h_2 r hr => exact h.dropNode hr hs
  · cases hs
    exact h

@[simp] theorem dropNode_pings (hs : s.dropNode c m r = some s') :
    s'.m_sentPings = s.m_sentPings := by
  obtain ⟨b, -, rfl⟩ := Option.map_eq_some_iff.mp hs
  rfl

theorem dropChanged_pings {sourceid nodeID : NodeID}
    (hs : s.dropChanged c m sourceid nodeID = some s') : s'.m_sentPings = s.m_sentPings := by
  unfold NodeTable.dropChanged at hs
  split at hs
  · split at hs
    · cases hs
      rfl
    · exact dropNode_pings hs
  · cases hs
    rfl

theorem Kept.handlePong {source : UdpEndpoint} {sourceid : NodeID} {echo : H256} {o : Option Ref}
    (h : Kept c F s hands) (hF : F sourceid)
    (hs : s.handlePong c m source sourceid echo = some (o, s')) :
    ∃ hands', Kept c F s' hands' ∧ Handed s' hands o hands' := by
  unfold NodeTable.handlePong at hs
  split at hs
  · cases hs
    exact ⟨hands, h, rfl⟩
  case h_2 v hv =>
    split at hs
    · cases hs
      exact ⟨hands, h, rfl⟩
    · obtain ⟨t, ht, he⟩ := Option.map_eq_some_iff.mp hs
      cases he
      have hpings := dropChanged_pings ht
      obtain ⟨hands', hk, ha⟩ := (h.dropChanged ht).updateEntry m v.tcpPort hF (h.pinged hv)
      have hfind : (t.updateEntry m source v.tcpPort sourceid).2.m_sentPings.find source =
          some v := by rw [updateEntry_pings, hpings, hv]
      refine ⟨hands', ?_, ha.of_allNodes rfl⟩
      exact (hk.erasePing hfind _).weaken (List.sublist_append_right _ _).subperm

theorem Kept.handleNeighbours {source : UdpEndpoint} {sourceid : NodeID} {l : List Node}
    (h : Kept c F s hands) :
    Kept c F (s.handleNeighbours c m source sourceid l).2 hands ∧
      Handed (s.handleNeighbours c m source sourceid l).2 hands
        (s.handleNeighbours c m source sourceid l).1 hands := by
  unfold NodeTable.handleNeighbours
  cases hr : s.knownSource source sourceid with
  | none => exact ⟨h, rfl⟩
  | some r =>
    have hid := knownSource_listed hr
    have hcut : Kept c F {s with m_sentFindNodes := s.m_sentFindNodes.filter (·.1 ≠ sourceid)}
        hands := { h with }
    dsimp only
    split
    · exact ⟨hcut, .listed hid⟩
    · refine ⟨?_, .listed ((congrFun (addNodes_allNodes l) _).trans hid)⟩
      exact hcut.addNodes l

theorem Kept.sendNeighbours {source : UdpEndpoint} {sourceid : NodeID} (h : Kept c F s hands) (k : ℕ)
    (nearest : List Node) : Kept c F (sendNeighbours m source sourceid k nearest s) hands := by
  induction k generalizing s nearest with
  | zero => exact h
  | succ k ih =>
    unfold NodeTable.sendNeighbours
    split
    · exact h
    · exact ih (h.log _) _

theorem Kept.handlePingNode {source : UdpEndpoint} {sourceid : NodeID} {echo : H256}
    {pingSource : NodeIPEndpoint} (h : Kept c F s hands) :
    Kept c F (s.handlePingNode c m source sourceid echo pingSource).2 hands ∧
      Handed (s.handlePingNode c m source sourceid echo pingSource).2 hands
        (s.handlePingNode c m source sourceid echo pingSource).1 hands := by
  unfold NodeTable.handlePingNode
  dsimp only
  have hadd : Kept c F (s.addNode c m ⟨sourceid, ⟨source.address, source.port,
      pingSource.tcpPort⟩⟩).2 hands := h.addNode _
  generalize s.addNode c m ⟨sourceid, ⟨source.address, source.port, pingSource.tcpPort⟩⟩ = x
    at hadd ⊢
  split
  · exact ⟨hadd, rfl⟩
  · split
    · exact ⟨hadd.log _, rfl⟩
    case h_2 r hr =>
      have hlog := hadd.log (.ponged source echo)
      exact ⟨hlog.setEntry rfl (hlog.allowed_of_listed hr), .listed hr⟩

theorem Kept.handlePacket {source : UdpEndpoint} {packet : DiscoveryDatagram} {o : Option Ref}
    (h : Kept c F s hands) (hF : ∀ id, (Event.packet source packet).Enters id → F id)
    (hs : s.handlePacket c m source packet = some (o, s')) :
    ∃ hands', Kept c F s' hands' ∧ Handed s' hands o hands' := by
  unfold NodeTable.handlePacket at hs
  split at hs
  case h_1 echo hp => exact h.handlePong (hF _ ⟨rfl, echo, hp⟩) hs
  · obtain ⟨rfl, rfl⟩ := eq_of_some_eq hs
    exact ⟨hands, h.handleNeighbours⟩
  · obtain ⟨rfl, rfl⟩ := eq_of_some_eq hs
    unfold NodeTable.handleFindNode
    split
    · exact ⟨hands, h, rfl⟩
    case h_2 r hr =>
      exact ⟨hands, h.sendNeighbours _ _, .listed
        ((congrFun (sendNeighbours_allNodes _ _) _).trans (provenSource_listed hr))⟩
  · obtain ⟨rfl, rfl⟩ := eq_of_some_eq hs
    exact ⟨hands, h.handlePingNode⟩
  · obtain ⟨rfl, rfl⟩ := eq_of_some_eq hs
    unfold NodeTable.handleENRRequest
    split
    · exact ⟨hands, h, rfl⟩
    case h_2 r hr =>
      exact ⟨hands, h.log _, .listed (provenSource_listed hr)⟩
  · obtain ⟨rfl, rfl⟩ := eq_of_some_eq hs
    refine ⟨hands, h, ?_⟩
    unfold NodeTable.handleENRResponse
    cases hr : s.knownSource source packet.sourceid with
    | none => rfl
    | some r => exact .listed (knownSource_listed hr)

theorem Kept.onPacketReceived {source : UdpEndpoint} {packet : DiscoveryDatagram}
    (h : Kept c F s []) (hF : ∀ id, (Event.packet source packet).Enters id → F id)
    (hs : s.onPacketReceived c m source packet = some s') : Kept c F s' [] := by
  unfold NodeTable.onPacketReceived at hs
  dsimp only at hs
  split at hs
  · cases hs
    exact h.log _
  · obtain ⟨⟨o, t⟩, ht, hs⟩ := Option.bind_eq_some_iff.mp hs
    obtain ⟨hands', hk, ho⟩ := (h.log (.received m.seconds.toNat source packet)).handlePacket hF ht
    cases o with
    | none =>
      cases hs
      exact ho ▸ hk
    | some r => exact hk.noteActiveNode ho hs

/-! ### Discovery -/

/-- An entry in a bucket that is held is the one of its id. -/
theorem Kept.listed_of_holds {b : Fin s_bins} (h : Kept c F s []) (hr : r ∈ s.m_buckets b)
    (hheld : s.holds [] r = true) : s.m_allNodes (s.objects r).id = some r := by
  simp only [holds, Bool.or_eq_true, decide_eq_true_eq, List.not_mem_nil, decide_false,
    Bool.false_eq_true, or_false] at hheld
  rcases hheld with (hall | hrep) | htried
  · exact hall
  · exact absurd hr (h.parkedOut (List.mem_append_left _ hrep) b)
  · exact h.triedListed htried hr

theorem Kept.listed_of_nearest {target : NodeID} (h : Kept c F s [])
    (hr : r ∈ s.nearestNodeEntries target) : s.m_allNodes (s.objects r).id = some r := by
  obtain ⟨x, hx, rfl⟩ := List.mem_map.mp hr
  have hx := (mem_foldl_keepNearest hx).resolve_right List.not_mem_nil
  obtain ⟨hx, hheld⟩ := List.mem_filter.mp hx
  obtain ⟨b, -, hb⟩ := List.mem_flatMap.mp hx
  exact h.listed_of_holds hb hheld

/-- The loop over the nearest nodes only sends. -/
theorem Kept.askNearest {l : List Ref} (h : Kept c F s []) (m : Moment) (target : NodeID)
    (tried : List Ref) (count : ℕ) (hl : ∀ r ∈ l, s.m_allNodes (s.objects r).id = some r) :
    Kept c F (askNearest m target l tried count s).2.2 [] := by
  induction l generalizing tried count s with
  | nil => exact h
  | cons r l ih =>
    have hll : ∀ x ∈ l, s.m_allNodes (s.objects x).id = some x := fun x hx =>
      hl x (List.mem_cons_of_mem _ hx)
    unfold NodeTable.askNearest
    split
    · exact ih h _ _ hll
    · split
      · have hping : Kept c F (s.ping m (s.objects r).node none) [] :=
          Kept.ping h (h.allowed_of_listed (hl r List.mem_cons_self))
        apply ih hping
        simpa only [ping_allNodes, ping_objects] using hll
      · have hsent : Kept c F {s with m_sentFindNodes :=
            s.m_sentFindNodes ++ [((s.objects r).id, m.steady)]} [] := { h with }
        dsimp only
        split
        · exact hsent.log _
        · exact ih (hsent.log _) _ _ hll

/-- The nodes of the next round were tried before or are in the table. -/
theorem Kept.setRound {round : Option (NodeID × ℕ × List Ref)} (h : Kept c F s [])
    (ht : ∀ r ∈ {s with round := round}.tried, r ∈ s.tried ∨
      s.m_allNodes (s.objects r).id = some r) : Kept c F {s with round := round} [] := { h with
  triedMade := fun hr => by
    rcases ht _ hr with hr | hr
    · exact h.triedMade hr
    · obtain ⟨b, hb⟩ := h.listed hr
      exact h.made hb
  parkedUntried := fun hp hr => by
    rcases ht _ hr with hr | hr
    · exact h.parkedUntried hp hr
    · obtain ⟨b, hb⟩ := h.listed hr
      exact h.parkedOut hp b hb
  triedListed := fun hr hb => (ht _ hr).elim (h.triedListed · hb) id }

theorem Kept.doDiscoveryRound {target : NodeID} {round : ℕ} {tried : List Ref} (h : Kept c F s [])
    (ht : ∀ r ∈ tried, r ∈ s.tried) : Kept c F (s.doDiscoveryRound m target round tried) [] := by
  unfold NodeTable.doDiscoveryRound
  split
  · exact h
  · have hnear : ∀ r ∈ s.nearestNodeEntries target, s.m_allNodes (s.objects r).id = some r :=
      fun r hr => h.listed_of_nearest hr
    have hk := h.askNearest m target tried 0 hnear
    obtain ⟨hall, hobj, hround, htr⟩ :=
      askNearest_frame m target (s.nearestNodeEntries target) tried 0 s
    generalize NodeTable.askNearest m target (s.nearestNodeEntries target) tried 0 s = x
      at hk hall hobj hround htr
    obtain ⟨tried', count, t⟩ := x
    dsimp only at hk hall hobj hround htr ⊢
    split
    · exact hk.setRound fun r hr => absurd hr List.not_mem_nil
    · refine hk.setRound fun r hr => ?_
      rcases htr r hr with hr | hr
      · left
        rw [NodeTable.tried, hround]
        exact ht r hr
      · right
        rw [hall, hobj]
        exact hnear r hr

theorem Kept.onDiscoveryTimer {randNodeId : NodeID} (h : Kept c F s []) :
    Kept c F (s.onDiscoveryTimer m randNodeId) [] := by
  unfold NodeTable.onDiscoveryTimer
  split
  · exact h.doDiscoveryRound fun r hr => absurd hr List.not_mem_nil
  case h_2 target round tried hround =>
    exact h.doDiscoveryRound fun r hr => by rwa [NodeTable.tried, hround]

/-! ### Timeouts -/

/-- A timed out ping: its node is dropped, its replacement comes into the handler's hands. -/
theorem Kept.dropPinged {e : UdpEndpoint} {v : NodeValidation} {acts acts' : List Ref}
    {t : NodeTable} (h : Kept c F s acts) (hv : s.m_sentPings.find e = some v)
    (ht : s.dropPinged c m v acts = some (acts', t)) :
    t.m_sentPings = s.m_sentPings ∧
      Kept c F (NodeTable.log {t with m_sentPings := t.m_sentPings.erase e}
        (.timedOut e v.pingHash)) acts' := by
  unfold NodeTable.dropPinged at ht
  cases hr : s.nodeEntry v.nodeID with
  | none =>
    rw [hr] at ht
    cases ht
    exact ⟨rfl, ((h.erasePing hv _).weaken (List.sublist_append_right _ _).subperm).log _⟩
  | some r =>
    rw [hr] at ht
    obtain ⟨x, hx, he⟩ := Option.map_eq_some_iff.mp ht
    cases he
    have hpings := dropNode_pings hx
    refine ⟨hpings, Kept.log ?_ _⟩
    exact ((h.dropNode hr hx).erasePing (hpings ▸ hv) _).weaken
      List.perm_append_comm.subperm

theorem Kept.dropTimedOut {l : List (UdpEndpoint × NodeValidation)} {acts acts' : List Ref}
    (h : Kept c F s acts) (hl : ∀ e ∈ l, s.m_sentPings.find e.1 = some e.2)
    (hn : (l.map Prod.fst).Nodup) (hs : dropTimedOut c m l acts s = some (acts', s')) :
    Kept c F s' acts' := by
  induction l generalizing s acts with
  | nil =>
    cases hs
    exact h
  | cons e l ih =>
    obtain ⟨endpoint, v⟩ := e
    obtain ⟨hnot, hn⟩ := List.nodup_cons.mp hn
    have hl' : ∀ x ∈ l, s.m_sentPings.find x.1 = some x.2 := fun x hx =>
      hl x (List.mem_cons_of_mem _ hx)
    unfold NodeTable.dropTimedOut at hs
    split at hs
    · obtain ⟨⟨acts₁, t⟩, ht, hs⟩ := Option.bind_eq_some_iff.mp hs
      obtain ⟨hpings, hk⟩ := h.dropPinged (hl _ List.mem_cons_self) ht
      refine ih hk (fun x hx => ?_) hn hs
      have hne : x.1 ≠ endpoint := fun e => hnot (List.mem_map.mpr ⟨x, hx, e⟩)
      show (t.m_sentPings.erase endpoint).find x.1 = some x.2
      rw [SortedMap.find_erase, if_neg hne, hpings]
      exact hl' x hx
    · exact ih h hl' hn hs

theorem Kept.activate {l : List Ref} (h : Kept c F s l) (hs : activate c m held l s = some s') :
    Kept c F s' [] := by
  induction l generalizing s with
  | nil =>
    cases hs
    exact h
  | cons r l ih =>
    obtain ⟨t, ht, hs⟩ := Option.bind_eq_some_iff.mp hs
    exact ih (h.noteActiveNode .parked ht) hs

theorem Kept.doHandleTimeouts (h : Kept c F s []) (hs : s.doHandleTimeouts c m = some s') :
    Kept c F s' [] := by
  obtain ⟨⟨acts, t⟩, ht, hs⟩ := Option.bind_eq_some_iff.mp hs
  have hk := h.dropTimedOut (fun e he => SortedMap.find_eq_some_iff.mpr he)
    s.m_sentPings.keys_nodup ht
  exact hk.activate hs

/-! ### Runs -/

theorem Kept.addKnownNode {n : Node} {received sent : UInt32} (h : Kept c F s [])
    (hF : F n.id) (hs : s.addKnownNode c m n received sent = some s') : Kept c F s' [] := by
  unfold NodeTable.addKnownNode at hs
  split at hs
  · cases hs
    exact h
  case isFalse hvalid =>
    split at hs
    · cases hs
      exact h
    · dsimp only at hs
      split at hs
      · exact (h.allocate ⟨n, _, _⟩ hF).noteActiveNode .parked hs
      · cases hs
        exact h.schedule (allowed_of_isValidNode (by simpa using hvalid))

theorem Kept.step {e : Event} (h : Kept c F s []) (hF : ∀ id, e.Enters id → F id)
    (hs : s.step c m e = some s') : Kept c F s' [] := by
  cases e with
  | packet source packet => exact h.onPacketReceived hF hs
  | scheduledPing i =>
    unfold NodeTable.step at hs
    dsimp only at hs
    split at hs
    · cases hs
      exact h
    case h_2 n hn =>
      cases hs
      have hcut : Kept c F {s with scheduled := s.scheduled.eraseIdx i} [] := { h with
        scheduledAllowed := fun hx => h.scheduledAllowed (List.mem_of_mem_eraseIdx hx) }
      exact Kept.ping hcut (h.scheduledAllowed (List.mem_of_getElem? hn))
  | discoveryTimer randNodeId =>
    cases hs
    exact h.onDiscoveryTimer
  | timeoutsTimer => exact h.doHandleTimeouts hs
  | addNode n =>
    cases hs
    exact h.addNode n
  | addKnownNode n received sent => exact h.addKnownNode (hF _ rfl) hs
  | stop =>
    cases hs
    exact { h with }

theorem kept_initial : Kept c F initial [] where
  id_eq := nofun
  listed := nofun
  place := nofun
  nodup := fun _ => List.nodup_nil
  size := fun _ => Nat.zero_le _
  guest := nofun
  allowed := nofun
  made := nofun
  parkedMade := nofun
  triedMade := nofun
  parkedNodup := List.nodup_nil
  parkedOut := nofun
  parkedUntried := nofun
  triedListed := nofun
  pinged := nofun
  scheduledAllowed := nofun
  entered := nofun

theorem Kept.runOf {l : List (Moment × Event)} (h : Kept c F s [])
    (hF : ∀ x ∈ l, ∀ id, x.2.Enters id → F id) (hs : runOf c s l = some s') :
    Kept c F s' [] := by
  induction l generalizing s with
  | nil =>
    cases hs
    exact h
  | cons x l ih =>
    obtain ⟨t, ht, hs⟩ := Option.bind_eq_some_iff.mp hs
    exact ih (h.step (hF x List.mem_cons_self) ht)
      (fun y hy => hF y (List.mem_cons_of_mem _ hy)) hs

end NodeTable
end Aleth.P2p
