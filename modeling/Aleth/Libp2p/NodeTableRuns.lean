import Aleth.Libp2p.NodeBuckets

/-! Runs of the node table: every bucket index is in the array, and the buckets are consistent.

A bucket index is `distance - 1`, so a node whose hash differs from the host's in
the last bit at most has none. Where no such node answers a ping or is made
known, every run goes through (`runOf_consistent`). -/
namespace Aleth.P2p
open Devcore

namespace NodeTable
section Runs
variable [Sha3] {c : NodeTableConfig} {m : Moment} {s s' : NodeTable} {hands held : List Ref}
  {r : Ref}

/-- The node is the host itself or far enough from it to have a bucket. -/
def Far (c : NodeTableConfig) (id : NodeID) : Prop :=
  id = c.m_hostNodeID ∨ distance (sha3 c.m_hostNodeID.bytes) (sha3 id.bytes) ≠ 0

omit [Sha3] in
theorem distance_lt (a b : H256) : distance a b < 256 := by
  have hlt : ∀ h : H256, fromBigEndian h.bytes < 2 ^ 256 := fun h => by
    have hb := fromBigEndian_lt h.bytes
    rwa [h.size, show 256 ^ 32 = 2 ^ 256 by norm_num] at hb
  have hx := Nat.xor_lt_two_pow (hlt a) (hlt b)
  unfold distance
  by_cases h0 : fromBigEndian a.bytes ^^^ fromBigEndian b.bytes = 0
  · rw [h0]
    decide
  · exact (Nat.log2_lt h0).mpr hx

theorem bucket_isSome_iff {id : NodeID} : (c.bucket_UNSAFE id).isSome ↔
    distance (sha3 c.m_hostNodeID.bytes) (sha3 id.bytes) ≠ 0 := by
  have := distance_lt (sha3 c.m_hostNodeID.bytes) (sha3 id.bytes)
  unfold NodeTableConfig.bucket_UNSAFE
  dsimp only
  split
  case isTrue h => simp; omega
  case isFalse h =>
    unfold s_bins at h
    simp
    omega

/-! ### Every step has a result -/

theorem noteActiveNode_isSome {hands' : List Ref} (h : Kept c (Far c) s hands')
    (hr : Active s hands r hands') : (s.noteActiveNode c m held r).isSome := by
  have hmade : r < s.next := by
    cases hr with
    | listed hid =>
      obtain ⟨b, hb⟩ := h.listed hid
      exact h.made hb
    | parked => exact h.parkedMade (List.mem_append_right _ List.mem_cons_self)
  unfold noteActiveNode
  split
  · rfl
  case isFalse hguest =>
    split
    · rfl
    · split
      · rfl
      · rw [Option.isSome_map, bucket_isSome_iff]
        exact (h.entered r hmade).resolve_left hguest

theorem dropNode_isSome {F : NodeID → Prop} {id : NodeID} (h : Kept c F s hands)
    (hr : s.m_allNodes id = some r) : (s.dropNode c m r).isSome := by
  obtain ⟨b, hb⟩ := h.listed hr
  rw [dropNode, Option.isSome_map, h.place hb]
  rfl

theorem handlePong_isSome {source : UdpEndpoint} {sourceid : NodeID} {echo : H256}
    (h : Kept c (Far c) s hands) : (s.handlePong c m source sourceid echo).isSome := by
  unfold handlePong
  split
  · rfl
  · split
    · rfl
    · rw [Option.isSome_map]
      unfold dropChanged
      split
      · split
        · rfl
        case h_2 r hr => exact dropNode_isSome h hr
      · rfl

theorem onPacketReceived_isSome {source : UdpEndpoint} {packet : DiscoveryDatagram}
    (h : Kept c (Far c) s []) (hF : ∀ id, (Event.packet source packet).Enters id → Far c id) :
    (s.onPacketReceived c m source packet).isSome := by
  unfold onPacketReceived
  dsimp only
  split
  · rfl
  · have hlog := h.log (.received m.seconds.toNat source packet)
    have hsome : ((s.log (.received m.seconds.toNat source packet)).handlePacket c m source
        packet).isSome := by
      unfold handlePacket
      split
      · exact handlePong_isSome hlog
      all_goals rfl
    obtain ⟨⟨o, t⟩, ht⟩ := Option.isSome_iff_exists.mp hsome
    rw [ht]
    obtain ⟨hands', hk, ho⟩ := hlog.handlePacket hF ht
    cases o with
    | none => rfl
    | some r => exact noteActiveNode_isSome hk ho

theorem dropPinged_isSome {F : NodeID → Prop} {v : NodeValidation} {acts : List Ref}
    (h : Kept c F s acts) : (s.dropPinged c m v acts).isSome := by
  unfold dropPinged
  split
  · rfl
  case h_2 r hr =>
    rw [Option.isSome_map]
    exact dropNode_isSome h hr

theorem dropTimedOut_isSome {F : NodeID → Prop} {l : List (UdpEndpoint × NodeValidation)}
    {acts : List Ref} (h : Kept c F s acts) (hl : ∀ e ∈ l, s.m_sentPings.find e.1 = some e.2)
    (hn : (l.map Prod.fst).Nodup) : (dropTimedOut c m l acts s).isSome := by
  induction l generalizing s acts with
  | nil => rfl
  | cons e l ih =>
    obtain ⟨endpoint, v⟩ := e
    obtain ⟨hnot, hn⟩ := List.nodup_cons.mp hn
    have hl' : ∀ x ∈ l, s.m_sentPings.find x.1 = some x.2 := fun x hx =>
      hl x (List.mem_cons_of_mem _ hx)
    unfold dropTimedOut
    split
    · obtain ⟨⟨acts₁, t⟩, ht⟩ := Option.isSome_iff_exists.mp (dropPinged_isSome (m := m) (v := v) h)
      rw [ht]
      obtain ⟨hpings, hk⟩ := h.dropPinged (hl _ List.mem_cons_self) ht
      refine ih hk (fun x hx => ?_) hn
      have hne : x.1 ≠ endpoint := fun e => hnot (List.mem_map.mpr ⟨x, hx, e⟩)
      show (t.m_sentPings.erase endpoint).find x.1 = some x.2
      rw [SortedMap.find_erase, if_neg hne, hpings]
      exact hl' x hx
    · exact ih h hl' hn

theorem activate_isSome {l : List Ref} (h : Kept c (Far c) s l) :
    (activate c m held l s).isSome := by
  induction l generalizing s with
  | nil => rfl
  | cons r l ih =>
    have hsome : (s.noteActiveNode c m held r).isSome := noteActiveNode_isSome h .parked
    obtain ⟨t, ht⟩ := Option.isSome_iff_exists.mp hsome
    unfold activate
    rw [ht]
    exact ih (h.noteActiveNode .parked ht)

theorem step_isSome {e : Event} (h : Kept c (Far c) s []) (hF : ∀ id, e.Enters id → Far c id) :
    (s.step c m e).isSome := by
  cases e with
  | packet source packet => exact onPacketReceived_isSome h hF
  | scheduledPing i =>
    unfold step
    dsimp only
    split <;> rfl
  | timeoutsTimer =>
    have hentries : ∀ e ∈ s.m_sentPings.entries, s.m_sentPings.find e.1 = some e.2 := fun e he =>
      SortedMap.find_eq_some_iff.mpr he
    obtain ⟨⟨acts, t⟩, ht⟩ := Option.isSome_iff_exists.mp
      (dropTimedOut_isSome (m := m) h hentries s.m_sentPings.keys_nodup)
    show (s.doHandleTimeouts c m).isSome
    unfold doHandleTimeouts
    rw [ht]
    exact activate_isSome (h.dropTimedOut hentries s.m_sentPings.keys_nodup ht)
  | addKnownNode n received sent =>
    show (s.addKnownNode c m n received sent).isSome
    unfold addKnownNode
    split
    · rfl
    · split
      · rfl
      · dsimp only
        split
        · exact noteActiveNode_isSome (h.allocate ⟨n, _, _⟩ (hF _ rfl)) .parked
        · rfl
  | discoveryTimer | addNode | stop => rfl

theorem runOf_isSome {l : List (Moment × Event)} (h : Kept c (Far c) s [])
    (hF : ∀ x ∈ l, ∀ id, x.2.Enters id → Far c id) : (runOf c s l).isSome := by
  induction l generalizing s with
  | nil => rfl
  | cons x l ih =>
    obtain ⟨t, ht⟩ := Option.isSome_iff_exists.mp
      (step_isSome (m := x.1) h (hF x List.mem_cons_self))
    unfold runOf
    rw [ht]
    exact ih (h.step (hF x List.mem_cons_self) ht) fun y hy => hF y (List.mem_cons_of_mem _ hy)

/-! ### Consistency -/

structure Consistent (c : NodeTableConfig) (s : NodeTable) : Prop where
  /-- Every node is referenced once, from the bucket of its distance. -/
  once : ∀ {id r}, s.m_allNodes id = some r → (s.objects r).id = id ∧
    ∃ b, c.bucket_UNSAFE id = some b ∧ (s.m_buckets b).count r = 1 ∧
      ∀ b' ≠ b, r ∉ s.m_buckets b'
  /-- What has not expired is the node of its id. -/
  live : ∀ {b r}, r ∈ s.m_buckets b → s.holds [] r = true →
    s.m_allNodes (s.objects r).id = some r
  unique : ∀ {b b' r r'}, r ∈ s.m_buckets b → r' ∈ s.m_buckets b' → s.holds [] r = true →
    s.holds [] r' = true → (s.objects r).id = (s.objects r').id → b = b' ∧ r = r'
  nodup : ∀ b, (s.m_buckets b).Nodup
  size : ∀ b, (s.m_buckets b).length ≤ s_bucketSize
  guest : ∀ {b r}, r ∈ s.m_buckets b → (s.objects r).id ≠ c.m_hostNodeID
  notHost : s.m_allNodes c.m_hostNodeID = none
  allowed : ∀ {b r}, r ∈ s.m_buckets b → c.isAllowedEndpoint (s.objects r).endpoint = true

theorem Kept.consistent {F : NodeID → Prop} (h : Kept c F s []) : Consistent c s where
  once := fun {id r} hr => by
    obtain ⟨b, hb⟩ := h.listed hr
    have hid := h.id_eq hr
    refine ⟨hid, b, hid ▸ h.place hb, List.count_eq_one_of_mem (h.nodup b) hb, ?_⟩
    intro b' hne hb'
    exact hne (Option.some.inj ((h.place hb').symm.trans (h.place hb)))
  live := h.listed_of_holds
  unique := fun {b b' r r'} hb hb' hr hr' hid => by
    have hall := h.listed_of_holds hb hr
    rw [hid, h.listed_of_holds hb' hr'] at hall
    have he : r' = r := Option.some.inj hall
    subst he
    exact ⟨Option.some.inj ((h.place hb).symm.trans (h.place hb')), rfl⟩
  nodup := h.nodup
  size := h.size
  guest := h.guest
  notHost := by
    by_contra hno
    obtain ⟨r, hr⟩ := Option.ne_none_iff_exists'.mp hno
    obtain ⟨b, hb⟩ := h.listed hr
    exact h.guest hb (h.id_eq hr)
  allowed := h.allowed

end Runs

/-! ### A table with a known node -/

/-- A hash that keeps the first half of a node's id. -/
@[reducible] def firstHalfSha3 : Sha3 where
  sha3 b := .alignRight (b.take 32)

/-- The node with one byte followed by zeros, but for the last byte of its first half. -/
def nodeOf (first last : UInt8) : NodeID :=
  ⟨first :: List.replicate 30 0 ++ last :: List.replicate 32 0, by simp⟩

def publicEndpoint (last : UInt8) : NodeIPEndpoint := ⟨.v4 [8, 8, 8, last] rfl, 30303, 30303⟩

def sampleConfig : NodeTableConfig := ⟨nodeOf 1 1, false, 60000⟩

/-- The clocks after some seconds. -/
def at_ (seconds : ℕ) : Moment :=
  ⟨UInt32.ofNat (1000000 + seconds), 1000 * seconds, fun e => .alignRight [e.port.toUInt8]⟩

end NodeTable
end Aleth.P2p
