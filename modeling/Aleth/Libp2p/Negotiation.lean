import Aleth.Libp2p.Host
import Aleth.Structure.Layout
import Mathlib.Data.Finset.Max
import Mathlib.Data.Finset.Dedup

/-! Two hosts agree on capabilities and on packet ids. -/
namespace Aleth.P2p
open Devcore

namespace Host
variable (h : Host)

def messageCount (c : CapDesc) : ℕ := (h.m_capabilities.find c).elim 0 Capability.messageCount

/-- A capability of this host with the same name and a higher version. -/
def Above (c o : CapDesc) : Prop :=
  c.name = o.name ∧ c.version < o.version ∧ h.haveCapability o = true

instance (c o : CapDesc) : Decidable (h.Above c o) := inferInstanceAs (Decidable (_ ∧ _))

/-- The elements of a list that this host has, each with none above it in the list. -/
def agreed (l : List CapDesc) : List CapDesc :=
  l.filter fun c => h.haveCapability c ∧ ∀ o ∈ l, ¬h.Above c o

/-- If the list names a capability of this host that has the empty name, all before it are
nameless too. -/
def NamelessFirst (l : List CapDesc) : Prop :=
  ∀ pre x post, l = pre ++ x :: post → h.haveCapability x = true → x.name = [] →
    ∀ y ∈ pre, y.name = []

variable {h}

theorem messageCount_lt (c : CapDesc) : h.messageCount c < 2 ^ 32 := by
  unfold messageCount
  cases h.m_capabilities.find c with
  | none => exact Nat.two_pow_pos 32
  | some cap => exact cap.isUnsigned

/-! ### What is left of a list -/

theorem mem_agreed {l : List CapDesc} {c : CapDesc} :
    c ∈ h.agreed l ↔ c ∈ l ∧ h.haveCapability c = true ∧ ∀ o ∈ l, ¬h.Above c o := by
  simp [agreed]

/-- Of the capabilities of one name some is the highest. -/
theorem exists_agreed {l : List CapDesc} {c : CapDesc} (hc : c ∈ l)
    (hhave : h.haveCapability c = true) :
    ∃ d ∈ h.agreed l, c.name = d.name ∧ c.version ≤ d.version := by
  let s := l.toFinset.filter fun d => c.name = d.name ∧ h.haveCapability d = true
  have hs : c ∈ s := by simp [s, hc, hhave]
  obtain ⟨d, hd, hmax⟩ := s.exists_max_image CapDesc.version ⟨c, hs⟩
  simp only [s, Finset.mem_filter, List.mem_toFinset] at hd hmax
  refine ⟨d, mem_agreed.mpr ⟨hd.1, hd.2.2, ?_⟩, hd.2.1, hmax c ⟨hc, rfl, hhave⟩⟩
  rintro o ho ⟨hn, hv, hoh⟩
  exact absurd (hmax o ⟨ho, hd.2.1.trans hn, hoh⟩) (not_le.mpr hv)

theorem notHighest_eq_true {l : List CapDesc} {c : CapDesc} :
    h.notHighest l c = true ↔ h.haveCapability c = false ∨ ∃ o ∈ l, h.Above c o := by
  simp [notHighest, Above, and_assoc]

theorem exists_agreed_above {l : List CapDesc} {c o : CapDesc} (ho : o ∈ l) (hc : h.Above c o) :
    ∃ d ∈ h.agreed l, h.Above c d := by
  obtain ⟨d, hd, hn, hv⟩ := exists_agreed ho hc.2.2
  exact ⟨d, hd, hc.1.trans hn, lt_of_lt_of_le hc.2.1 hv, (mem_agreed.mp hd).2.1⟩

/-- What the predicate sees above an element it examines is what the list has above it. A
moved element has lost its name, but then it stands in front of the nameless ones itself. -/
theorem above_iff {l : List CapDesc} (hl : h.NamelessFirst l) {kept gap rest : List CapDesc}
    {x : CapDesc} (hx : h.haveCapability x = true)
    (hf : Compaction.Filtered (fun c => decide (h.haveCapability c ∧ ∀ o ∈ l, ¬h.Above c o))
      movedFrom l kept gap (x :: rest)) :
    (∃ o ∈ kept ++ gap ++ x :: rest, h.Above x o) ↔ ∃ o ∈ l, h.Above x o := by
  obtain ⟨done, hdone, hkept, hgap⟩ := hf
  have hsub : ∀ z ∈ kept, z ∈ done := fun z hz => List.mem_of_mem_filter (hkept ▸ hz)
  constructor
  · rintro ⟨o, ho, hox⟩
    refine ⟨o, ?_, hox⟩
    rw [hdone]
    rcases List.mem_append.mp ho with ho | ho
    · apply List.mem_append_left
      rcases List.mem_append.mp ho with ho | ho
      · exact hsub o ho
      · rcases hgap o ho with ho | ⟨z, hz, rfl⟩
        · exact ho
        · have hz0 : z.name = [] := hl done x rest hdone hx hox.1 z (hsub z hz)
          have hzm : movedFrom z = z := by rw [movedFrom, ← hz0]
          exact hzm ▸ hsub z hz
    · exact List.mem_append_right _ ho
  · rintro ⟨o, ho, hox⟩
    obtain ⟨d, hd, hdx⟩ := exists_agreed_above ho hox
    have hdl : d ∈ done ++ x :: rest := hdone ▸ (mem_agreed.mp hd).1
    refine ⟨d, ?_, hdx⟩
    rcases List.mem_append.mp hdl with hm | hm
    · have : d ∈ kept := hkept ▸ List.mem_filter.mpr ⟨hm, (List.mem_filter.mp hd).2⟩
      simp [this]
    · exact List.mem_append_right _ hm

theorem leaveHighest_eq {l : List CapDesc} (hl : h.NamelessFirst l) :
    h.leaveHighest l = h.agreed l := by
  apply Compaction.removeIf_eq_filter
  intro kept gap x rest hf
  cases hx : h.haveCapability x with
  | false => simp [notHighest, hx]
  | true =>
    rw [Bool.eq_iff_iff, notHighest_eq_true, above_iff hl hx hf]
    simp [hx]

/-! ### What is left in any case -/

theorem have_of_leaveHighest {l : List CapDesc} {c : CapDesc} (hc : c ∈ h.leaveHighest l) :
    h.haveCapability c = true := by
  obtain ⟨gap, hP⟩ := @Compaction.compact_induction _ movedFrom h.notHighest
    (fun kept _ _ => ∀ c ∈ kept, h.haveCapability c = true) (fun hk _ => hk)
    (fun {kept gap x rest} hk hp c hc => by
      rcases List.mem_append.mp hc with hc | hc
      · exact hk c hc
      · rw [List.mem_singleton.mp hc]
        simp only [notHighest, Bool.or_eq_false_iff, Bool.not_eq_false'] at hp
        exact hp.1) [] [] l (by simp)
  exact hP c hc

/-- Nothing still in the list is above an element that is kept. -/
theorem not_above_of_leaveHighest {l : List CapDesc} {c d : CapDesc} (hc : c ∈ h.leaveHighest l)
    (hd : d ∈ h.leaveHighest l) : ¬h.Above c d := by
  obtain ⟨gap, hP⟩ := @Compaction.compact_induction _ movedFrom h.notHighest
    (fun kept _ rest => ∀ c ∈ kept, ∀ d ∈ kept ++ rest, ¬h.Above c d)
    (fun {kept gap x rest} hk _ c hc d hd => hk c hc d (by
      rcases List.mem_append.mp hd with hd | hd
      · exact List.mem_append_left _ hd
      · exact List.mem_append_right _ (List.mem_cons_of_mem _ hd)))
    (fun {kept gap x rest} hk hp c hc d hd => by
      rw [List.append_assoc] at hd
      rcases List.mem_append.mp hc with hc | hc
      · exact hk c hc d hd
      · rw [List.mem_singleton.mp hc]
        intro habove
        have hno : h.notHighest (kept ++ gap ++ x :: rest) x = true := by
          apply notHighest_eq_true.mpr
          refine .inr ⟨d, ?_, habove⟩
          rcases List.mem_append.mp hd with hd | hd
          · simp [hd]
          · exact List.mem_append_right _ hd
        rw [hno] at hp
        cases hp) [] [] l (by simp)
  exact hP c hc d (by rwa [List.append_nil])

/-- No two versions of one name are left. -/
theorem leaveHighest_name_injective {l : List CapDesc} {c d : CapDesc}
    (hc : c ∈ h.leaveHighest l) (hd : d ∈ h.leaveHighest l) (hn : c.name = d.name) : c = d := by
  have h₁ := not_above_of_leaveHighest hc hd
  have h₂ := not_above_of_leaveHighest hd hc
  have hv : c.version = d.version := by
    apply le_antisymm
    · exact not_lt.mp fun hlt => h₂ ⟨hn.symm, hlt, have_of_leaveHighest hc⟩
    · exact not_lt.mp fun hlt => h₁ ⟨hn, hlt, have_of_leaveHighest hd⟩
  cases c
  cases d
  cases hn
  cases hv
  rfl

/-! ### What is registered -/

/-- The ranges that a list of capabilities gets. -/
abbrev ranges (h : Host) (base : ℕ) (l : List CapDesc) : List (CapDesc × ℕ) :=
  Layout.starts h.messageCount base l

theorem exists_range (h : Host) (base : ℕ) {l : List CapDesc} {c : CapDesc} (hc : c ∈ l) :
    ∃ n, (c, n) ∈ h.ranges base l := Layout.exists_start hc

/-- A session to which a list of capabilities was added, laid out from `base`. -/
structure Registered (h : Host) (base : ℕ) (l : List CapDesc) (s s' : Session) : Prop where
  capabilities : ∀ c, s'.m_capabilities.find c =
    if c ∈ l then h.m_capabilities.find c else s.m_capabilities.find c
  offsets : (l.map CapDesc.name).Nodup → ∀ x ∈ h.ranges base l,
    s'.capabilityOffset x.1.name = some (x.2 % 2 ^ 32)
  frame : ∀ name ∉ l.map CapDesc.name, s'.capabilityOffset name = s.capabilityOffset name

theorem registerCaps_started {base : ℕ} {l onConnect : List CapDesc} {s : Session}
    (hl : ∀ c ∈ l, h.haveCapability c = true) :
    ∃ s', h.registerCaps s (base % 2 ^ 32) onConnect l = .started s' (onConnect ++ l) ∧
      h.Registered base l s s' := by
  induction l generalizing base onConnect s with
  | nil => exact ⟨s, by rw [List.append_nil, registerCaps], ⟨by simp, by simp [ranges, Layout.starts], by simp⟩⟩
  | cons c l ih =>
    obtain ⟨cap, hcap⟩ := Option.isSome_iff_exists.mp (hl c List.mem_cons_self)
    have hcount : h.messageCount c = cap.messageCount := by rw [messageCount, hcap]; rfl
    obtain ⟨s', hs', hr⟩ := @ih (base + h.messageCount c) (onConnect ++ [c])
      (s.registerCapability c (base % 2 ^ 32) cap) fun d hd => hl d (List.mem_cons_of_mem _ hd)
    refine ⟨s', ?_, ?_, ?_, ?_⟩
    · rw [registerCaps, hcap]
      dsimp only
      rw [← hcount, Nat.mod_add_mod, hs', List.append_assoc]
      rfl
    · intro d
      rw [hr.capabilities d]
      by_cases hd : d = c
      · simp [hd, Session.registerCapability, hcap]
      · simp [hd, Session.registerCapability]
    · intro hn x hx
      obtain ⟨hc, hn⟩ := List.nodup_cons.mp hn
      rcases List.mem_cons.mp hx with rfl | hx
      · rw [hr.frame _ hc]
        simp [Session.capabilityOffset, Session.registerCapability]
      · exact hr.offsets hn x hx
    · intro name hname
      rw [List.map_cons, List.mem_cons, not_or] at hname
      rw [hr.frame name hname.2]
      simp [Session.capabilityOffset, Session.registerCapability, hname.1]

/-- What a session is started with. -/
theorem startPeerSession_started {id : NodeID} {hello : Hello} {s : Session}
    {onConnect : List CapDesc} (hs : h.startPeerSession id hello = .started s onConnect) :
    onConnect = h.leaveHighest hello.caps ∧ h.leaveHighest hello.caps ≠ [] ∧
      h.Registered UserPacket (h.leaveHighest hello.caps) .empty s := by
  obtain ⟨s', hs', hr⟩ := @registerCaps_started h UserPacket (h.leaveHighest hello.caps) []
    .empty fun c hc => have_of_leaveHighest hc
  have heq : h.leaveHighest hello.caps ≠ [] ∧ h.startPeerSession id hello =
      h.registerCaps .empty UserPacket [] (h.leaveHighest hello.caps) := by
    unfold startPeerSession at hs ⊢
    grind
  rw [heq.2, show h.registerCaps .empty UserPacket [] (h.leaveHighest hello.caps) = _ from hs'] at hs
  cases hs
  exact ⟨rfl, heq.1, hr⟩

end Host

/-! ### Whatever list the other side sends -/

/-- A packet id in the range `[offset, offset + messageCount)` of a registered capability. -/
def Session.Uses (s : Session) (c : CapDesc) (t : ℕ) : Prop :=
  ∃ cap offset, s.m_capabilities.find c = some cap ∧ s.capabilityOffset c.name = some offset ∧
    ∃ i < cap.messageCount, t = (offset + i) % 2 ^ 32

/-- The ranges of different capabilities are disjoint. -/
def Session.Apart (s : Session) : Prop :=
  ∀ c d, c ≠ d → ∀ t, s.Uses c t → ¬s.Uses d t

/-- What a session promises whatever list it was started with. -/
structure Session.Sound (s : Session) (onConnect : List CapDesc) : Prop where
  apart : s.Apart
  once : onConnect.Nodup

section Registered
open Host
variable {h : Host} {l : List CapDesc} {s : Session}

theorem Host.Registered.uses_iff (hr : h.Registered UserPacket l .empty s)
    (hn : (l.map CapDesc.name).Nodup) {x : CapDesc × ℕ} (hx : x ∈ h.ranges UserPacket l) {t : ℕ} :
    s.Uses x.1 t ↔ Layout.Occupies h.messageCount (2 ^ 32) x t := by
  have hcap : s.m_capabilities.find x.1 = h.m_capabilities.find x.1 := by
    rw [hr.capabilities, if_pos (Layout.mem_starts hx).1]
  unfold Session.Uses Layout.Occupies Host.messageCount
  rw [hcap, hr.offsets hn x hx]
  cases h.m_capabilities.find x.1 with
  | none => simp
  | some cap => simp

theorem Host.Registered.mem_of_uses (hr : h.Registered UserPacket l .empty s) {c : CapDesc}
    {t : ℕ} (hu : s.Uses c t) : c ∈ l := by
  obtain ⟨cap, -, hcap, -⟩ := hu
  rw [hr.capabilities] at hcap
  by_contra hc
  rw [if_neg hc] at hcap
  cases hcap

theorem Host.Registered.apart_iff (hr : h.Registered UserPacket l .empty s)
    (hn : (l.map CapDesc.name).Nodup) :
    s.Apart ↔ Layout.total h.messageCount l ≤ 2 ^ 32 := by
  rw [← @Layout.apart_iff _ h.messageCount _ UserPacket l fun c _ => messageCount_lt c]
  have hfst : ((h.ranges UserPacket l).map Prod.fst).Nodup := by
    rw [ranges, Layout.starts_map_fst]
    exact hn.of_map _
  constructor
  · intro ha
    apply (List.Nodup.of_map _ hfst).pairwise_of_forall_ne
    intro x hx y hy hne t hxt
    rw [← hr.uses_iff hn hx] at hxt
    rw [← hr.uses_iff hn hy]
    exact ha _ _ (fun e => hne (List.inj_on_of_nodup_map hfst hx hy e)) t hxt
  · intro hp c d hne t hc hd
    obtain ⟨m, hm⟩ := h.exists_range UserPacket (hr.mem_of_uses hc)
    obtain ⟨n, hn'⟩ := h.exists_range UserPacket (hr.mem_of_uses hd)
    exact hp.forall hm hn' (fun e => hne (congrArg Prod.fst e)) t
      ((hr.uses_iff hn hm).mp hc) ((hr.uses_iff hn hn').mp hd)

end Registered

theorem leaveHighest_names_nodup {h : Host} {l : List CapDesc} (hl : (h.leaveHighest l).Nodup) :
    ((h.leaveHighest l).map CapDesc.name).Nodup :=
  List.Nodup.map_on (fun _ hc _ hd => Host.leaveHighest_name_injective hc hd) hl

theorem sound_iff {h : Host} {id : NodeID} {hello : Hello} {s : Session} {onConnect : List CapDesc}
    (hs : h.startPeerSession id hello = .started s onConnect) :
    s.Sound onConnect ↔ (h.leaveHighest hello.caps).Nodup ∧
      Layout.total h.messageCount (h.leaveHighest hello.caps) ≤ 2 ^ 32 := by
  obtain ⟨rfl, -, hr⟩ := Host.startPeerSession_started hs
  constructor
  · intro ⟨ha, ho⟩
    exact ⟨ho, (hr.apart_iff (leaveHighest_names_nodup ho)).mp ha⟩
  · intro ⟨hn, ht⟩
    exact ⟨(hr.apart_iff (leaveHighest_names_nodup hn)).mpr ht, hn⟩

/-! ### Two hosts -/

/-- The argument list behind the packet id is one item of RLP. -/
def OneItem (args : Bytes) : Prop :=
  args ≠ [] ∧ RLPView.actualSize args = .ok args.length

/-- Whatever message of a capability the one side sends, the other side hands it to that
capability, unless it has disabled the capability. -/
def Session.Delivers (s r : Session) : Prop :=
  ∀ c cap, s.m_capabilities.find c = some cap → ∀ id < cap.messageCount,
    ∀ args, OneItem args → ∀ disabled, c.name ∉ disabled → ∀ hProtocolId,
      ∃ frame, s.prep c.name id args = some frame ∧
        {r with m_disabledCapabilities := disabled}.doRead hProtocolId frame =
          .ok (.interpreted c id)

/-- The highest version of its name that both hosts have. -/
def Host.HighestCommon (a b : Host) (c : CapDesc) : Prop :=
  a.haveCapability c = true ∧ b.haveCapability c = true ∧
    ∀ d : CapDesc, d.name = c.name → a.haveCapability d = true → b.haveCapability d = true →
      d.version ≤ c.version

/-- The two ends of a session agree. -/
structure Agree (a b : Host) (s r : Session) : Prop where
  left : ∀ c, (s.m_capabilities.find c).isSome ↔ a.HighestCommon b c
  right : ∀ c, (r.m_capabilities.find c).isSome ↔ a.HighestCommon b c
  offsets : ∀ name, s.capabilityOffset name = r.capabilityOffset name
  first : ∃ c cap, s.m_capabilities.find c = some cap ∧
    s.capabilityOffset c.name = some UserPacket
  least : ∀ name offset, s.capabilityOffset name = some offset → UserPacket ≤ offset
  apartLeft : s.Apart
  apartRight : r.Apart
  sent : s.Delivers r
  received : r.Delivers s

/-- The message counts of a capability are the same on both hosts. -/
def Host.SameCounts (a b : Host) : Prop :=
  ∀ c x y, a.m_capabilities.find c = some x → b.m_capabilities.find c = some y →
    x.messageCount = y.messageCount

/-! ### A frame -/

namespace Session
variable {s : Session} {b : UInt8} {args : Bytes}

theorem croppedFrom_content (b : UInt8) (args : Bytes) :
    (BytesConstRef.ofBytes (b :: args)).croppedFrom 1 = ⟨some 1, args, args.length⟩ := by
  simp [BytesConstRef.croppedFrom, BytesConstRef.ofBytes]

theorem construct_args (ha : OneItem args) (b : UInt8) :
    RLPView.construct ((BytesConstRef.ofBytes (b :: args)).croppedFrom 1) VeryStrict =
      .ok ⟨⟨some 1, args, args.length⟩⟩ := by
  obtain ⟨off, len, he, hs⟩ := RLPView.extent_of_actualSize ha.1 ha.2
  rw [croppedFrom_content]
  refine RLPView.construct_of_extent (d := ⟨some 1, args, args.length⟩) ?_ hs
  simpa [BytesConstRef.content] using he

theorem checkPacket_cons (ha : OneItem args) (b : UInt8) :
    checkPacket (b :: args) = .ok (decide (b.toNat ≤ 0x7f)) := by
  have hlen : 0 < args.length := List.length_pos_of_ne_nil ha.1
  unfold checkPacket
  by_cases hb : 0x7f < b.toNat
  · rw [if_pos (.inl (by simpa using hb))]
    simp [hb]
  · have hshort : ¬((b :: args).head?.any (fun b => 0x7f < b.toNat) ∨ (b :: args).length < 2) := by
      rintro (hhead | hless)
      · exact hb (of_decide_eq_true hhead)
      · rw [List.length_cons] at hless
        omega
    rw [if_neg hshort, construct_args ha, RLPView.ok_bind]
    have hc : RLPView.content ⟨⟨some 1, args, args.length⟩⟩ = args := by
      simp [RLPView.content, BytesConstRef.content]
    rw [hc, ha.2, RLPView.ok_bind, decide_eq_true (not_lt.mp hb)]
    simp
    rfl

/-- A packet id that does not fit seven bits is refused. -/
theorem doRead_high (ha : OneItem args) (hb : 0x7f < b.toNat) (p : ℕ) :
    s.doRead p (b :: args) = .ok .badProtocol := by
  unfold doRead
  rw [checkPacket_cons ha, RLPView.ok_bind]
  rw [if_pos (by simp; omega)]
  rfl

theorem extent_first (hb : b.toNat ≤ 0x7f) : RLP.extent [b] = some (0, 1) := by
  unfold RLP.extent
  dsimp only
  rw [if_pos (by unfold c_rlpDataImmLenStart; omega)]

theorem construct_first (hb : b.toNat ≤ 0x7f) (args : Bytes) :
    RLPView.construct ((BytesConstRef.ofBytes (b :: args)).cropped 0 1) VeryStrict =
      .ok ⟨⟨some 0, b :: args, 1⟩⟩ := by
  have hcr : (BytesConstRef.ofBytes (b :: args)).cropped 0 1 = ⟨some 0, b :: args, 1⟩ := by
    simp [BytesConstRef.cropped, BytesConstRef.ofBytes]
  rw [hcr]
  exact RLPView.construct_of_extent (extent_first hb) rfl

theorem compact_first (h0 : b ≠ 0) : toCompactBigEndian b.toNat = [b] := by
  have hf : fromBigEndian [b] = b.toNat := by simp [fromBigEndian]
  rw [← hf]
  exact toCompactBigEndian_fromBigEndian h0 []

theorem toInt_first (hb : b.toNat ≤ 0x7f) (h0 : b ≠ 0) (args : Bytes) :
    RLPView.toIntOf 4 ⟨⟨some 0, b :: args, 1⟩⟩ Strict = .ok b.toNat := by
  have hs : RLPView.Single ⟨⟨some 0, b :: args, 1⟩⟩ 0 1 := ⟨⟨rfl, by simp⟩, extent_first hb, rfl⟩
  have hreq : bytesRequired b.toNat ≤ 1 := bytesRequired_le (by omega)
  have hc : RLPView.content ⟨⟨some 0, b :: args, 1⟩⟩ = [b] := rfl
  apply RLPView.toIntOf_encode hs
  · rw [hc, compact_first h0, appendData, if_pos (by unfold c_rlpDataImmLenStart; omega)]
  · rw [hc]
    exact decide_eq_true (by unfold c_rlpListStart; omega)
  · rw [hc, compact_first h0]
    rfl
  · exact hreq.trans (by decide)
  · exact lt_of_le_of_lt hreq (by decide)

theorem doRead_low (ha : OneItem args) (hb : b.toNat ≤ 0x7f) (h0 : b ≠ 0) (p : ℕ) :
    s.doRead p (b :: args) = .ok (s.readPacket p b.toNat) := by
  unfold doRead
  rw [checkPacket_cons ha, RLPView.ok_bind]
  rw [if_neg (by simpa using hb), construct_first hb, RLPView.ok_bind, toInt_first hb h0,
    RLPView.ok_bind, construct_args ha]
  rfl

/-- The packet goes to the one capability that can handle it. -/
theorem readPacketLoop_eq {t off : ℕ} {c : CapDesc} {l : List (CapDesc × Capability)}
    (hc : c ∈ l.map Prod.fst) (hoff : s.capabilityOffset c.name = some off)
    (henabled : c.name ∉ s.m_disabledCapabilities)
    (hcan : ∀ e ∈ l, s.canHandle e.1.name e.2.messageCount t = true ↔ e.1 = c) :
    s.readPacketLoop t l = .interpreted c (t - off) := by
  induction l with
  | nil => cases hc
  | cons e l ih =>
    obtain ⟨d, cap⟩ := e
    have hd := hcan (d, cap) List.mem_cons_self
    unfold readPacketLoop
    by_cases he : d = c
    · rw [if_pos (hd.mpr he), he, if_neg (by simpa [capabilityEnabled] using henabled), hoff]
      rfl
    · rw [if_neg fun h => he (hd.mp h)]
      exact ih ((List.mem_cons.mp hc).resolve_left (Ne.symm he))
        fun e' he' => hcan e' (List.mem_cons_of_mem _ he')

end Session

section Agree
open Host
variable {a b : Host} {l : List CapDesc} {s r : Session}

theorem Host.Registered.find_eq (hr : b.Registered UserPacket l .empty r) {c : CapDesc}
    {cap : Capability} :
    r.m_capabilities.find c = some cap ↔ c ∈ l ∧ b.m_capabilities.find c = some cap := by
  rw [hr.capabilities]
  by_cases hc : c ∈ l
  · simp [hc]
  · simp [hc, Session.empty]

theorem Host.messageCount_eq {c : CapDesc} {cap : Capability}
    (h : b.m_capabilities.find c = some cap) : b.messageCount c = cap.messageCount := by
  rw [Host.messageCount, h]
  rfl

/-- Where the ids do not reach `bound`, offsets are what they are on paper. -/
theorem Host.Registered.offset_eq (hr : b.Registered UserPacket l .empty r)
    (hn : (l.map CapDesc.name).Nodup) {x : CapDesc × ℕ} (hx : x ∈ b.ranges UserPacket l)
    (hlt : x.2 < 2 ^ 32) : r.capabilityOffset x.1.name = some x.2 := by
  rw [hr.offsets hn x hx, Nat.mod_eq_of_lt hlt]

theorem Host.Registered.canHandle_iff (hr : b.Registered UserPacket l .empty r)
    (hn : (l.map CapDesc.name).Nodup) (hfit : UserPacket + Layout.total b.messageCount l ≤ 128)
    {x : CapDesc × ℕ} (hx : x ∈ b.ranges UserPacket l) {id : ℕ} (hid : id < b.messageCount x.1)
    {d : CapDesc} {cap : Capability} (hd : r.m_capabilities.find d = some cap) :
    r.canHandle d.name cap.messageCount (x.2 + id) = true ↔ d = x.1 := by
  obtain ⟨hdl, hdb⟩ := hr.find_eq.mp hd
  obtain ⟨n, hy⟩ := b.exists_range UserPacket hdl
  have hxhi := (Layout.mem_starts hx).2.2
  have hyhi := (Layout.mem_starts hy).2.2
  have hcount := messageCount_eq hdb
  dsimp only at hyhi
  have hoff := hr.offset_eq hn hy (by dsimp only; omega)
  rw [Session.canHandle, hoff, Option.any_some, Bool.and_eq_true, decide_eq_true_eq,
    decide_eq_true_eq, Nat.mod_eq_of_lt (by omega)]
  constructor
  · rintro ⟨hlo, hhi⟩
    have := Layout.eq_of_covers hx hy (p := x.2 + id) ⟨by omega, by omega⟩
      ⟨hlo, by dsimp only; omega⟩
    rw [this]
  · rintro rfl
    have hoff' := hr.offset_eq hn hx (by omega)
    have hxn : n = x.2 := Option.some.inj (hoff.symm.trans hoff')
    dsimp only
    omega

/-- Where ids stay below the first that does not fit the wire, each finds its capability. -/
theorem Host.Registered.readPacket_eq (hr : b.Registered UserPacket l .empty r)
    (hn : (l.map CapDesc.name).Nodup) (hfit : UserPacket + Layout.total b.messageCount l ≤ 128)
    {x : CapDesc × ℕ} (hx : x ∈ b.ranges UserPacket l) (hhave : b.haveCapability x.1 = true)
    {id : ℕ} (hid : id < b.messageCount x.1) {disabled : List Bytes} (hd : x.1.name ∉ disabled)
    (p : ℕ) :
    Session.readPacket {r with m_disabledCapabilities := disabled} p (x.2 + id) =
      .interpreted x.1 id := by
  obtain ⟨hxl, hxlo, hxhi⟩ := Layout.mem_starts hx
  obtain ⟨cap, hcap⟩ := Option.isSome_iff_exists.mp hhave
  unfold Session.readPacket
  rw [if_neg (by omega)]
  have hloop := @Session.readPacketLoop_eq {r with m_disabledCapabilities := disabled}
    (x.2 + id) x.2 x.1 r.m_capabilities.entries
    (List.mem_map.mpr
      ⟨(x.1, cap), SortedMap.find_eq_some_iff.mp (hr.find_eq.mpr ⟨hxl, hcap⟩), rfl⟩)
    (hr.offset_eq hn hx (by omega)) hd
    fun e he => hr.canHandle_iff hn hfit hx hid (SortedMap.find_eq_some_iff.mpr he)
  rw [hloop, Nat.add_sub_cancel_left]

theorem Host.Registered.delivers (hs : a.Registered UserPacket l .empty s)
    (hr : b.Registered UserPacket l .empty r) (hn : (l.map CapDesc.name).Nodup)
    (hb : ∀ c ∈ l, b.haveCapability c = true)
    (hcount : ∀ c ∈ l, a.messageCount c = b.messageCount c)
    (hfit : UserPacket + Layout.total b.messageCount l ≤ 128) : s.Delivers r := by
  intro c cap hc id hid args hargs disabled hd p
  obtain ⟨hcl, hca⟩ := hs.find_eq.mp hc
  obtain ⟨n, hx⟩ := b.exists_range UserPacket hcl
  rw [← messageCount_eq hca, hcount c hcl] at hid
  obtain ⟨-, hlo, hhi⟩ := Layout.mem_starts hx
  dsimp only at hlo hhi
  have hx' : (c, n) ∈ a.ranges UserPacket l := by
    rw [ranges, Layout.starts_congr hcount]
    exact hx
  have hoff : s.capabilityOffset c.name = some n :=
    hs.offset_eq hn hx' (by dsimp only; omega)
  have hbyte : (UInt8.ofNat (id + n)).toNat = id + n := RLP.toNat_ofNat (by omega)
  refine ⟨UInt8.ofNat (id + n) :: args, ?_, ?_⟩
  · rw [Session.prep, hoff, Option.map_some, Nat.mod_eq_of_lt (by omega)]
  · have h0 : UInt8.ofNat (id + n) ≠ 0 := by
      intro he
      rw [he] at hbyte
      have : UserPacket = 16 := rfl
      simp at hbyte
      omega
    rw [Session.doRead_low hargs (by omega) h0, hbyte, Nat.add_comm]
    exact congrArg Except.ok (hr.readPacket_eq hn hfit hx (hb c hcl) hid hd p)

/-- A packet id of 128 is not read. -/
theorem Host.Registered.fits_of_delivers (hs : a.Registered UserPacket l .empty s)
    (hn : (l.map CapDesc.name).Nodup) (ha : ∀ c ∈ l, a.haveCapability c = true)
    (hd : s.Delivers r) : UserPacket + Layout.total a.messageCount l ≤ 128 := by
  by_contra hgt
  obtain ⟨x, hx, hlo, hhi⟩ :=
    @Layout.exists_of_lt_total _ a.messageCount UserPacket 128 l (by decide) (by omega)
  obtain ⟨cap, hcap⟩ := Option.isSome_iff_exists.mp (ha x.1 (Layout.mem_starts hx).1)
  have hcount := messageCount_eq hcap
  have hargs : OneItem [0xc0] := ⟨by decide, by decide⟩
  obtain ⟨frame, hprep, hread⟩ := hd x.1 cap (hs.find_eq.mpr ⟨(Layout.mem_starts hx).1, hcap⟩)
    (128 - x.2) (by omega) [0xc0] hargs [] (by simp) 0
  have hid : 128 - x.2 + x.2 = 128 := by omega
  rw [Session.prep, hs.offset_eq hn hx (by omega), Option.map_some, hid] at hprep
  cases hprep
  rw [Session.doRead_high hargs (by decide)] at hread
  cases hread

theorem Host.Registered.isSome_iff (hs : a.Registered UserPacket l .empty s)
    (ha : ∀ c ∈ l, a.haveCapability c = true) (c : CapDesc) :
    (s.m_capabilities.find c).isSome ↔ c ∈ l := by
  rw [Option.isSome_iff_exists]
  constructor
  · rintro ⟨cap, hc⟩
    exact (hs.find_eq.mp hc).1
  · intro hc
    obtain ⟨cap, hcap⟩ := Option.isSome_iff_exists.mp (ha c hc)
    exact ⟨cap, hs.find_eq.mpr ⟨hc, hcap⟩⟩

theorem Host.Registered.offsets_congr (hs : a.Registered UserPacket l .empty s)
    (hr : b.Registered UserPacket l .empty r) (hn : (l.map CapDesc.name).Nodup)
    (hcount : ∀ c ∈ l, a.messageCount c = b.messageCount c) (name : Bytes) :
    s.capabilityOffset name = r.capabilityOffset name := by
  by_cases hname : name ∈ l.map CapDesc.name
  · obtain ⟨c, hc, rfl⟩ := List.mem_map.mp hname
    obtain ⟨n, hx⟩ := a.exists_range UserPacket hc
    rw [hs.offsets hn _ hx]
    rw [ranges, Layout.starts_congr hcount] at hx
    rw [hr.offsets hn _ hx]
  · rw [hs.frame name hname, hr.frame name hname]

theorem Host.Registered.first (hs : a.Registered UserPacket l .empty s)
    (hn : (l.map CapDesc.name).Nodup) (ha : ∀ c ∈ l, a.haveCapability c = true) (hne : l ≠ []) :
    ∃ c cap, s.m_capabilities.find c = some cap ∧
      s.capabilityOffset c.name = some UserPacket := by
  obtain ⟨c, rest, rfl⟩ := List.exists_cons_of_ne_nil hne
  obtain ⟨cap, hcap⟩ := Option.isSome_iff_exists.mp (ha c List.mem_cons_self)
  refine ⟨c, cap, hs.find_eq.mpr ⟨List.mem_cons_self, hcap⟩, ?_⟩
  exact hs.offset_eq hn (x := (c, UserPacket)) List.mem_cons_self
    (show UserPacket < 2 ^ 32 by decide)

theorem Host.Registered.least (hs : a.Registered UserPacket l .empty s)
    (hn : (l.map CapDesc.name).Nodup) (hfit : UserPacket + Layout.total a.messageCount l < 2 ^ 32)
    (name : Bytes) (offset : ℕ) (ho : s.capabilityOffset name = some offset) :
    UserPacket ≤ offset := by
  by_cases hname : name ∈ l.map CapDesc.name
  · obtain ⟨c, hc, rfl⟩ := List.mem_map.mp hname
    obtain ⟨n, hx⟩ := a.exists_range UserPacket hc
    obtain ⟨-, hlo, hhi⟩ := Layout.mem_starts hx
    dsimp only at hlo hhi
    have hoff := hs.offset_eq hn hx (show n < 2 ^ 32 by omega)
    rw [ho] at hoff
    cases hoff
    exact hlo
  · rw [hs.frame name hname] at ho
    cases ho

/-! ### The lists of two hosts -/

theorem Host.mem_caps {h : Host} {c : CapDesc} : c ∈ h.caps ↔ h.haveCapability c = true := by
  unfold Host.caps Host.haveCapability
  rw [Option.isSome_iff_exists, List.mem_map]
  constructor
  · rintro ⟨e, he, rfl⟩
    exact ⟨e.2, SortedMap.find_eq_some_iff.mpr he⟩
  · rintro ⟨cap, hc⟩
    exact ⟨(c, cap), SortedMap.find_eq_some_iff.mp hc, rfl⟩

theorem Host.caps_sorted (h : Host) : h.caps.Pairwise (· < ·) :=
  List.pairwise_map.mpr h.m_capabilities.sorted

/-- In a sorted list a nameless capability has only nameless ones before it. -/
theorem Host.namelessFirst_caps (a b : Host) : a.NamelessFirst b.caps := by
  rintro pre x post hl - hx y hy
  have hlt : y < x := by
    have hs := b.caps_sorted
    rw [hl, List.pairwise_append] at hs
    exact hs.2.2 y hy x List.mem_cons_self
  have hle : y.name ≤ x.name := by
    rcases Prod.Lex.lt_iff.mp hlt with h | h
    · exact h.le
    · exact h.1.le
  rw [hx] at hle
  rcases hyn : y.name with _ | ⟨u, v⟩
  · rfl
  · rw [hyn] at hle
    exact absurd hle (not_le.mpr List.Lex.nil)

theorem Host.mem_agreed_caps {c : CapDesc} : c ∈ a.agreed b.caps ↔ a.HighestCommon b c := by
  rw [Host.mem_agreed, mem_caps, Host.HighestCommon, ← and_assoc, and_comm (b := _ = _), and_assoc]
  refine and_congr_right fun _ => and_congr_right fun _ => forall_congr' fun d => ?_
  rw [mem_caps, Host.Above]
  grind

theorem Host.HighestCommon.symm {c : CapDesc} (h : a.HighestCommon b c) : b.HighestCommon a c :=
  ⟨h.2.1, h.1, fun d hn hb ha => h.2.2 d hn ha hb⟩

theorem Host.agreed_sorted (a b : Host) : (a.agreed b.caps).Pairwise (· < ·) :=
  b.caps_sorted.filter _

/-- Both sides are left with the same list, though each compacts the other's. -/
theorem Host.agreed_comm (a b : Host) : b.agreed a.caps = a.agreed b.caps := by
  have hperm : (b.agreed a.caps).Perm (a.agreed b.caps) := by
    apply (List.perm_ext_iff_of_nodup (b.agreed_sorted a).nodup (a.agreed_sorted b).nodup).mpr
    intro c
    rw [mem_agreed_caps, mem_agreed_caps]
    exact ⟨HighestCommon.symm, HighestCommon.symm⟩
  exact hperm.eq_of_pairwise (fun _ _ _ _ h₁ h₂ => (lt_asymm h₁ h₂).elim)
    (b.agreed_sorted a) (a.agreed_sorted b)

theorem agree_iff (hcounts : a.SameCounts b) {left right : NodeID} {hello hello' : Hello}
    (hb : hello.caps = b.caps) (ha : hello'.caps = a.caps) {s r : Session}
    {onConnect onConnect' : List CapDesc}
    (hs : a.startPeerSession right hello = .started s onConnect)
    (hr : b.startPeerSession left hello' = .started r onConnect') :
    Agree a b s r ↔ UserPacket + Layout.total a.messageCount (a.agreed b.caps) ≤ 128 := by
  obtain ⟨-, hne, hs'⟩ := startPeerSession_started hs
  obtain ⟨-, -, hr'⟩ := startPeerSession_started hr
  rw [hb, leaveHighest_eq (a.namelessFirst_caps b)] at hs' hne
  rw [ha, leaveHighest_eq (b.namelessFirst_caps a), agreed_comm] at hr'
  have hmem : ∀ c ∈ a.agreed b.caps, a.haveCapability c = true ∧ b.haveCapability c = true :=
    fun c hc => ⟨(mem_agreed_caps.mp hc).1, (mem_agreed_caps.mp hc).2.1⟩
  have hcount : ∀ c ∈ a.agreed b.caps, a.messageCount c = b.messageCount c := by
    intro c hc
    obtain ⟨x, hx⟩ := Option.isSome_iff_exists.mp (hmem c hc).1
    obtain ⟨y, hy⟩ := Option.isSome_iff_exists.mp (hmem c hc).2
    rw [messageCount_eq hx, messageCount_eq hy]
    exact hcounts c x y hx hy
  have hn : ((a.agreed b.caps).map CapDesc.name).Nodup := by
    rw [← leaveHighest_eq (a.namelessFirst_caps b)]
    apply leaveHighest_names_nodup
    rw [leaveHighest_eq (a.namelessFirst_caps b)]
    exact (a.agreed_sorted b).nodup
  constructor
  · intro h
    exact hs'.fits_of_delivers hn (fun c hc => (hmem c hc).1) h.sent
  · intro hfit
    have hfit' : UserPacket + Layout.total b.messageCount (a.agreed b.caps) ≤ 128 := by
      rwa [← Layout.total_congr hcount]
    exact
      { left := fun c => by rw [hs'.isSome_iff fun c hc => (hmem c hc).1, mem_agreed_caps]
        right := fun c => by rw [hr'.isSome_iff fun c hc => (hmem c hc).2, mem_agreed_caps]
        offsets := hs'.offsets_congr hr' hn hcount
        first := hs'.first hn (fun c hc => (hmem c hc).1) hne
        least := hs'.least hn (by omega)
        apartLeft := (hs'.apart_iff hn).mpr (by omega)
        apartRight := (hr'.apart_iff hn).mpr (by omega)
        sent := hs'.delivers hr' hn (fun c hc => (hmem c hc).2) hcount hfit'
        received := hr'.delivers hs' hn (fun c hc => (hmem c hc).1)
          (fun c hc => (hcount c hc).symm) hfit }

/-- **Two hosts agree exactly where their common messages fit the ids below 128**, and whatever
list a peer sends, the session is sound exactly where none of the highest capabilities occurs
twice in it and the ids do not go around. (The list is read exactly where no capability of this
host is nameless, or the nameless ones come first; without that, no capability of this host may
occur twice at all.) -/
theorem startPeerSession_agrees (a : Host) :
    (∀ (b : Host) (left right : NodeID) (hello hello' : Hello) (s r : Session)
      (onConnect onConnect' : List CapDesc), a.SameCounts b → hello.caps = b.caps →
      hello'.caps = a.caps → a.startPeerSession right hello = .started s onConnect →
      b.startPeerSession left hello' = .started r onConnect' →
      (Agree a b s r ↔ UserPacket + Layout.total a.messageCount (a.agreed b.caps) ≤ 128)) ∧
    (∀ (id : NodeID) (hello : Hello) (s : Session) (onConnect : List CapDesc),
      a.startPeerSession id hello = .started s onConnect →
      (a.NamelessFirst hello.caps → (s.Sound onConnect ↔ (a.agreed hello.caps).Nodup ∧
        Layout.total a.messageCount (a.agreed hello.caps) ≤ 2 ^ 32)) ∧
      ((hello.caps.filter a.haveCapability).Nodup →
        Layout.total a.messageCount (hello.caps.filter a.haveCapability) ≤ 2 ^ 32 →
        s.Sound onConnect)) := by
  constructor
  · intro b left right hello hello' s r onConnect onConnect' hcounts hb ha hs hr
    exact agree_iff hcounts hb ha hs hr
  · intro id hello s onConnect hs
    rw [sound_iff hs]
    constructor
    · intro hfirst
      rw [leaveHighest_eq hfirst]
    · intro hn ht
      have hsub : List.Sublist (a.leaveHighest hello.caps)
          (hello.caps.filter a.haveCapability) := by
        rw [← List.filter_eq_self.mpr fun c hc => have_of_leaveHighest hc]
        exact (Compaction.removeIf_sublist hello.caps).filter _
      exact ⟨hn.sublist hsub, (Layout.total_le_of_sublist hsub).trans ht⟩

/-! ### Two versions of `eth` -/

def eth (version : ℕ) : CapDesc := ⟨[0x65, 0x74, 0x68], version⟩

/-- A host with two versions of one subprotocol. -/
def ethHost : Host where
  m_capabilities := (SortedMap.empty.insert (eth 62) ⟨8, by decide⟩).insert (eth 63) ⟨17, by decide⟩
  pin := false
  m_requiredPeers := []
  m_sessions := []
  m_pendingPeerConns := 0
  m_idealPeerCount := 11
  m_stretchPeers := 7

def somePeer : NodeID := ⟨List.replicate 64 1, by decide⟩

theorem startPeerSession_agrees_eth :
    ∃ s, ethHost.startPeerSession somePeer ⟨4, ethHost.caps, somePeer⟩ = .started s [eth 63] ∧
      Agree ethHost ethHost s s ∧ s.Sound [eth 63] := by
  refine ⟨_, rfl, ?_, ?_⟩
  · apply ((startPeerSession_agrees ethHost).1 ethHost somePeer somePeer ⟨4, ethHost.caps, somePeer⟩
      ⟨4, ethHost.caps, somePeer⟩ _ _ [eth 63] [eth 63] ?_ rfl rfl rfl rfl).mpr
    · decide
    · intro c x y hx hy
      rw [hx] at hy
      cases hy
      rfl
  · apply (((startPeerSession_agrees ethHost).2 somePeer ⟨4, ethHost.caps, somePeer⟩ _ [eth 63]
      rfl).1 (ethHost.namelessFirst_caps ethHost)).mpr
    decide

/-- A peer that lists a capability twice has it connected twice. -/
theorem startPeerSession_connects_twice :
    ∃ s, ethHost.startPeerSession somePeer ⟨4, [eth 63, eth 63], somePeer⟩ =
      .started s [eth 63, eth 63] ∧ ¬s.Sound [eth 63, eth 63] :=
  ⟨_, rfl, fun h => absurd h.once (by decide)⟩

end Agree
end Aleth.P2p
