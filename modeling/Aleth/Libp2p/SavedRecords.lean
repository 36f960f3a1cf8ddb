import Aleth.Libp2p.HandshakeMessages
import Aleth.Libp2p.SavedNetwork

/-! What `saveNetwork` writes, and how its records are read. -/
namespace Aleth.P2p
open Devcore
open RLP (extent)
open RLPView BytesConstRef RLPStream

/-! ### Writing -/

/-- The item of an `unsigned`. -/
def wordItem (n : ℕ) : Bytes := numberItem (n % 2 ^ 32)

theorem bytesRequired_word (n : ℕ) : bytesRequired (n % 2 ^ 32) ≤ 4 :=
  bytesRequired_le ((Nat.mod_lt n (by norm_num)).trans_eq (by norm_num))

theorem writes_appendUnsigned (n : ℕ) : Writes (appendUnsigned n) (wordItem n) :=
  writes_appendInt ((bytesRequired_word n).trans_lt (by norm_num))

theorem length_wordItem_le (n : ℕ) : (wordItem n).length ≤ 5 :=
  length_numberItem_le (bytesRequired_word n) (by norm_num)

theorem isItem_numberItem {n : ℕ} (h : bytesRequired n ≤ 32) : IsItem (numberItem n) := by
  apply isItem_appendData
  rw [toCompactBigEndian_length]
  omega

theorem isItem_wordItem (n : ℕ) : IsItem (wordItem n) :=
  isItem_numberItem ((bytesRequired_word n).trans (by norm_num))

theorem isItem_appendList {p : Bytes} (h : p.length < 2 ^ 64 - 1 - 0x100) :
    IsItem (Devcore.appendList p) := by
  have hext := RLP.extent_list p [] h
  rw [List.append_nil] at hext
  refine ⟨_, _, hext, ?_⟩
  rw [Devcore.appendList, List.length_append]

theorem Address.length_to_bytes_le (a : Address) : a.to_bytes.length ≤ 16 := by
  cases a with
  | v4 bytes size => exact size.trans_le (by norm_num)
  | v6 bytes size => exact size.le

def endpointItems (e : NodeIPEndpoint) : List Bytes :=
  [appendData e.address.to_bytes, wordItem e.udpPort.toNat, wordItem e.tcpPort.toNat]

theorem writes_streamInline (e : NodeIPEndpoint) :
    List.Forall₂ Writes e.streamInline (endpointItems e) := by
  have hlen := e.address.length_to_bytes_le
  exact .cons (writes_append (by omega))
    (.cons (writes_appendUnsigned _) (.cons (writes_appendUnsigned _) .nil))

/-- The fields of a record behind the endpoint, which are an id and numbers. -/
def recordItems (n : Node) (numbers : List ℕ) : List Bytes :=
  endpointItems n.endpoint ++ appendData n.id.bytes :: numbers.map wordItem

theorem writes_recordItems (n : Node) (numbers : List ℕ) :
    List.Forall₂ Writes
      (n.endpoint.streamInline ++ append n.id.bytes false :: numbers.map appendUnsigned)
      (recordItems n numbers) := by
  apply writes_middle (writes_streamInline n.endpoint)
  · exact writes_append (by rw [n.id.size]; norm_num)
  · induction numbers with
    | nil => exact .nil
    | cons x numbers ih => exact .cons (writes_appendUnsigned x) ih

theorem isItem_of_mem_recordItems {n : Node} {numbers : List ℕ} {x : Bytes}
    (h : x ∈ recordItems n numbers) : IsItem x := by
  have hlen := n.endpoint.address.length_to_bytes_le
  have hid := n.id.size
  simp only [recordItems, endpointItems, List.cons_append, List.nil_append, List.mem_cons,
    List.mem_map] at h
  rcases h with rfl | rfl | rfl | rfl | ⟨k, -, rfl⟩
  · exact isItem_appendData (by omega)
  · exact isItem_wordItem _
  · exact isItem_wordItem _
  · exact isItem_appendData (by omega)
  · exact isItem_wordItem _

theorem length_flatten_le {xs : List Bytes} {k : ℕ} (h : ∀ x ∈ xs, x.length ≤ k) :
    xs.flatten.length ≤ k * xs.length := by
  induction xs with
  | nil => exact Nat.zero_le _
  | cons x xs ih =>
    have hx := h x List.mem_cons_self
    have hxs := ih fun y hy => h y (List.mem_cons_of_mem x hy)
    rw [List.flatten_cons, List.length_append, List.length_cons, Nat.mul_succ]
    omega

theorem length_appendData_le_add {s : Bytes} (h : s.length < 2 ^ 64) :
    (appendData s).length ≤ s.length + 9 :=
  RLP.encode_length_le (i := .data s) h

theorem length_appendList_le {p : Bytes} (h : p.length < 2 ^ 64) :
    (Devcore.appendList p).length ≤ p.length + 9 := by
  have hhead := IdentitySchemeV4.length_header_le c_rlpListStart c_rlpListIndLenZero p.length
  have hbr : bytesRequired p.length ≤ 8 := bytesRequired_le (h.trans_eq (by norm_num))
  rw [Devcore.appendList, List.length_append]
  omega

theorem length_recordItems_le (n : Node) (numbers : List ℕ) :
    (recordItems n numbers).flatten.length ≤ 108 + 5 * numbers.length := by
  have haddr := n.endpoint.address.length_to_bytes_le
  have ha := length_appendData_le_add (s := n.endpoint.address.to_bytes) (by omega)
  have hi := length_appendData_le_add (s := n.id.bytes) (by rw [n.id.size]; norm_num)
  have hu := length_wordItem_le n.endpoint.udpPort.toNat
  have ht := length_wordItem_le n.endpoint.tcpPort.toNat
  have hnumbers : (numbers.map wordItem).flatten.length ≤ 5 * (numbers.map wordItem).length := by
    apply length_flatten_le
    intro x hx
    obtain ⟨k, -, rfl⟩ := List.mem_map.mp hx
    exact length_wordItem_le k
  rw [n.id.size] at hi
  rw [List.length_map] at hnumbers
  simp only [recordItems, endpointItems, List.cons_append, List.nil_append, List.flatten_cons,
    List.length_append]
  omega

/-- The encoding of a record. -/
def encodeRecord (n : Node) (numbers : List ℕ) : Bytes :=
  Devcore.appendList (recordItems n numbers).flatten

/-- A record is an item: what it is announced with is the number of its fields. -/
theorem writes_encodeRecord (n : Node) (numbers : List ℕ) (h : numbers.length ≤ 7) :
    Writes (fun network => do
      calls (n.endpoint.streamInline ++ append n.id.bytes false :: numbers.map appendUnsigned)
        (← RLPStream.appendList (4 + numbers.length) network)) (encodeRecord n numbers) := by
  have hlen := length_recordItems_le n numbers
  have hw := writes_list (writes_recordItems n numbers) (by simp) (by omega)
  have hcount : (n.endpoint.streamInline ++ append n.id.bytes false ::
      numbers.map appendUnsigned).length = 4 + numbers.length := by
    simp [NodeIPEndpoint.streamInline]
    omega
  rw [hcount] at hw
  exact hw

namespace NodeEntry

def numbers (e : NodeEntry) : List ℕ := [e.lastPongReceivedTime, e.lastPongSentTime]

end NodeEntry

namespace Peer

def numbers (p : Peer) : List ℕ :=
  [if p.peerType = .Required then 1 else 0, toUnsigned (secondsOf p.m_lastConnected),
    toUnsigned (secondsOf p.m_lastAttempted), p.m_failedAttempts.toNat, p.m_lastDisconnect.toNat,
    p.m_score.toUInt32.toNat, p.m_rating.toUInt32.toNat]

end Peer

theorem writes_streamEntry (e : NodeEntry) :
    Writes (streamEntry e) (encodeRecord e.node e.numbers) :=
  writes_encodeRecord e.node e.numbers (by simp [NodeEntry.numbers])

theorem writes_streamPeer (p : Peer) :
    Writes (streamPeer p) (encodeRecord p.toNode p.numbers) :=
  writes_encodeRecord p.toNode p.numbers (by simp [Peer.numbers])

theorem length_encodeRecord_le (n : Node) {numbers : List ℕ} (h : numbers.length ≤ 7) :
    (encodeRecord n numbers).length ≤ 152 := by
  have hlen := length_recordItems_le n numbers
  have hle := length_appendList_le (p := (recordItems n numbers).flatten) (by omega)
  unfold encodeRecord
  omega

theorem isItem_encodeRecord (n : Node) {numbers : List ℕ} (h : numbers.length ≤ 7) :
    IsItem (encodeRecord n numbers) := by
  have hlen := length_recordItems_le n numbers
  exact isItem_appendList (by omega)

/-! ### The configuration -/

/-- Appending where no list is open. -/
theorem calls_flat {fs : List (RLPStream → Except RLPException RLPStream)} {es : List Bytes}
    (h : List.Forall₂ Writes fs es) (m_out : Bytes) :
    calls fs ⟨m_out, []⟩ = .ok ⟨m_out ++ es.flatten, []⟩ := by
  induction h generalizing m_out with
  | nil => simp [calls_nil]
  | @cons f e fs es hf _ ih =>
    rw [calls_cons, hf]
    show (Except.ok ⟨m_out ++ e, []⟩ >>= calls fs) = _
    rw [ok_bind, ih, List.flatten_cons, List.append_assoc]

/-- As many items are appended at once as the list was announced with. -/
theorem writes_streamNetwork {network : Bytes} {count : ℕ} (hlen : network.length < 2 ^ 64)
    (h : count = 0 → network = []) :
    Writes (NetworkHost.streamNetwork network count) (Devcore.appendList network) := by
  intro s
  unfold NetworkHost.streamNetwork
  by_cases hcount : count = 0
  · rw [hcount, h hcount]
    show (RLPStream.appendListBytes [] s >>= fun ret => Except.ok ret) = _
    rw [bind_ok]
    show noteAppended 1 ⟨s.m_out ++ [UInt8.ofNat c_rlpListStart] ++ [], s.m_listStack⟩ = _
    rw [List.append_assoc]
    rfl
  · rw [RLPStream.appendList, if_pos hcount, ok_bind, if_pos hcount, appendRaw, noteAppended,
      if_neg hcount]
    show complete count (s.m_out ++ network) ((count, s.m_out.length) :: s.m_listStack) =
      complete 1 (s.m_out ++ Devcore.appendList network) s.m_listStack
    rw [← complete_list hlen, complete, complete, if_neg (lt_irrefl _), if_neg (lt_irrefl _),
      Nat.sub_self, Nat.sub_self]

namespace NetworkHost
variable (h : NetworkHost) (now : ℤ)

/-- The records of the list. -/
def records : List Bytes :=
  h.nodeTableEntries.map (fun e => encodeRecord e.node e.numbers) ++
    (h.peers now).map fun p => encodeRecord p.toNode p.numbers

def recordItem : Bytes :=
  Devcore.appendList (appendData h.enr.m_signature :: h.enr.contentItems).flatten

def keyItem : Bytes := Devcore.appendList [appendData h.m_alias.bytes, h.recordItem].flatten

def savedItems : List Bytes :=
  [wordItem c_protocolVersion, h.keyItem, Devcore.appendList (h.records now).flatten]

variable {h : NetworkHost} {now : ℤ}

theorem length_records_le : (h.records now).flatten.length ≤
    152 * (h.nodeTableEntries.length + (h.peers now).length) := by
  have hlen : (h.records now).length = h.nodeTableEntries.length + (h.peers now).length := by
    simp [records]
  rw [← hlen]
  apply length_flatten_le
  intro x hx
  rcases List.mem_append.mp hx with hx | hx
  · obtain ⟨e, -, rfl⟩ := List.mem_map.mp hx
    exact length_encodeRecord_le e.node (by simp [NodeEntry.numbers])
  · obtain ⟨p, -, rfl⟩ := List.mem_map.mp hx
    exact length_encodeRecord_le p.toNode (by simp [Peer.numbers])

theorem isItem_of_mem_records {x : Bytes} (hx : x ∈ h.records now) : IsItem x := by
  rcases List.mem_append.mp hx with hx | hx
  · obtain ⟨e, -, rfl⟩ := List.mem_map.mp hx
    exact isItem_encodeRecord e.node (by simp [NodeEntry.numbers])
  · obtain ⟨p, -, rfl⟩ := List.mem_map.mp hx
    exact isItem_encodeRecord p.toNode (by simp [Peer.numbers])

theorem writes_records : List.Forall₂ Writes
    (h.nodeTableEntries.map streamEntry ++ (h.peers now).map streamPeer) (h.records now) := by
  unfold records
  apply List.rel_append
  · rw [List.forall₂_map_left_iff, List.forall₂_map_right_iff]
    exact List.forall₂_same.mpr fun e _ => writes_streamEntry e
  · rw [List.forall₂_map_left_iff, List.forall₂_map_right_iff]
    exact List.forall₂_same.mpr fun p _ => writes_streamPeer p

/-- The record is short, as one that was created is. -/
def ShortRecord (h : NetworkHost) : Prop :=
  (appendData h.enr.m_signature :: h.enr.contentItems).flatten.length ≤ 291

theorem length_recordItem_le (hshort : h.ShortRecord) : h.recordItem.length ≤ 300 :=
  IdentitySchemeV4.length_record_le hshort

theorem length_keyItems_le (hshort : h.ShortRecord) :
    [appendData h.m_alias.bytes, h.recordItem].flatten.length ≤ 341 := by
  have hrecord := length_recordItem_le hshort
  have hsecret := length_appendData_le_add (s := h.m_alias.bytes) (by rw [h.m_alias.size]; norm_num)
  rw [h.m_alias.size] at hsecret
  simp only [List.flatten_cons, List.flatten_nil, List.append_nil, List.length_append]
  omega

theorem writes_streamKey (hshort : h.ShortRecord) : Writes h.streamKey h.keyItem := by
  have hlen := length_keyItems_le hshort
  have hsecret : Writes (append h.m_alias.bytes false) (appendData h.m_alias.bytes) :=
    writes_append (by rw [h.m_alias.size]; norm_num)
  have henr : Writes h.enr.streamRLP h.recordItem :=
    ENR.writes_streamRLP (lt_of_le_of_lt hshort (by norm_num))
  exact writes_list (.cons hsecret (.cons henr .nil)) (List.cons_ne_nil _ _) (by omega)

/-- What is saved. -/
theorem saveNetwork_eq (hrun : h.m_run = false) (hshort : h.ShortRecord)
    (hfew : h.nodeTableEntries.length + (h.peers now).length < 2 ^ 31) :
    h.saveNetwork now = .ok (Devcore.appendList (h.savedItems now).flatten) := by
  have hlen := @length_records_le h now
  have hnetwork : calls (h.nodeTableEntries.map streamEntry ++ (h.peers now).map streamPeer) empty =
      .ok ⟨(h.records now).flatten, []⟩ := calls_flat writes_records []
  have hnone : h.nodeTableEntries.length + (h.peers now).length = 0 →
      (h.records now).flatten = [] := by
    intro hzero
    rw [hzero] at hlen
    exact List.length_eq_zero_iff.mp (Nat.le_zero.mp hlen)
  have hkey := length_keyItems_le hshort
  have hkeyItem : h.keyItem.length ≤
      [appendData h.m_alias.bytes, h.recordItem].flatten.length + 9 :=
    length_appendList_le (by omega)
  have hlist := length_appendList_le (p := (h.records now).flatten) (by omega)
  have hversion := length_wordItem_le c_protocolVersion
  have hitems : List.Forall₂ Writes [appendUnsigned c_protocolVersion, h.streamKey,
      streamNetwork (h.records now).flatten (h.nodeTableEntries.length + (h.peers now).length)]
      (h.savedItems now) :=
    .cons (writes_appendUnsigned _) (.cons (writes_streamKey hshort)
      (.cons (writes_streamNetwork (by omega) hnone) .nil))
  have hcalls := calls_list hitems (List.cons_ne_nil _ _) (by
    simp only [savedItems, List.flatten_cons, List.flatten_nil, List.append_nil, List.length_append]
    omega)
  obtain ⟨s, hs, hcalls⟩ := bind_eq_ok.mp hcalls
  have hs3 : RLPStream.appendList 3 empty = .ok s := hs
  unfold saveNetwork
  rw [hrun, if_neg Bool.false_ne_true, if_neg (not_le.mpr hfew), hnetwork, ok_bind]
  show Except.mapError _ (RLPStream.appendList 3 empty >>= fun s => calls _ s >>= out) = _
  rw [hs3, ok_bind, hcalls, ok_bind]
  rfl

end NetworkHost

/-! ### Reading -/

theorem mapError_ok {ε ε' α : Type} (f : ε → ε') (a : α) :
    (Except.ok a : Except ε α).mapError f = .ok a := rfl

/-- A view of a list of these items. -/
def Lists (r : RLPView) (xs : List Bytes) : Prop :=
  ∃ off len, r.Single off len ∧ isList r.content = true ∧ Begins (r.content.drop off) xs []

namespace Lists
variable {r : RLPView} {xs : List Bytes} {i : ℕ}

theorem of_content {off len : ℕ} (hs : r.Single off len)
    (hc : r.content = Devcore.appendList xs.flatten) (hlen : xs.flatten.length < 2 ^ 64 - 1 - 0x100)
    (hitem : ∀ x ∈ xs, IsItem x) : Lists r xs := by
  obtain ⟨hl, hdrop⟩ := hs.of_appendList hc hlen
  exact ⟨off, len, hs, hl, hdrop ▸ begins_flatten hitem⟩

theorem item_eq (h : Lists r xs) {x : Bytes} (hi : xs[i]? = some x) :
    ∃ v, item r i = .ok v ∧ v.content = x ∧ ∃ off len, v.Single off len := by
  obtain ⟨off, len, hs, -, hb⟩ := h
  exact hs.item_of_getElem hb hi

theorem itemCount_eq (h : Lists r xs) : itemCount r.enough r = .ok xs.length := by
  obtain ⟨off, len, hs, hl, hb⟩ := h
  exact hs.itemCount_of_begins hl hb

theorem numberAt_eq (h : Lists r xs) {n maxSize : ℕ} (hi : xs[i]? = some (numberItem n))
    (hn : bytesRequired n ≤ maxSize) (hmax : maxSize < 2 ^ 32) :
    numberAt maxSize r i = .ok n := by
  obtain ⟨off, len, hs, -, hb⟩ := h
  exact hs.field_of_getElem (converts_toIntOf maxSize hmax) hb hi hn

theorem wordAt_eq (h : Lists r xs) {n : ℕ} (hi : xs[i]? = some (wordItem n)) :
    numberAt 4 r i = .ok (n % 2 ^ 32) :=
  h.numberAt_eq hi (bytesRequired_word n) (by norm_num)

theorem elements_eq (h : Lists r xs) : ∃ rs, elements r.enough r = .ok rs ∧
    rs.map RLPView.content = xs ∧ ∀ v ∈ rs, ∃ off len, v.Single off len := by
  obtain ⟨off, len, hs, hl, hb⟩ := h
  have hle := Begins.length_le hb
  have hsize := hs.length_eq
  have hcount := hs.size
  have hpay := hs.content_payload
  obtain ⟨hmap, hall⟩ := viewsOf_content hb.tiled hpay (hs.points.back off)
  rw [List.length_drop] at hle
  refine ⟨_, ?_, hmap, hall⟩
  rw [hs.elements_eq hl]
  exact collect_of_tiled hb.tiled hpay (hs.points.back off) hs.ends (by unfold enough; omega)

end Lists

/-- A view of a string. -/
theorem string_eq {r : RLPView} {off len : ℕ} (hs : r.Single off len) {b : Bytes}
    (hc : r.content = appendData b) (hb : b.length < 2 ^ 64 - 1 - 0x100) :
    itemCount r.enough r = .ok 0 ∧ r.size = .ok b.length ∧ ∀ flags, r.toBytes flags = .ok b := by
  obtain ⟨hd, hdrop⟩ := hs.of_appendData hc hb
  have hlen := hs.length_eq
  have hdropLen := congrArg List.length hdrop
  rw [List.length_drop] at hdropLen
  refine ⟨?_, ?_, fun flags => ?_⟩
  · rw [itemCount, hs.isList_eq, hd]
    rfl
  · rw [RLPView.size, if_pos hd, length_of_extent hs.extent]
    congr 1
    omega
  · rw [hs.toBytes_eq hd, hdrop]

theorem Address.ofBytes_to_bytes (a : Address) : Address.ofBytes a.to_bytes = a := by
  cases a with
  | v4 bytes size => exact dif_pos size
  | v6 bytes size =>
    have hne : ¬bytes.length = 4 := by omega
    exact (dif_neg hne).trans (dif_pos size)

namespace Lists
variable {r : RLPView} {n : Node} {numbers : List ℕ}

/-- The endpoint of a record. -/
theorem interpretRLP_eq (h : Lists r (recordItems n numbers)) :
    NodeIPEndpoint.interpretRLP r = .ok n.endpoint := by
  obtain ⟨v, hv, hc, off, len, hs⟩ := h.item_eq (i := 0) rfl
  have hle := n.endpoint.address.length_to_bytes_le
  obtain ⟨-, hsize, hbytes⟩ := string_eq hs hc (by omega)
  have hport : ∀ x : UInt16, x.toNat % 2 ^ 32 = x.toNat := fun x =>
    Nat.mod_eq_of_lt (x.toNat_lt.trans (by norm_num))
  have hfit : ∀ x : UInt16, bytesRequired (x.toNat % 2 ^ 32) ≤ 2 := by
    intro x
    rw [hport]
    exact bytesRequired_le (x.toNat_lt.trans_eq (by norm_num))
  have hudp := h.numberAt_eq (i := 1) rfl (hfit n.endpoint.udpPort) (by norm_num)
  have htcp := h.numberAt_eq (i := 2) rfl (hfit n.endpoint.tcpPort) (by norm_num)
  have haddress : readAddress v = .ok n.endpoint.address := by
    have hsizes : n.endpoint.address.to_bytes.length = 4 ∨
        n.endpoint.address.to_bytes.length = 16 := by
      cases n.endpoint.address with
      | v4 bytes size => exact .inl size
      | v6 bytes size => exact .inr size
    rw [readAddress, hsize, ok_bind, if_pos (by simpa using hsizes), hbytes, ok_bind]
    exact congrArg Except.ok (Address.ofBytes_to_bytes _)
  rw [NodeIPEndpoint.interpretRLP, hv, ok_bind, haddress, ok_bind, hudp, ok_bind, htcp, ok_bind,
    hport, hport, UInt16.ofNat_toNat, UInt16.ofNat_toNat]
  rfl

end Lists

theorem Address.is_v4_iff {a : Address} : a.is_v4 = true ↔ a.to_bytes.length = 4 := by
  cases a with
  | v4 bytes size => exact iff_of_true rfl size
  | v6 bytes size =>
    have hne : bytes.length ≠ 4 := by omega
    exact iff_of_false Bool.false_ne_true hne

theorem ofNat_word (n : ℕ) : UInt32.ofNat (n % 2 ^ 32) = UInt32.ofNat n := by
  apply UInt32.toNat_inj.mp
  simp

/-- A peer as it is read again: its times are whole seconds. -/
def Peer.reloaded (p : Peer) : Peer := {p with
  m_lastConnected := toUnsigned (secondsOf p.m_lastConnected) * 10 ^ 9
  m_lastAttempted := toUnsigned (secondsOf p.m_lastAttempted) * 10 ^ 9}

theorem toUnsigned_word (x : ℤ) : toUnsigned x % 2 ^ 32 = toUnsigned x := by
  unfold toUnsigned
  omega

theorem readPeer_eq {r : RLPView} {p : Peer} (h : Lists r (recordItems p.toNode p.numbers)) :
    readPeer p.toNode p.peerType r = .ok p.reloaded := by
  have hconnected := h.wordAt_eq (i := 5) rfl
  have hattempted := h.wordAt_eq (i := 6) rfl
  have hfailed := h.wordAt_eq (i := 7) rfl
  have hdisconnect := h.wordAt_eq (i := 8) rfl
  have hscore := h.wordAt_eq (i := 9) rfl
  have hrating := h.wordAt_eq (i := 10) rfl
  rw [readPeer, hconnected, ok_bind, hattempted, ok_bind, hfailed, ok_bind, hdisconnect, ok_bind,
    hscore, ok_bind, hrating, ok_bind, ofNat_word, ofNat_word, ofNat_word, ofNat_word,
    toUnsigned_word, toUnsigned_word]
  simp only [UInt32.ofNat_toNat]
  rfl

namespace NetworkHost
variable [Sha3] {h : NetworkHost} {m : Moment} {r : RLPView}

/-- What the record of an entry does. -/
def putEntry (m : Moment) (e : NodeEntry) (h : NetworkHost) : Option NetworkHost :=
  if e.node.endpoint.address.is_v4 && h.isAllowedEndpoint e.node.endpoint then
    h.addKnownNodeToNodeTable m e.node (.ofNat e.lastPongReceivedTime) (.ofNat e.lastPongSentTime)
  else some h

/-- What the record of a peer does. -/
def putPeer (m : Moment) (p : Peer) (h : NetworkHost) : NetworkHost :=
  if !h.isAllowedEndpoint p.endpoint && p.peerType = .Optional then h
  else
    let h := {h with m_peers := h.m_peers.set p.id p.reloaded}
    if p.peerType = .Required then h.requirePeer m p.toNode else h.addNodeToNodeTable m p.toNode

/-- The part of `restoreRecord` that does not depend on the kind of the record. -/
theorem restoreRecord_eq {n : Node} {numbers : List ℕ} (hl : Lists r (recordItems n numbers)) :
    h.restoreRecord m r =
      if n.endpoint.address.is_v4 then
        if numbers.length = 2 ∧ h.isAllowedEndpoint n.endpoint = true then h.restoreEntry m n r
        else if numbers.length = 7 then h.restorePeer m n r
        else .ok h
      else .ok h := by
  obtain ⟨v, hv, hc, off, len, hs⟩ := hl.item_eq (i := 0) rfl
  have hle := n.endpoint.address.length_to_bytes_le
  obtain ⟨hitems, hsize, -⟩ := string_eq hs hc (by omega)
  obtain ⟨w, hw, hwc, off', len', hws⟩ := hl.item_eq (i := 3) rfl
  obtain ⟨hd, hdrop⟩ := hws.of_appendData hwc (by rw [n.id.size]; norm_num)
  have hid : w.toHash 64 Strict = .ok n.id.bytes := toHash_encode hws hd hdrop n.id.size Strict
  have hcount : itemCount r.enough r = .ok (numbers.length + 4) := by
    rw [hl.itemCount_eq]
    simp [recordItems, endpointItems]
  have hnode : (⟨.ofBytes n.id.bytes, n.endpoint⟩ : Node) = n := by rw [NodeID.ofBytes_bytes]
  unfold restoreRecord
  rw [hv, mapError_ok, ok_bind, hitems, mapError_ok, ok_bind, hsize, mapError_ok, ok_bind]
  by_cases h4 : n.endpoint.address.is_v4 = true
  · rw [if_pos h4, if_neg (by simp [Address.is_v4_iff.mp h4]), hw, ok_bind, hid, mapError_ok,
      ok_bind, hl.interpretRLP_eq, mapError_ok, ok_bind, hcount, mapError_ok, ok_bind, hnode]
    simp
    rfl
  · have hne : n.endpoint.address.to_bytes.length ≠ 4 := fun hlen => h4 (Address.is_v4_iff.mpr hlen)
    rw [if_neg h4, if_pos (by simp [hne])]
    rfl

theorem restoreRecord_entry {e : NodeEntry} (hl : Lists r (recordItems e.node e.numbers)) :
    h.restoreRecord m r = match h.putEntry m e with
      | none => .error .undefined
      | some h => .ok h := by
  rw [restoreRecord_eq hl]
  by_cases h4 : e.node.endpoint.address.is_v4 = true
  · by_cases ha : h.isAllowedEndpoint e.node.endpoint = true
    · have hreceived := hl.wordAt_eq (i := 4) rfl
      have hsent := hl.wordAt_eq (i := 5) rfl
      have hput : h.putEntry m e = h.addKnownNodeToNodeTable m e.node
          (.ofNat e.lastPongReceivedTime) (.ofNat e.lastPongSentTime) := if_pos (by simp [h4, ha])
      rewrite [if_pos h4, if_pos ⟨rfl, ha⟩, hput, restoreEntry, hreceived, mapError_ok, ok_bind,
        hsent, mapError_ok, ok_bind, ofNat_word, ofNat_word]
      cases h.addKnownNodeToNodeTable m e.node _ _ <;> rfl
    · have hput : h.putEntry m e = some h := if_neg (by simp [ha])
      rw [if_pos h4, if_neg (fun hand => ha hand.2), if_neg (by simp [NodeEntry.numbers]), hput]
  · have hput : h.putEntry m e = some h := if_neg (by simp [h4])
    rw [if_neg h4, hput]

theorem restoreRecord_peer {p : Peer} (h4 : p.endpoint.address.is_v4 = true)
    (hl : Lists r (recordItems p.toNode p.numbers)) :
    h.restoreRecord m r = .ok (h.putPeer m p) := by
  have hrequired : numberAt 1 r 4 = .ok (if p.peerType = .Required then 1 else 0) := by
    have hfield : (recordItems p.toNode p.numbers)[4]? =
        some (wordItem (if p.peerType = .Required then 1 else 0)) := rfl
    apply hl.numberAt_eq _ _ (by norm_num)
    · rw [hfield]
      cases p.peerType <;> rfl
    · cases p.peerType <;> decide
  have htype : (if (if p.peerType = .Required then 1 else 0) ≠ 0 then PeerType.Required
      else .Optional) = p.peerType := by
    cases p.peerType <;> rfl
  rw [restoreRecord_eq hl, if_pos h4, if_neg (by simp [Peer.numbers]),
    if_pos (by simp [Peer.numbers]), restorePeer, hrequired, mapError_ok, ok_bind, putPeer]
  dsimp only
  rw [htype]
  split
  · rfl
  · rw [readPeer_eq hl, mapError_ok, ok_bind]
    rfl

end NetworkHost

/-! ### The configuration, read again -/

namespace NetworkHost
variable {h f : NetworkHost} {now : ℤ} {m : Moment}

/-- The configuration is small enough for its header. -/
theorem length_savedItems_lt (hshort : h.ShortRecord)
    (hfew : h.nodeTableEntries.length + (h.peers now).length < 2 ^ 31) :
    (h.savedItems now).flatten.length < 2 ^ 64 - 1 - 0x100 := by
  have hlen := @length_records_le h now
  have hkey := length_keyItems_le hshort
  have hkeyItem : h.keyItem.length ≤
      [appendData h.m_alias.bytes, h.recordItem].flatten.length + 9 :=
    length_appendList_le (by omega)
  have hlist := length_appendList_le (p := (h.records now).flatten) (by omega)
  have hversion := length_wordItem_le c_protocolVersion
  simp only [savedItems, List.flatten_cons, List.flatten_nil, List.append_nil, List.length_append]
  omega

theorem isItem_of_mem_savedItems (hshort : h.ShortRecord)
    (hfew : h.nodeTableEntries.length + (h.peers now).length < 2 ^ 31) {x : Bytes}
    (hx : x ∈ h.savedItems now) : IsItem x := by
  have hlen := @length_records_le h now
  have hkey := length_keyItems_le hshort
  simp only [savedItems, List.mem_cons, List.not_mem_nil, or_false] at hx
  rcases hx with rfl | rfl | rfl
  · exact isItem_wordItem _
  · exact isItem_appendList (by omega)
  · exact isItem_appendList (by omega)

/-- The saved bytes are a list of three items. -/
theorem lists_saved (hshort : h.ShortRecord)
    (hfew : h.nodeTableEntries.length + (h.peers now).length < 2 ^ 31) :
    ∃ r, RLPView.construct (ofBytes (Devcore.appendList (h.savedItems now).flatten)) VeryStrict =
      .ok r ∧ Lists r (h.savedItems now) := by
  have hlen := length_savedItems_lt hshort hfew
  obtain ⟨off, len, hs, -⟩ := single_appendList hlen
  refine ⟨_, construct_of_single hs, ?_⟩
  exact .of_content hs (content_ofBytes _) hlen fun x hx => isItem_of_mem_savedItems hshort hfew hx

/-- The nodes that are read are the records that were written. -/
theorem savedNodes_eq (hshort : h.ShortRecord)
    (hfew : h.nodeTableEntries.length + (h.peers now).length < 2 ^ 31) :
    ∃ nodes, savedNodes (Devcore.appendList (h.savedItems now).flatten) = .ok nodes ∧
      nodes.map RLPView.content = h.records now ∧ ∀ v ∈ nodes, ∃ off len, v.Single off len := by
  have hlen := @length_records_le h now
  obtain ⟨r, hr, hl⟩ := lists_saved hshort hfew
  obtain ⟨version, hversion, hc, -⟩ := hl.item_eq (i := 0) rfl
  obtain ⟨list, hlist, hlc, off, len, hls⟩ := hl.item_eq (i := 2) rfl
  have hrecords : Lists list (h.records now) :=
    .of_content hls hlc (by omega) fun x hx => isItem_of_mem_records hx
  obtain ⟨nodes, hnodes, hmap, hall⟩ := hrecords.elements_eq
  have hnumber : numberAt 4 r 0 = .ok (c_protocolVersion % 2 ^ 32) := hl.wordAt_eq rfl
  have hint : isInt version.content = .ok true := by
    rw [hc]
    decide
  refine ⟨nodes, ?_, hmap, hall⟩
  rw [savedNodes, hr, ok_bind, hnumber, ok_bind, hl.itemCount_eq, ok_bind, hversion, ok_bind, hint,
    ok_bind, if_pos (by simp [savedItems, c_protocolVersion]), hlist, ok_bind, hnodes]

/-- The nodes of a configuration, one after another. -/
def putNodes [Sha3] (m : Moment) (entries : List NodeEntry) (peers : List Peer) (f : NetworkHost) :
    Option NetworkHost :=
  (entries.foldlM (fun (f : NetworkHost) e => f.putEntry m e) f).map fun f =>
    peers.foldl (fun f p => f.putPeer m p) f

theorem lists_encodeRecord {v : RLPView} {off len : ℕ} (hs : v.Single off len) {n : Node}
    {numbers : List ℕ} (hnumbers : numbers.length ≤ 7) (hc : v.content = encodeRecord n numbers) :
    Lists v (recordItems n numbers) := by
  have hlen := length_recordItems_le n numbers
  exact .of_content hs hc (by omega) fun x hx => isItem_of_mem_recordItems hx

theorem foldlM_entries [Sha3] {entries : List NodeEntry} {nodes : List RLPView}
    (hmap : nodes.map RLPView.content = entries.map fun e => encodeRecord e.node e.numbers)
    (hall : ∀ v ∈ nodes, ∃ off len, v.Single off len) :
    nodes.foldlM (fun f v => f.restoreRecord m v) f =
      match entries.foldlM (fun f e => f.putEntry m e) f with
      | none => .error .undefined
      | some f => .ok f := by
  induction entries generalizing nodes f with
  | nil =>
    rw [List.map_eq_nil_iff.mp hmap]
    rfl
  | cons e entries ih =>
    rw [List.map_cons] at hmap
    obtain ⟨v, nodes, rfl, hv, hmap⟩ := List.map_eq_cons_iff.mp hmap
    obtain ⟨off, len, hs⟩ := hall v List.mem_cons_self
    have hl := lists_encodeRecord hs (by simp [NodeEntry.numbers]) hv
    rw [List.foldlM_cons, List.foldlM_cons, restoreRecord_entry hl]
    cases hput : f.putEntry m e with
    | none => rfl
    | some f => exact ih hmap fun w hw => hall w (List.mem_cons_of_mem v hw)

theorem foldlM_peers [Sha3] {peers : List Peer} {nodes : List RLPView}
    (hmap : nodes.map RLPView.content = peers.map fun p => encodeRecord p.toNode p.numbers)
    (hall : ∀ v ∈ nodes, ∃ off len, v.Single off len)
    (h4 : ∀ p ∈ peers, p.endpoint.address.is_v4 = true) :
    nodes.foldlM (fun f v => f.restoreRecord m v) f =
      .ok (peers.foldl (fun f p => f.putPeer m p) f) := by
  induction peers generalizing nodes f with
  | nil =>
    rw [List.map_eq_nil_iff.mp hmap]
    rfl
  | cons p peers ih =>
    rw [List.map_cons] at hmap
    obtain ⟨v, nodes, rfl, hv, hmap⟩ := List.map_eq_cons_iff.mp hmap
    obtain ⟨off, len, hs⟩ := hall v List.mem_cons_self
    have hl := lists_encodeRecord hs (by simp [Peer.numbers]) hv
    rw [List.foldlM_cons, restoreRecord_peer (h4 p List.mem_cons_self) hl, ok_bind]
    exact ih hmap (fun w hw => hall w (List.mem_cons_of_mem v hw))
      fun q hq => h4 q (List.mem_cons_of_mem p hq)

/-- Restoring what was saved is putting the saved nodes into the host. -/
theorem restoreNetwork_eq [Sha3] (hshort : h.ShortRecord)
    (hfew : h.nodeTableEntries.length + (h.peers now).length < 2 ^ 31)
    (hstarted : f.isStarted = true) :
    f.restoreNetwork m (Devcore.appendList (h.savedItems now).flatten) =
      match f.putNodes m h.nodeTableEntries (h.peers now) with
      | none => .error .undefined
      | some f => .ok f := by
  obtain ⟨nodes, hnodes, hmap, hall⟩ := @savedNodes_eq h now hshort hfew
  obtain ⟨entries, peers, rfl, hentries, hpeers⟩ := List.map_eq_append_iff.mp hmap
  have hne : Devcore.appendList (h.savedItems now).flatten ≠ [] := by
    have hlen := @length_savedItems_lt h now hshort hfew
    have hlist := isList_appendList (p := (h.savedItems now).flatten) (by omega)
    intro hnil
    rw [hnil] at hlist
    cases hlist
  have h4 : ∀ p ∈ h.peers now, p.endpoint.address.is_v4 = true := by
    intro p hp
    have hsaved := (List.mem_filter.mp hp).2
    simp only [saves, Bool.and_eq_true] at hsaved
    exact hsaved.1.1.1.1
  rw [restoreNetwork, if_neg hne, hstarted, if_neg (by simp), hnodes, mapError_ok, ok_bind,
    List.foldlM_append,
    foldlM_entries hentries fun v hv => hall v (List.mem_append_left _ hv), putNodes]
  cases hput : h.nodeTableEntries.foldlM (fun f e => f.putEntry m e) f with
  | none => rfl
  | some f =>
    exact foldlM_peers hpeers (fun v hv => hall v (List.mem_append_right _ hv)) h4

end NetworkHost

/-! ### The key and the record, read again -/

section RestoreENR
variable {h : NetworkHost} {now : ℤ}

theorem parse_of_reads {verify : VerifyFunction} {v : RLPView} {off len : ℕ} (hs : v.Single off len)
    {sig : Bytes} {seq : UInt64} {kvs : List (Bytes × Bytes)} (hreads : Reads v.content sig seq kvs)
    (hsize : v.content.length ≤ c_ENRMaxSizeBytes) :
    ENR.parse v verify = ENR.check verify sig seq kvs := by
  have hcount : v.m_data.m_count ≤ c_ENRMaxSizeBytes := hs.points.length_content.symm.trans_le hsize
  rw [ENR.parse, if_neg (not_lt.mpr hcount), (ENR.readItems_iff hs).mpr hreads]
  rfl

/-- The record with the number that is written. -/
def ENR.cut (e : ENR) : ENR := {e with m_seq := .ofNat (e.m_seq.toNat % 2 ^ 32)}

theorem ENR.cut_eq_iff {e : ENR} : e.cut = e ↔ e.m_seq.toNat < 2 ^ 32 := by
  have hlt := e.m_seq.toNat_lt
  have hmod := Nat.mod_lt e.m_seq.toNat (show 2 ^ 32 > 0 by norm_num)
  have hnat : (UInt64.ofNat (e.m_seq.toNat % 2 ^ 32)).toNat = e.m_seq.toNat % 2 ^ 32 :=
    UInt64.toNat_ofNat_of_lt (hmod.trans (by norm_num))
  constructor
  · intro h
    have hseq := congrArg (fun e => e.m_seq.toNat) h
    rw [ENR.cut, hnat] at hseq
    omega
  · intro h
    rw [ENR.cut, Nat.mod_eq_of_lt h, UInt64.ofNat_toNat]

theorem readKeyAndRecord_eq (hshort : h.ShortRecord) {r : RLPView}
    (hl : Lists r (h.savedItems now)) : ∃ v off len, v.Single off len ∧ v.content = h.recordItem ∧
      readKeyAndRecord r = .ok (some (h.m_alias, some v)) := by
  have hlen := NetworkHost.length_keyItems_le hshort
  have hrecord := NetworkHost.length_recordItem_le hshort
  obtain ⟨version, hversion, hc, offv, lenv, hsv⟩ := hl.item_eq (i := 0) rfl
  obtain ⟨key, hkey, hkc, off, len, hks⟩ := hl.item_eq (i := 1) rfl
  have hkeys : Lists key [appendData h.m_alias.bytes, h.recordItem] := by
    apply Lists.of_content hks hkc (by omega)
    intro x hx
    simp only [List.mem_cons, List.not_mem_nil, or_false] at hx
    rcases hx with rfl | rfl
    · exact isItem_appendData (by rw [h.m_alias.size]; norm_num)
    · exact isItem_appendList (lt_of_le_of_lt hshort (by norm_num))
  obtain ⟨secret, hsecret, hsc, offs, lens, hss⟩ := hkeys.item_eq (i := 0) rfl
  obtain ⟨record, hrec, hrc, offr, lenr, hrs⟩ := hkeys.item_eq (i := 1) rfl
  obtain ⟨-, -, hbytes⟩ := string_eq hss hsc (by rw [h.m_alias.size]; norm_num)
  have hint : isInt version.content = .ok true := by
    rw [hc]
    decide
  have hnumber : version.toIntOf 4 Strict = .ok 4 := by
    have hat : numberAt 4 r 0 = .ok (c_protocolVersion % 2 ^ 32) := hl.wordAt_eq rfl
    rw [numberAt, hversion, ok_bind] at hat
    exact hat
  have hlist : isList key.content = true := by
    obtain ⟨-, -, -, hlist, -⟩ := hkeys
    exact hlist
  refine ⟨record, offr, lenr, hrs, hrc, ?_⟩
  rw [readKeyAndRecord, hl.itemCount_eq, ok_bind, if_neg (by simp [NetworkHost.savedItems]),
    hversion, ok_bind, hint, ok_bind, if_neg (by simp), hnumber, ok_bind, if_neg (by norm_num),
    hkey, ok_bind, if_pos hlist, hsecret, ok_bind, hbytes, ok_bind, hrec, ok_bind,
    H256.ofBytes_bytes]
  rfl

variable [Sha3] [Ecdsa H256]

/-- The record was created with the host's key. -/
def NetworkHost.OwnsRecord (h : NetworkHost) : Prop :=
  ∃ ip tcpPort udpPort m,
    IdentitySchemeV4.createKeyValuePairs h.m_alias ip tcpPort udpPort = .ok m ∧
    ENR.create h.enr.m_seq m (fun data => IdentitySchemeV4.sign data h.m_alias) = .ok h.enr

open IdentitySchemeV4 in
theorem ownsRecord_eq (hown : h.OwnsRecord) : ∃ m,
    Identified (Ecdsa.toPublicCompressed h.m_alias).1 m ∧ h.enr.m_keyValuePairs = m ∧
      h.enr.m_signature = sign (Devcore.appendList
        (ENR.wire (h.enr.m_seq.toNat % 2 ^ 32) m.entries).flatten) h.m_alias := by
  obtain ⟨ip, tcpPort, udpPort, m, hm, hcreate⟩ := hown
  obtain ⟨m', hm', hid⟩ := createKeyValuePairs_ok h.m_alias ip tcpPort udpPort
  cases hm.symm.trans hm'
  have hmod : h.enr.m_seq.toNat % 2 ^ 32 < 2 ^ 32 := Nat.mod_lt _ (by norm_num)
  have hlen := length_payload_le hid.short (length_sign h.m_alias []) hmod
  have hcontent : (⟨h.enr.m_seq, m, []⟩ : ENR).content =
      .ok (Devcore.appendList (ENR.wire (h.enr.m_seq.toNat % 2 ^ 32) m.entries).flatten) := by
    apply ENR.content_eq
    rw [List.flatten_cons, List.length_append] at hlen
    show (ENR.wire (h.enr.m_seq.toNat % 2 ^ 32) m.entries).flatten.length < 2 ^ 64
    omega
  rw [ENR.create, hcontent, ok_bind] at hcreate
  have henr := Except.ok.inj hcreate
  refine ⟨m, hid, ?_, ?_⟩
  · rw [← henr]
  · conv_lhs => rw [← henr]

theorem shortRecord_of_owns (hown : h.OwnsRecord) : h.ShortRecord := by
  obtain ⟨m, hid, hm, hsig⟩ := ownsRecord_eq hown
  have hmod : h.enr.m_seq.toNat % 2 ^ 32 < 2 ^ 32 := Nat.mod_lt _ (by norm_num)
  rw [NetworkHost.ShortRecord, ENR.contentItems, hm, hsig]
  exact IdentitySchemeV4.length_payload_le hid.short (IdentitySchemeV4.length_sign _ _) hmod

open IdentitySchemeV4 in
/-- The record is parsed as it was written. -/
theorem parseENR_eq (hown : h.OwnsRecord) (hsign : SignsWell h.m_alias) {v : RLPView} {off len : ℕ}
    (hs : v.Single off len) (hc : v.content = h.recordItem) :
    parseENR H256 v = some (.ok h.enr.cut) := by
  obtain ⟨m, hid, hm, hsig⟩ := ownsRecord_eq hown
  have hshort := shortRecord_of_owns hown
  have hsize := NetworkHost.length_recordItem_le hshort
  have hmod : h.enr.m_seq.toNat % 2 ^ 32 < 2 ^ 32 := Nat.mod_lt _ (by norm_num)
  have hcut : h.enr.cut.m_seq.toNat = h.enr.m_seq.toNat % 2 ^ 32 :=
    UInt64.toNat_ofNat_of_lt (hmod.trans (by norm_num))
  have hcutcut : h.enr.cut.m_seq.toNat % 2 ^ 32 = h.enr.m_seq.toNat % 2 ^ 32 := by
    rw [hcut, Nat.mod_mod]
  have hvalues : ∀ kv ∈ m.entries, IsItem kv.2 := by
    intro kv hkv
    obtain ⟨s, hs, hslen⟩ := hid.short.value kv hkv
    rw [hs]
    exact isItem_appendData (by omega)
  have hreads : Reads v.content h.enr.m_signature h.enr.cut.m_seq m.entries := by
    have hitems : h.enr.contentItems = ENR.wire h.enr.cut.m_seq.toNat m.entries := by
      rw [ENR.contentItems, hm, hcut]
    rw [hc, NetworkHost.recordItem, hitems]
    rw [NetworkHost.ShortRecord, hitems] at hshort
    exact reads_of_wire hvalues (by omega)
  have hsizev : v.content.length ≤ c_ENRMaxSizeBytes := hc ▸ hsize
  have hverify : verify H256 m h.enr.m_signature
      (Devcore.appendList (ENR.wire (h.enr.m_seq.toNat % 2 ^ 32) m.entries).flatten) =
        .ok true := by
    rw [hsig, verify_eq hid (Ecdsa.toPublicCompressed h.m_alias).2 (length_sign _ _)]
    exact congrArg Except.ok (hsign _)
  rw [parseENR, parse_of_reads hs hreads hsizev, ENR.check_ascending m.sorted
    (ENR.length_wire hreads hsizev), hcutcut]
  show some (verify H256 m h.enr.m_signature _ >>= _) = _
  rw [hverify, ok_bind, if_pos rfl, ← hm]
  rfl

/-- The key comes back, and the record with its number cut to 32 bits. -/
theorem restoreENR_eq (hown : h.OwnsRecord) (hsign : IdentitySchemeV4.SignsWell h.m_alias)
    (hfew : h.nodeTableEntries.length + (h.peers now).length < 2 ^ 31) (created : H256)
    (address : Address) (listenPort : UInt16) :
    restoreENR created address listenPort (Devcore.appendList (h.savedItems now).flatten) =
      .ok (h.m_alias, h.enr.cut) := by
  have hshort := shortRecord_of_owns hown
  obtain ⟨r, hr, hl⟩ := NetworkHost.lists_saved hshort hfew
  obtain ⟨v, off, len, hs, hc, hread⟩ := readKeyAndRecord_eq hshort hl
  rw [restoreENR, hr, mapError_ok, ok_bind, hread, mapError_ok, ok_bind]
  dsimp only
  rw [parseENR_eq hown hsign hs hc]
  rfl

end RestoreENR

end Aleth.P2p
