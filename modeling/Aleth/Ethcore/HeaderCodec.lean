import Aleth.Ethcore.BlockHeader

/-! When a header is written as it was read.

The twelve fields up to the timestamp leave one way to write them, and what
`populate` reads the payload begins with (`Populated.begins`). What is left are
the extra data and the seal. -/
namespace Aleth.Ethcore
open Devcore
open RLPView BytesConstRef RLPStream

/-! ### Conversions -/

theorem alignRight_bytes {b : Bytes} (h : b.length = 32) : (H256.alignRight b).bytes = b := by
  unfold H256.alignRight
  simp only [h, Nat.sub_self, List.replicate_zero, List.nil_append]
  exact List.take_of_length_le h.le

theorem addressBytes_addressOf {b : Bytes} (h : b.length = 20) :
    addressBytes (addressOf b) = b := by
  have hlt := fromBigEndian_lt b
  rw [h] at hlt
  unfold addressBytes addressOf
  rw [BitVec.toNat_ofNat, Nat.mod_eq_of_lt (hlt.trans_eq (by norm_num)), ← h]
  exact toBigEndian_fromBigEndian b

theorem addressOf_addressBytes (a : Address) : addressOf (addressBytes a) = a := by
  have hlt : a.toNat < 256 ^ 20 := a.isLt.trans_eq (by norm_num)
  unfold addressBytes addressOf
  rw [fromBigEndian_toBigEndian, Nat.mod_eq_of_lt hlt, BitVec.ofNat_toNat, BitVec.setWidth_eq]

theorem converts_toH256 :
    Converts toH256 (fun h => appendData h.bytes) fun h => h.bytes.length = 32 :=
  (converts_toHash 32 (by norm_num)).map (fun _ hb => alignRight_bytes hb) H256.alignRight_bytes

theorem converts_toAddress :
    Converts toAddress (fun a => appendData (addressBytes a)) fun a => (addressBytes a).length = 20 :=
  (converts_toHash 20 (by norm_num)).map (fun _ hb => addressBytes_addressOf hb)
    addressOf_addressBytes

theorem converts_toLogBloom :
    Converts toLogBloom (fun b => appendData b.1) fun _ => True where
  null hr hok := by
    obtain ⟨b, hb, -⟩ := bind_eq_ok.mp hok
    exact (converts_toHash 256 (by norm_num)).null hr hb
  written hs hok := by
    obtain ⟨b, hb, hok⟩ := bind_eq_ok.mp hok
    obtain ⟨hw, hv⟩ := (converts_toHash 256 (by norm_num)).written hs hb
    rw [dif_pos hv] at hok
    cases hok
    exact ⟨hw, trivial⟩
  read {r off len a} hs hw _ := by
    refine bind_eq_ok.mpr ⟨_, (converts_toHash 256 (by norm_num)).read hs hw a.2, ?_⟩
    exact dif_pos a.2

theorem converts_toU256 :
    Converts toU256 (fun x => numberItem x.toNat) fun x => bytesRequired x.toNat ≤ 32 := by
  refine (converts_toIntOf 32 (by norm_num)).map (fun n hn => ?_) fun x => ?_
  · rw [BitVec.toNat_ofNat, Nat.mod_eq_of_lt ((bytesRequired_le_iff.mp hn).trans_eq (by norm_num))]
  · rw [BitVec.ofNat_toNat, BitVec.setWidth_eq]

theorem converts_toPositiveInt64 :
    Converts toPositiveInt64 (fun x => numberItem x.toNat) fun x => 0 ≤ x.toInt where
  null hr hok := by
    obtain ⟨n, hn, -⟩ := bind_eq_ok.mp hok
    exact (converts_toIntOf 8 (by norm_num)).null hr hn
  written {r off len a} hs hok := by
    obtain ⟨n, hn, hok⟩ := bind_eq_ok.mp hok
    obtain ⟨hw, hv⟩ := (converts_toIntOf 8 (by norm_num)).written hs hn
    have hlt : n < 2 ^ 64 := (bytesRequired_le_iff.mp hv).trans_eq (by norm_num)
    by_cases h0 : (BitVec.ofNat 64 n).toInt < 0
    · rw [if_pos h0] at hok
      cases hok
    · rw [if_neg h0] at hok
      cases hok
      refine ⟨?_, not_lt.mp h0⟩
      rw [hw, BitVec.toNat_ofNat, Nat.mod_eq_of_lt hlt]
  read {r off len a} hs hw hv := by
    have ha : bytesRequired a.toNat ≤ 8 := bytesRequired_le (a.isLt.trans_eq (by norm_num))
    refine bind_eq_ok.mpr ⟨_, (converts_toIntOf 8 (by norm_num)).read hs hw ha, ?_⟩
    rw [BitVec.ofNat_toNat, BitVec.setWidth_eq]
    exact if_neg (not_lt.mpr hv)

namespace BlockHeader
variable {h h' : BlockHeader} {header : RLPView} {off len : ℕ} {b : Bytes}

/-! ### Reading and writing by items -/

/-- What a call of `populate` that throws nothing has read. -/
structure Populated (header : RLPView) (h : BlockHeader) : Prop where
  parentHash : (item header 0 >>= toH256) = .ok h.m_parentHash
  sha3Uncles : (item header 1 >>= toH256) = .ok h.m_sha3Uncles
  author : (item header 2 >>= toAddress) = .ok h.m_author
  stateRoot : (item header 3 >>= toH256) = .ok h.m_stateRoot
  transactionsRoot : (item header 4 >>= toH256) = .ok h.m_transactionsRoot
  receiptsRoot : (item header 5 >>= toH256) = .ok h.m_receiptsRoot
  logBloom : (item header 6 >>= toLogBloom) = .ok h.m_logBloom
  difficulty : (item header 7 >>= toU256) = .ok h.m_difficulty
  number : (item header 8 >>= toPositiveInt64) = .ok h.m_number
  gasLimit : (item header 9 >>= toU256) = .ok h.m_gasLimit
  gasUsed : (item header 10 >>= toU256) = .ok h.m_gasUsed
  timestamp : (item header 11 >>= toPositiveInt64) = .ok h.m_timestamp
  extraData : (item header 12 >>= fun v => v.toBytes LaissezFaire) = .ok h.m_extraData
  sealed : sealItems header = .ok h.m_seal

theorem field_eq_ok {α : Type} {i : ℕ} {convert : RLPView → Except RLPException α} {a : α} :
    field header i convert = .ok a ↔ (item header i >>= convert) = .ok a := mapError_eq_ok

theorem reporting_eq_ok {α : Type} {i : ℕ} {x : Except RLPException α} {a : α} :
    reporting header i x = .ok a ↔ x = .ok a := mapError_eq_ok

theorem populate_eq_ok :
    populate header h = .ok h' ↔
      Populated header h' ∧ h'.m_hash = h.m_hash ∧ h'.m_hashWithout = h.m_hashWithout := by
  unfold populate
  simp only [bind_eq_ok]
  simp only [field_eq_ok, reporting_eq_ok]
  constructor
  · rintro ⟨a, h0, b, h1, c, h2, d, h3, e, h4, f, h5, g, h6, i, h7, j, h8, k, h9, l, h10, m, h11,
      n, h12, o, h13, he⟩
    cases he
    exact ⟨⟨h0, h1, h2, h3, h4, h5, h6, h7, h8, h9, h10, h11, h12, h13⟩, rfl, rfl⟩
  · rintro ⟨hp, hhash, hwithout⟩
    refine ⟨_, hp.parentHash, _, hp.sha3Uncles, _, hp.author, _, hp.stateRoot, _,
      hp.transactionsRoot, _, hp.receiptsRoot, _, hp.logBloom, _, hp.difficulty, _, hp.number, _,
      hp.gasLimit, _, hp.gasUsed, _, hp.timestamp, _, hp.extraData, _, hp.sealed, ?_⟩
    rw [← hhash, ← hwithout]
    rfl

/-- The fields up to the timestamp, with `f` applied to the signed numbers. -/
def strictItems (f : ℕ → ℕ) (h : BlockHeader) : List Bytes :=
  [appendData h.m_parentHash.bytes, appendData h.m_sha3Uncles.bytes,
    appendData (addressBytes h.m_author), appendData h.m_stateRoot.bytes,
    appendData h.m_transactionsRoot.bytes, appendData h.m_receiptsRoot.bytes,
    appendData h.m_logBloom.1, numberItem h.m_difficulty.toNat, numberItem (f h.m_number.toNat),
    numberItem h.m_gasLimit.toNat, numberItem h.m_gasUsed.toNat, numberItem (f h.m_timestamp.toNat)]

theorem strictItems_congr {f g : ℕ → ℕ} (hn : f h.m_number.toNat = g h.m_number.toNat)
    (ht : f h.m_timestamp.toNat = g h.m_timestamp.toNat) : h.strictItems f = h.strictItems g := by
  unfold strictItems
  rw [hn, ht]

/-- The payload begins with the fields that were read, each written in full. -/
theorem Populated.begins (hp : Populated header h) (hs : header.Single off len) :
    0 ≤ h.m_number.toInt ∧ 0 ≤ h.m_timestamp.toInt ∧
      ∃ rest, Begins (header.content.drop off) (h.strictItems id) rest := by
  obtain ⟨-, r0, -, b0⟩ := hs.field_ok converts_toH256 hp.parentHash (.nil _) rfl
  obtain ⟨-, r1, -, b1⟩ := hs.field_ok converts_toH256 hp.sha3Uncles b0 rfl
  obtain ⟨-, r2, -, b2⟩ := hs.field_ok converts_toAddress hp.author b1 rfl
  obtain ⟨-, r3, -, b3⟩ := hs.field_ok converts_toH256 hp.stateRoot b2 rfl
  obtain ⟨-, r4, -, b4⟩ := hs.field_ok converts_toH256 hp.transactionsRoot b3 rfl
  obtain ⟨-, r5, -, b5⟩ := hs.field_ok converts_toH256 hp.receiptsRoot b4 rfl
  obtain ⟨-, r6, -, b6⟩ := hs.field_ok converts_toLogBloom hp.logBloom b5 rfl
  obtain ⟨-, r7, -, b7⟩ := hs.field_ok converts_toU256 hp.difficulty b6 rfl
  obtain ⟨hn, r8, -, b8⟩ := hs.field_ok converts_toPositiveInt64 hp.number b7 rfl
  obtain ⟨-, r9, -, b9⟩ := hs.field_ok converts_toU256 hp.gasLimit b8 rfl
  obtain ⟨-, r10, -, b10⟩ := hs.field_ok converts_toU256 hp.gasUsed b9 rfl
  obtain ⟨ht, r11, -, b11⟩ := hs.field_ok converts_toPositiveInt64 hp.timestamp b10 rfl
  exact ⟨hn, ht, r11, b11⟩

theorem mapM_items (hs : header.Single off len) {xs ys : List Bytes} {rest : Bytes}
    (hb : Begins (header.content.drop off) (xs ++ ys) rest) :
    ((List.range' xs.length ys.length).mapM fun i => do return (← item header i).content) =
      (.ok ys : Except RLPException (List Bytes)) := by
  induction ys generalizing xs with
  | nil => rfl
  | cons y ys ih =>
    have happ : xs ++ y :: ys = (xs ++ [y]) ++ ys := by simp
    rw [happ] at hb
    obtain ⟨d', hone, -⟩ := hb.split
    obtain ⟨v, hv, hvy, -⟩ := hs.item_of_begins hone
    have hrest := ih hb
    rw [List.length_append, List.length_singleton] at hrest
    rw [List.length_cons, List.range'_succ, List.mapM_cons, hv, hrest, ← hvy]
    rfl

theorem sealItems_list (hs : header.Single off len) (hl : isList header.content = true)
    {xs : List Bytes} (hb : Begins (header.content.drop off) xs []) :
    sealItems header = .ok (xs.drop BasicFields) := by
  unfold sealItems
  rw [hs.itemCount_of_begins hl hb, ok_bind]
  by_cases hle : BasicFields ≤ xs.length
  · have hsplit : xs = xs.take BasicFields ++ xs.drop BasicFields := (List.take_append_drop _ _).symm
    rw [hsplit] at hb
    have hmap := mapM_items hs hb
    rw [List.length_take_of_le hle, List.length_drop] at hmap
    exact hmap
  · rw [Nat.sub_eq_zero_of_le (by omega), List.drop_eq_nil_of_le (by omega)]
    rfl

/-- A list whose extra data is a string is nothing but the fields and the seal. -/
theorem Populated.items (hp : Populated header h) (hs : header.Single off len)
    (hl : isList header.content = true) {v : RLPView} (hv : item header 12 = .ok v)
    (hd : isData v.content = true) :
    Begins (header.content.drop off) (h.strictItems id ++ appendData h.m_extraData :: h.m_seal) [] := by
  obtain ⟨-, -, rest, hb⟩ := hp.begins hs
  have hextra := hp.extraData
  rw [hv, ok_bind] at hextra
  cases hs.of_item_ok hb rfl hv with
  | inl hend =>
    rw [hend.2] at hd
    cases hd
  | inr hfound =>
    obtain ⟨rest', -, hbegins, off', len', hsv⟩ := hfound
    rw [hsv.toBytes_eq hd] at hextra
    have hw := hsv.content_eq hd
    rw [Except.ok.inj hextra] at hw
    rw [hw] at hbegins
    obtain ⟨n, hn, -⟩ := bind_eq_ok.mp hp.sealed
    obtain ⟨all, hall, -⟩ := hs.itemCount_ok hl hn
    have hle := hall.length_le_of_nil hbegins
    have htake := hbegins.prefix_of_le hall hle
    have hseal := hp.sealed
    rw [sealItems_list hs hl hall] at hseal
    have hsplit := List.take_append_drop BasicFields all
    rw [Except.ok.inj hseal] at hsplit
    rw [← hsplit, show all.take BasicFields = _ from htake, List.append_assoc] at hall
    exact hall

/-! ### Writing -/

/-- What is written: the signed numbers lose what is above 32 bits. -/
def writtenItems (h : BlockHeader) : List Bytes :=
  h.strictItems (· % 2 ^ 32) ++ appendData h.m_extraData :: h.m_seal

/-- The calls of `streamRLP` behind `appendList`. -/
def writers (h : BlockHeader) : List (RLPStream → Except RLPException RLPStream) :=
  h.fieldCalls ++ h.m_seal.map fun x => appendRaw x 1

theorem length_writers (h : BlockHeader) : h.writers.length = BasicFields + h.m_seal.length := by
  rw [writers, List.length_append, List.length_map]
  rfl

theorem rlp_withSeal (h : BlockHeader) :
    h.rlp .withSeal =
      ((RLPStream.appendList h.writers.length RLPStream.empty >>= calls h.writers) >>= out) := by
  rw [length_writers]
  unfold rlp streamRLP
  rw [if_pos (by decide), if_neg (by decide)]
  show ((RLPStream.appendList (BasicFields + h.m_seal.length) RLPStream.empty >>= fun s =>
    h.streamRLPFields s >>= fun s => ite _ _ _) >>= out) = _
  cases RLPStream.appendList (BasicFields + h.m_seal.length) RLPStream.empty with
  | error e => rfl
  | ok s =>
    rw [ok_bind, ok_bind, writers, calls_append]
    rfl

theorem writes_u256 (x : U256) : Writes (appendInt x.toNat) (numberItem x.toNat) := by
  refine writes_appendInt ((bytesRequired_le (k := 32) ?_).trans_lt (by norm_num))
  exact x.isLt.trans_eq (by norm_num)

theorem writes_unsigned (x : I64) :
    Writes (appendUnsigned x.toNat) (numberItem (x.toNat % 2 ^ 32)) := by
  refine writes_appendInt ((bytesRequired_le (k := 4) ?_).trans_lt (by norm_num))
  exact (Nat.mod_lt _ (by norm_num)).trans_eq (by norm_num)

theorem writes_h256 (x : H256) : Writes (append x.bytes false) (appendData x.bytes) :=
  writes_append (x.size ▸ by norm_num)

theorem writes_address (a : Address) :
    Writes (append (addressBytes a) false) (appendData (addressBytes a)) := by
  refine writes_append ?_
  rw [addressBytes, toBigEndian_length]
  norm_num

theorem writes_raw (xs : List Bytes) :
    List.Forall₂ Writes (xs.map fun x => appendRaw x 1) xs := by
  induction xs with
  | nil => exact .nil
  | cons x xs ih => exact .cons (writes_appendRaw x) ih

/-- The calls in front of that for the extra data. -/
theorem writes_fields (h : BlockHeader) :
    List.Forall₂ Writes (h.fieldCalls.take 12) (h.strictItems (· % 2 ^ 32)) := by
  have hbloom : h.m_logBloom.1.length < 2 ^ 64 := by
    rw [h.m_logBloom.2]
    norm_num
  exact .cons (writes_h256 _) (.cons (writes_h256 _) (.cons (writes_address _)
    (.cons (writes_h256 _) (.cons (writes_h256 _) (.cons (writes_h256 _)
    (.cons (writes_append hbloom) (.cons (writes_u256 _) (.cons (writes_unsigned _)
    (.cons (writes_u256 _) (.cons (writes_u256 _) (.cons (writes_unsigned _) .nil)))))))))))

/-- What `streamRLP` gives, unless a size is too large for it. -/
theorem rlp_eq_ok :
    h.rlp .withSeal = .ok b ↔
      h.writtenItems.flatten.length < 2 ^ 64 ∧ b = Devcore.appendList h.writtenItems.flatten := by
  rw [rlp_withSeal]
  exact calls_list_eq_ok h.writes_fields h.m_extraData (writes_raw h.m_seal)

/-- The strings of the basic fields. -/
def payloads (f : ℕ → ℕ) (h : BlockHeader) : List Bytes :=
  [h.m_parentHash.bytes, h.m_sha3Uncles.bytes, addressBytes h.m_author, h.m_stateRoot.bytes,
    h.m_transactionsRoot.bytes, h.m_receiptsRoot.bytes, h.m_logBloom.1,
    toCompactBigEndian h.m_difficulty.toNat, toCompactBigEndian (f h.m_number.toNat),
    toCompactBigEndian h.m_gasLimit.toNat, toCompactBigEndian h.m_gasUsed.toNat,
    toCompactBigEndian (f h.m_timestamp.toNat), h.m_extraData]

theorem map_payloads (f : ℕ → ℕ) (h : BlockHeader) :
    (h.payloads f).map appendData = h.strictItems f ++ [appendData h.m_extraData] := rfl

theorem writtenItems_eq (h : BlockHeader) :
    h.writtenItems = (h.payloads (· % 2 ^ 32)).map appendData ++ h.m_seal := rfl

/-- What was written begins with the basic fields. -/
theorem begins_written (hfit : h.writtenItems.flatten.length < 2 ^ 64 - 1 - 0x100) :
    Begins h.writtenItems.flatten (h.strictItems (· % 2 ^ 32) ++ [appendData h.m_extraData])
      h.m_seal.flatten := by
  rw [← map_payloads, writtenItems_eq, List.flatten_append]
  refine begins_appendData (fun s hs => ?_) _
  have hmem : appendData s ∈ h.writtenItems := by
    rw [writtenItems_eq]
    exact List.mem_append_left _ (List.mem_map_of_mem hs)
  exact ((RLP.appendData_length_le s).trans (length_le_of_mem_flatten hmem)).trans_lt hfit

/-! ### Headers that were read -/

/-- A header of which every field stands where it is expected and is written as it stands: it is a
list, the extra data are there and are a string, and the signed numbers have four bytes. -/
structure Strictly (b : Bytes) : Prop where
  list : isList b = true
  extraData : ∃ v, item ⟨ofBytes b⟩ 12 = .ok v ∧ isData v.content = true
  number : ∃ n, (item ⟨ofBytes b⟩ 8 >>= fun v => toIntOf 4 v Strict) = .ok n
  timestamp : ∃ n, (item ⟨ofBytes b⟩ 11 >>= fun v => toIntOf 4 v Strict) = .ok n

/-- The view of bytes that were taken for a header. -/
structure Read (b : Bytes) (h : BlockHeader) (off len : ℕ) : Prop where
  single : Single ⟨ofBytes b⟩ off len
  populated : Populated ⟨ofBytes b⟩ h

theorem Read.content (_ : Read b h off len) : RLPView.content ⟨ofBytes b⟩ = b := content_ofBytes b

theorem not_populated_null (h : BlockHeader) : ¬Populated ⟨ofBytes []⟩ h := fun hp => by
  have h0 := hp.parentHash
  cases h0

theorem construct_headerData [Sha3] {hashWith : H256}
    (hr : construct b .headerData hashWith = .ok h) :
    (∃ off len, Read b h off len) ∧
      h.m_hash = (if hashWith ≠ H256.zero then hashWith else sha3 b) ∧
      h.m_hashWithout = H256.zero := by
  unfold BlockHeader.construct view at hr
  obtain ⟨v, hv, hp⟩ := bind_eq_ok.mp hr
  obtain ⟨rfl, hext⟩ := construct_ok (ofBytes_points b) (mapError_eq_ok.mp hv)
  obtain ⟨hpop, hhash, hwithout⟩ := populate_eq_ok.mp hp
  rw [show RLPView.content ⟨ofBytes b⟩ = b from content_ofBytes b] at hhash
  refine ⟨?_, hhash, hwithout⟩
  cases hext with
  | inl h0 =>
    have hb : b = [] := List.length_eq_zero_iff.mp h0
    subst hb
    exact absurd hpop (not_populated_null h)
  | inr hext =>
    obtain ⟨off, len, hext, hlen⟩ := hext
    exact ⟨off, len, ⟨ofBytes_points b, hext, hlen⟩, hpop⟩

theorem construct_of_populated [Sha3] (hs : Single ⟨ofBytes b⟩ off len)
    (hp : Populated ⟨ofBytes b⟩ h) :
    BlockHeader.construct b .headerData H256.zero =
      .ok {h with m_hash := sha3 b, m_hashWithout := H256.zero} := by
  unfold BlockHeader.construct view
  refine bind_eq_ok.mpr ⟨⟨ofBytes b⟩, mapError_eq_ok.mpr (construct_of_extent hs.extent hs.size), ?_⟩
  refine populate_eq_ok.mpr ⟨⟨hp.parentHash, hp.sha3Uncles, hp.author, hp.stateRoot,
    hp.transactionsRoot, hp.receiptsRoot, hp.logBloom, hp.difficulty, hp.number, hp.gasLimit,
    hp.gasUsed, hp.timestamp, hp.extraData, hp.sealed⟩, ?_, rfl⟩
  rw [show RLPView.content ⟨ofBytes b⟩ = b from content_ofBytes b]
  show sha3 b = if H256.zero ≠ H256.zero then H256.zero else sha3 b
  exact (if_neg (not_not.mpr rfl)).symm

/-- The hash that is remembered of the header of a block is the one that is looked at first. -/
theorem construct_blockData [Sha3] (hr : construct b .blockData H256.zero = .ok h) :
    headerHashFromBlock b = .ok h.m_hash ∧ b ≠ [] := by
  obtain ⟨v, hv, hp⟩ := bind_eq_ok.mp hr
  obtain ⟨-, hhash, -⟩ := populate_eq_ok.mp hp
  rw [if_neg (not_not.mpr rfl)] at hhash
  unfold extractHeader at hv
  simp only [bind_eq_ok] at hv
  obtain ⟨root, hroot, u, hlist, w, hw, -, -, -, -, -, -, -, -, -, -, he⟩ := hv
  cases he
  refine ⟨?_, fun h0 => ?_⟩
  · rw [hhash]
    exact bind_eq_ok.mpr ⟨root, hroot, bind_eq_ok.mpr ⟨v, hw, rfl⟩⟩
  · subst h0
    cases hroot
    cases hlist

/-- An item that is read as a number of four bytes. -/
theorem Read.number_lt (hr : Read b h off len) {i : ℕ} {x : I64} {n : ℕ}
    (hx : (item ⟨ofBytes b⟩ i >>= toPositiveInt64) = .ok x)
    (hn : (item ⟨ofBytes b⟩ i >>= fun v => toIntOf 4 v Strict) = .ok n) : x.toNat < 2 ^ 32 := by
  obtain ⟨v, hv, hx⟩ := bind_eq_ok.mp hx
  rw [hv, ok_bind] at hn
  have hsingle : ∃ off len, v.Single off len := by
    cases hr.single.item_ok hv with
    | inl hfound =>
      obtain ⟨hp, ys, rest, hys, -⟩ := hfound
      exact single_of_begins hys hp rfl
    | inr hend => exact absurd hx (converts_toPositiveInt64.null hend.1)
  obtain ⟨off', len', hs⟩ := hsingle
  obtain ⟨hwn, hvn⟩ := (converts_toIntOf 4 (by norm_num)).written hs hn
  have hwx := (converts_toPositiveInt64.written hs hx).1
  have hx32 : bytesRequired x.toNat ≤ 32 :=
    bytesRequired_le (x.isLt.trans (by norm_num))
  rw [← numberItem_injective (hvn.trans (by norm_num)) hx32 (hwn.symm.trans hwx)]
  exact (bytesRequired_le_iff.mp hvn).trans_eq (by norm_num)

/-- A header that stands as expected is written as it was read. -/
theorem Read.rlp_of_strictly (hr : Read b h off len) (hb : Strictly b) :
    h.rlp .withSeal = .ok b := by
  obtain ⟨v, hv, hd⟩ := hb.extraData
  obtain ⟨n, hn⟩ := hb.number
  obtain ⟨t, ht⟩ := hb.timestamp
  have hl := hb.list
  rw [← hr.content] at hl
  have hitems := hr.populated.items hr.single hl hv hd
  have hwritten : h.writtenItems = h.strictItems id ++ appendData h.m_extraData :: h.m_seal := by
    have hitems : h.strictItems (· % 2 ^ 32) = h.strictItems id :=
      strictItems_congr (Nat.mod_eq_of_lt (hr.number_lt hr.populated.number hn))
        (Nat.mod_eq_of_lt (hr.number_lt hr.populated.timestamp ht))
    rw [writtenItems, hitems]
  have hflat := hitems.flatten
  rw [List.append_nil, ← hwritten, hr.content] at hflat
  refine rlp_eq_ok.mpr ?_
  have hlt := RLP.extent_lt hr.single.extent
  have hlen := hr.single.length_eq
  rw [hr.content] at hlen
  rw [← hflat, List.length_drop]
  refine ⟨by omega, ?_⟩
  have hext := hr.single.extent
  rw [hr.content] at hext
  exact (RLP.appendList_of_extent hext hb.list hlen).symm

/-- A number below 2^32 is read as one of four bytes. -/
theorem Read.four (hr : Read b h off len) {xs : List Bytes} {rest : Bytes} {i n : ℕ}
    (hb : Begins (b.drop off) xs rest) (hi : xs[i]? = some (numberItem n)) (hn : n < 2 ^ 32) :
    (item ⟨ofBytes b⟩ i >>= fun v => toIntOf 4 v Strict) = .ok n := by
  rw [← hr.content] at hb
  exact hr.single.field_of_getElem (converts_toIntOf 4 (by norm_num)) hb hi
    (bytesRequired_le (hn.trans_eq (by norm_num)))

/-- Bytes that are written again have the signed numbers in 32 bits. -/
theorem Read.of_rlp (hr : Read b h off len) (hw : h.rlp .withSeal = .ok b) :
    Strictly b ∧ h.m_number.toNat < 2 ^ 32 ∧ h.m_timestamp.toNat < 2 ^ 32 ∧
      h.writtenItems.flatten.length < 2 ^ 64 - 1 - 0x100 := by
  obtain ⟨hlt, hbeq⟩ := rlp_eq_ok.mp hw
  have hl : isList b = true := hbeq ▸ isList_appendList hlt
  have hext := hr.single.extent
  have hlen := hr.single.length_eq
  rw [hr.content] at hext hlen
  have hpayload : b.drop off = h.writtenItems.flatten :=
    appendList_injective ((RLP.appendList_of_extent hext hl hlen).trans hbeq)
  have hfit : h.writtenItems.flatten.length < 2 ^ 64 - 1 - 0x100 := by
    have hmax := extent_fits hext
    rw [← hpayload, List.length_drop]
    omega
  have hwritten := begins_written hfit
  rw [← hpayload] at hwritten
  obtain ⟨-, -, rest, hbegins⟩ := hr.populated.begins hr.single
  rw [hr.content] at hbegins
  have hsame : h.strictItems (· % 2 ^ 32) = h.strictItems id :=
    hbegins.prefix_of_le hwritten (by simp [strictItems])
  have hmod : ∀ {x : I64}, numberItem (x.toNat % 2 ^ 32) = numberItem x.toNat → x.toNat < 2 ^ 32 := by
    intro x hx
    have h32 : ∀ {y : ℕ}, y < 2 ^ 64 → bytesRequired y ≤ 32 := fun hy =>
      bytesRequired_le (hy.trans (by norm_num))
    have hx64 := x.isLt
    have heq := numberItem_injective (h32 (by omega)) (h32 hx64) hx
    omega
  have hnumber : numberItem (h.m_number.toNat % 2 ^ 32) = numberItem h.m_number.toNat :=
    Option.some.inj (congrArg (fun l : List Bytes => l[8]?) hsame)
  have htimestamp : numberItem (h.m_timestamp.toNat % 2 ^ 32) = numberItem h.m_timestamp.toNat :=
    Option.some.inj (congrArg (fun l : List Bytes => l[11]?) hsame)
  have hn := hmod hnumber
  have ht := hmod htimestamp
  refine ⟨⟨hl, ?_, ?_, ?_⟩, hn, ht, hfit⟩
  · rw [← hr.content] at hwritten
    obtain ⟨v, hv, hc, off', len', hs⟩ := hr.single.item_of_begins hwritten
    have hextra : appendData h.m_extraData ∈ h.writtenItems := by simp [writtenItems]
    have hle := (RLP.appendData_length_le _).trans (length_le_of_mem_flatten hextra)
    exact ⟨v, hv, (hs.of_appendData hc (hle.trans_lt hfit)).1⟩
  · exact ⟨h.m_number.toNat, hr.four (i := 8) hbegins rfl hn⟩
  · exact ⟨h.m_timestamp.toNat, hr.four (i := 11) hbegins rfl ht⟩

/-! ### Headers that were written -/

/-- The signed numbers fit in 32 bits, and the whole in what the reader takes. -/
structure Small (h : BlockHeader) : Prop where
  number : h.m_number.toNat < 2 ^ 32
  timestamp : h.m_timestamp.toNat < 2 ^ 32
  size : h.writtenItems.flatten.length < 2 ^ 64 - 1 - 0x100

/-- The header is written, and what is read from that has its fields and its seal. -/
def RoundTrips [Sha3] (h : BlockHeader) : Prop :=
  ∃ b h', h.rlp .withSeal = .ok b ∧
    BlockHeader.construct b .headerData H256.zero = .ok h' ∧ h'.noteDirty = h.noteDirty

theorem populated_of_begins {off len : ℕ} (hs : header.Single off len)
    (hl : isList header.content = true) (hn : 0 ≤ h.m_number.toInt) (ht : 0 ≤ h.m_timestamp.toInt)
    (hextra : h.m_extraData.length < 2 ^ 64 - 1 - 0x100)
    (hb : Begins (header.content.drop off)
      (h.strictItems id ++ appendData h.m_extraData :: h.m_seal) []) : Populated header h := by
  have h256 : ∀ x : U256, bytesRequired x.toNat ≤ 32 := fun x =>
    bytesRequired_le (x.isLt.trans_eq (by norm_num))
  exact {
    parentHash := hs.field_of_getElem converts_toH256 hb rfl h.m_parentHash.size
    sha3Uncles := hs.field_of_getElem converts_toH256 hb rfl h.m_sha3Uncles.size
    author := hs.field_of_getElem converts_toAddress hb rfl (toBigEndian_length _ _)
    stateRoot := hs.field_of_getElem converts_toH256 hb rfl h.m_stateRoot.size
    transactionsRoot := hs.field_of_getElem converts_toH256 hb rfl h.m_transactionsRoot.size
    receiptsRoot := hs.field_of_getElem converts_toH256 hb rfl h.m_receiptsRoot.size
    logBloom := hs.field_of_getElem converts_toLogBloom hb rfl trivial
    difficulty := hs.field_of_getElem converts_toU256 hb rfl (h256 _)
    number := hs.field_of_getElem converts_toPositiveInt64 hb rfl hn
    gasLimit := hs.field_of_getElem converts_toU256 hb rfl (h256 _)
    gasUsed := hs.field_of_getElem converts_toU256 hb rfl (h256 _)
    timestamp := hs.field_of_getElem converts_toPositiveInt64 hb rfl ht
    extraData := by
      obtain ⟨v, hv, hc, off', len', hsv⟩ := hs.item_of_getElem (i := 12) hb rfl
      obtain ⟨hd, hdrop⟩ := hsv.of_appendData hc hextra
      rw [hv, ok_bind, hsv.toBytes_eq hd, hdrop]
    sealed := sealItems_list hs hl hb }

/-- Reading back gives the same header exactly when nothing is cut off and the size is accepted. -/
theorem roundTrips_iff [Sha3] (hn : 0 ≤ h.m_number.toInt) (ht : 0 ≤ h.m_timestamp.toInt)
    (hseal : ∀ x ∈ h.m_seal, ∃ off len, RLP.extent x = some (off, len) ∧ off + len = x.length) :
    h.RoundTrips ↔ h.Small := by
  constructor
  · rintro ⟨b, h', hw, hr, heq⟩
    obtain ⟨⟨off, len, hread⟩, -, -⟩ := construct_headerData hr
    have hw' : h'.rlp .withSeal = .ok b := by
      show h'.noteDirty.rlp .withSeal = _
      rw [heq]
      exact hw
    obtain ⟨-, hn', ht', hfit⟩ := hread.of_rlp hw'
    have hnum : h'.m_number = h.m_number := congrArg (·.m_number) heq
    have htime : h'.m_timestamp = h.m_timestamp := congrArg (·.m_timestamp) heq
    have hitems : h'.writtenItems = h.writtenItems := congrArg (·.writtenItems) heq
    rw [hnum] at hn'
    rw [htime] at ht'
    rw [hitems] at hfit
    exact ⟨hn', ht', hfit⟩
  · rintro ⟨hn', ht', hfit⟩
    have hitems : h.strictItems (· % 2 ^ 32) = h.strictItems id :=
      strictItems_congr (Nat.mod_eq_of_lt hn') (Nat.mod_eq_of_lt ht')
    have hb := (begins_written hfit).append (begins_flatten hseal)
    rw [hitems, List.append_assoc] at hb
    let b := Devcore.appendList h.writtenItems.flatten
    have hcontent : RLPView.content ⟨ofBytes b⟩ = b := content_ofBytes b
    have hl : isList b = true := isList_appendList (hfit.trans (by norm_num))
    obtain ⟨off, len, hs, hdrop⟩ := single_appendList hfit
    have hextra : appendData h.m_extraData ∈ h.writtenItems := by simp [writtenItems]
    have hle := (RLP.appendData_length_le _).trans (length_le_of_mem_flatten hextra)
    have hpop : Populated ⟨ofBytes b⟩ h := by
      refine populated_of_begins hs (by rwa [hcontent]) hn ht (hle.trans_lt hfit) ?_
      rw [hcontent, hdrop]
      exact hb
    refine ⟨b, {h with m_hash := sha3 b, m_hashWithout := H256.zero}, ?_, ?_, rfl⟩
    · exact rlp_eq_ok.mpr ⟨hfit.trans (by norm_num), rfl⟩
    · exact construct_of_populated hs hpop

/-! ### One encoding -/

/-- The header gives the bytes back, and the hash that was remembered is the one that is computed
again after a field was set. -/
structure Kept [Sha3] (b : Bytes) (h : BlockHeader) : Prop where
  bytes : h.rlp .withSeal = .ok b
  hash : (h.hash .withSeal).map Prod.fst = (h.noteDirty.hash .withSeal).map Prod.fst

/-- A seal item as `populate` leaves it. -/
def SealItem (x : Bytes) : Prop := ∃ off len, RLP.extent x = some (off, len) ∧ off + len = x.length

theorem kept_of_rlp [Sha3] (hmemo : h.m_hash = sha3 b) (hw : h.rlp .withSeal = .ok b) :
    Kept b h := by
  refine ⟨hw, ?_⟩
  have hdirty : h.noteDirty.hash .withSeal = .ok (sha3 b, {h.noteDirty with m_hash := sha3 b}) := by
    have hnone : ¬h.noteDirty.m_hash ≠ H256.zero := not_not.mpr rfl
    unfold BlockHeader.hash
    simp only [if_neg hnone]
    rw [show h.noteDirty.rlp .withSeal = h.rlp .withSeal from rfl, hw]
    rfl
  rw [hdirty]
  unfold BlockHeader.hash
  by_cases h0 : h.m_hash ≠ H256.zero
  · simp only [if_pos h0]
    rw [hmemo]
    rfl
  · simp only [if_neg h0]
    rw [hw]
    rfl

/-- Bytes that were accepted are kept exactly if every field stands as it is written; a header is
read back exactly if what is written of it is all of it. -/
theorem header_encodings [Sha3] :
    (∀ b h, BlockHeader.construct b .headerData H256.zero = .ok h → (Kept b h ↔ Strictly b)) ∧
      ∀ h : BlockHeader, 0 ≤ h.m_number.toInt → 0 ≤ h.m_timestamp.toInt →
        (∀ x ∈ h.m_seal, SealItem x) → (h.RoundTrips ↔ h.Small) := by
  refine ⟨fun b h hr => ?_, fun h hn ht hseal => roundTrips_iff hn ht hseal⟩
  obtain ⟨⟨off, len, hread⟩, hmemo, -⟩ := construct_headerData hr
  rw [if_neg (not_not.mpr rfl)] at hmemo
  constructor
  · intro hk
    exact (hread.of_rlp hk.bytes).1
  · intro hb
    exact kept_of_rlp hmemo (hread.rlp_of_strictly hb)

/-- A header that is zero all over. -/
def blank : BlockHeader := {empty with m_timestamp := 0}

/-- The same without the extra data: a list of twelve items. -/
def shortened : Bytes := Devcore.appendList (blank.strictItems id).flatten

/-- A hash function that is zero everywhere. -/
@[reducible] def blankSha3 : Sha3 where
  sha3 _ := H256.zero

theorem header_encodings_blank :
    (@Kept blankSha3 shortened blank ↔ Strictly shortened) ∧
      (@RoundTrips blankSha3 blank ↔ blank.Small) := by
  refine ⟨(@header_encodings blankSha3).1 _ _ (by decide +kernel), ?_⟩
  exact (@header_encodings blankSha3).2 _ (by decide) (by decide)
    fun _ hx => absurd hx List.not_mem_nil

/-- The first second that does not fit in 32 bits. -/
def late : BlockHeader := {blank with m_timestamp := 2 ^ 32}

/-- Twelve items are accepted and thirteen are written; a late timestamp is written as zero. -/
theorem shortened_not_kept :
    (@BlockHeader.construct blankSha3 shortened .headerData H256.zero = .ok blank ∧
      ¬@Kept blankSha3 shortened blank) ∧
      0 ≤ late.m_number.toInt ∧ 0 ≤ late.m_timestamp.toInt ∧ late.m_seal = [] ∧
        ¬@RoundTrips blankSha3 late := by
  refine ⟨⟨by decide +kernel, fun hk => ?_⟩, by decide, by decide, rfl, fun hr => ?_⟩
  · have hne : blank.rlp .withSeal ≠ .ok shortened := by decide +kernel
    exact hne (@Kept.bytes blankSha3 _ _ hk)
  · have hsmall := (@roundTrips_iff late blankSha3 (by decide) (by decide)
      fun _ hx => absurd hx List.not_mem_nil).mp hr
    exact absurd hsmall.timestamp (by decide)

end BlockHeader
end Aleth.Ethcore
