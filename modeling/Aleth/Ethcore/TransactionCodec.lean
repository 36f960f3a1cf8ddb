import Aleth.Ethcore.HeaderCodec
import Aleth.Ethcore.TransactionBase

/-! When a transaction is written as it was read, and read as it was written.

Eight of the nine items leave one way to write them. The receiver does not: a
creation is read from the empty string and from the empty list, and written as
the empty string (`Parsed.begins`). In the other direction the field of the
recovery bit is an `int`, and what does not fit in it is another chain id
(`readSignature_vField`). -/
namespace Aleth.Ethcore
open Devcore
open RLPView BytesConstRef RLPStream
open BlockHeader (writes_u256 blankSha3)

theorem require_eq_ok {ε : Type} {c : Bool} {e : ε} {u : Unit} :
    require c e = .ok u ↔ c = true := by
  cases c with
  | false => exact ⟨fun h => (nomatch h), fun h => (nomatch h)⟩
  | true => exact ⟨fun _ => rfl, fun _ => rfl⟩

theorem converts_toI32 :
    Converts toI32 (fun x => numberItem x.toNat) fun x => bytesRequired x.toNat ≤ 4 := by
  refine (converts_toIntOf 4 (by norm_num)).map (fun n hn => ?_) fun x => ?_
  · rw [BitVec.toNat_ofNat, Nat.mod_eq_of_lt ((bytesRequired_le_iff.mp hn).trans_eq (by norm_num))]
  · rw [BitVec.ofNat_toNat, BitVec.setWidth_eq]

namespace TransactionBase
variable {t t' : TransactionBase} {rlp : RLPView} {off len : ℕ} {b : Bytes}
  {c : I32} {sig : SignatureStruct}

/-! ### The recovery bit and the chain id -/

/-- A chain id as it is read: that of the old rules, or a positive one. -/
def ChainId (c : I32) : Prop := c = -4 ∨ 0 < c.toInt

theorem isValid_iff :
    sig.isValid = true ↔ sig.v ≤ 1 ∧ 0 < sig.r.toNat ∧ 0 < sig.s.toNat ∧
      sig.r.toNat < s_max ∧ sig.s.toNat < s_max := by
  simp [SignatureStruct.isValid, and_assoc]

theorem not_zero_of_isValid (h : sig.isValid = true) : isZeroSignature sig.r sig.s = false := by
  have hr := (isValid_iff.mp h).2.1
  have hne : sig.r ≠ 0 := fun h0 => by
    rw [h0] at hr
    exact absurd hr (lt_irrefl 0)
  rw [isZeroSignature, decide_eq_false hne, Bool.false_and]

theorem toInt_of_lt {x : I32} (h : x.toNat < 2 ^ 31) : x.toInt = x.toNat :=
  BitVec.toInt_eq_toNat_of_lt (by omega)

theorem toInt_neg {x : I32} (h : 2 ^ 31 ≤ x.toNat) : x.toInt < 0 := by
  have hlt := x.isLt
  rw [BitVec.toInt_eq_toNat_cond]
  split <;> omega

theorem lt_of_toInt_pos {x : I32} (h : 0 < x.toInt) : x.toNat < 2 ^ 31 := by
  by_contra hge
  have hneg := toInt_neg (not_lt.mp hge)
  omega

/-- Halving a number that is not negative. -/
theorem toNat_sdiv_two {x : I32} (h : x.toNat < 2 ^ 31) : (x.sdiv 2).toNat = x.toNat / 2 := by
  have hmsb : x.msb = false := by
    rw [BitVec.msb_eq_false_iff_two_mul_lt]
    omega
  have htwo : (2 : I32).msb = false := by decide
  rw [BitVec.sdiv_eq, hmsb, htwo]
  exact BitVec.toNat_udiv

/-- The chain id and the recovery bit of a field above 36. -/
theorem split_above {v : I32} (h : 36 < v.toInt) :
    ((v - 35).sdiv 2).toNat = (v.toNat - 35) / 2 ∧
      (v - ((v - 35).sdiv 2 * 2 + 35)).toNat = (v.toNat - 35) % 2 := by
  have hlt := lt_of_toInt_pos (lt_trans (by norm_num) h)
  rw [toInt_of_lt hlt] at h
  have hsub : (v - 35).toNat = v.toNat - 35 := by
    rw [BitVec.toNat_sub_of_le (by rw [BitVec.le_def]; show 35 ≤ v.toNat; omega)]
    rfl
  have hc := @toNat_sdiv_two (v - 35) (by omega)
  rw [hsub] at hc
  refine ⟨hc, ?_⟩
  have hmul : ((v - 35).sdiv 2 * 2 + 35).toNat = (v.toNat - 35) / 2 * 2 + 35 := by
    rw [BitVec.toNat_add, BitVec.toNat_mul, hc]
    show ((v.toNat - 35) / 2 * 2 % 2 ^ 32 + 35) % 2 ^ 32 = _
    omega
  rw [BitVec.toNat_sub_of_le (by rw [BitVec.le_def, hmul]; omega), hmul]
  omega

/-- The field that a chain id and a recovery bit are written as. -/
theorem toNat_joined (c : I32) (bit : UInt8) :
    (BitVec.ofNat 32 bit.toNat + (c * 2 + 35)).toNat = (bit.toNat + 2 * c.toNat + 35) % 2 ^ 32 := by
  have hbit := bit.toNat_lt
  rw [BitVec.toNat_add, BitVec.toNat_add, BitVec.toNat_mul, BitVec.toNat_ofNat]
  show (bit.toNat % 2 ^ 32 + (c.toNat * 2 % 2 ^ 32 + 35) % 2 ^ 32) % 2 ^ 32 = _
  omega

theorem readChainId_above {v : I32} (h : 36 < v.toInt) :
    readChainId v = .ok ((v - 35).sdiv 2) := if_pos h

/-- What is not above 36 is read with the old chain id, if at all. -/
theorem readChainId_below {v : I32} (h : ¬36 < v.toInt) (hc : readChainId v = .ok c) :
    c = -4 ∧ (v = 27 ∨ v = 28) := by
  unfold readChainId at hc
  rw [if_neg h] at hc
  by_cases hold : v = 27 ∨ v = 28
  · rw [if_pos hold] at hc
    cases hc
    exact ⟨rfl, hold⟩
  · rw [if_neg hold] at hc
    cases hc

/-- The recovery bit is one bit. -/
theorem bit_of_readChainId {v : I32} (hc : readChainId v = .ok c) :
    (v - (c * 2 + 35)).toNat ≤ 1 := by
  by_cases hv : 36 < v.toInt
  · rw [readChainId_above hv] at hc
    cases hc
    rw [(split_above hv).2]
    omega
  · obtain ⟨rfl, hold⟩ := readChainId_below hv hc
    rcases hold with rfl | rfl <;> decide

/-- Taking the chain id out and putting it back. -/
theorem vField_signatureOf {v : I32} {r s : U256} (h0 : isZeroSignature r s = false)
    (hc : readChainId v = .ok c) : vField c (signatureOf v r s c) = v := by
  have hbit := bit_of_readChainId hc
  have hv : (signatureOf v r s c).v.toNat = (v - (c * 2 + 35)).toNat := RLP.toNat_ofNat (by omega)
  have hz : ¬isZeroSignature (signatureOf v r s c).r (signatureOf v r s c).s = true := by
    show ¬isZeroSignature r s = true
    rw [h0]
    exact Bool.false_ne_true
  rw [vField, if_neg hz, hv, BitVec.ofNat_toNat, BitVec.setWidth_eq]
  exact BitVec.sub_add_cancel _ _

/-- What was read is written as the same field. -/
theorem readSignature_ok {v : I32} {r s : U256} {check : CheckTransaction}
    (h : readSignature v r s check = .ok (c, sig)) :
    sig.r = r ∧ sig.s = s ∧ vField c sig = v := by
  unfold readSignature at h
  by_cases h0 : isZeroSignature r s = true
  · rw [if_pos h0] at h
    cases h
    exact ⟨rfl, rfl, if_pos h0⟩
  · rw [if_neg h0] at h
    obtain ⟨c', hc, h⟩ := bind_eq_ok.mp h
    obtain ⟨-, -, h⟩ := bind_eq_ok.mp h
    cases h
    exact ⟨rfl, rfl, vField_signatureOf (eq_false_of_ne_true h0) hc⟩

/-- A valid signature is read exactly if its chain id and recovery bit are. -/
theorem readSignature_eq_ok {v : I32} (hsig : sig.isValid = true) :
    readSignature v sig.r sig.s .cheap = .ok (c, sig) ↔
      readChainId v = .ok c ∧ signatureOf v sig.r sig.s c = sig := by
  unfold readSignature
  rw [not_zero_of_isValid hsig, if_neg Bool.false_ne_true]
  simp only [bind_eq_ok, require_eq_ok]
  constructor
  · rintro ⟨c', hc, -, -, hpair⟩
    obtain ⟨rfl, he⟩ := Prod.mk.inj (Except.ok.inj hpair)
    exact ⟨hc, he⟩
  · rintro ⟨hc, he⟩
    refine ⟨c, hc, (), ?_, ?_⟩
    · rw [he, hsig, Bool.or_true]
    · rw [he]
      rfl

/-- The chain id and the recovery bit fit in the field. -/
def Fits (c : I32) (sig : SignatureStruct) : Prop := 2 * c.toInt + 35 + sig.v.toNat < 2 ^ 31

theorem readSignature_vField (hc : ChainId c) (hsig : sig.isValid = true) :
    readSignature (vField c sig) sig.r sig.s .cheap = .ok (c, sig) ↔ Fits c sig := by
  have hbit : sig.v.toNat ≤ 1 := UInt8.le_iff_toNat_le.mp (isValid_iff.mp hsig).1
  have hjoined : vField c sig = BitVec.ofNat 32 sig.v.toNat + (c * 2 + 35) := by
    rw [vField, not_zero_of_isValid hsig, if_neg Bool.false_ne_true]
  have hnat := toNat_joined c sig.v
  rw [← hjoined] at hnat
  rw [readSignature_eq_ok hsig]
  have hback : signatureOf (vField c sig) sig.r sig.s c = sig := by
    unfold signatureOf
    rw [hjoined, BitVec.add_sub_cancel, BitVec.toNat_ofNat, Nat.mod_eq_of_lt (by omega),
      UInt8.ofNat_toNat]
  rw [eq_true hback, and_true]
  cases hc with
  | inl hold =>
    subst hold
    have hvs : vField (-4) sig = 27 ∨ vField (-4) sig = 28 := by
      have h4 : (-4 : I32).toNat = 2 ^ 32 - 4 := by decide
      rw [h4] at hnat
      rcases Nat.le_one_iff_eq_zero_or_eq_one.mp hbit with h | h
      · exact .inl (BitVec.eq_of_toNat_eq (by rw [hnat, h]; rfl))
      · exact .inr (BitVec.eq_of_toNat_eq (by rw [hnat, h]; rfl))
    have hread : readChainId (vField (-4) sig) = .ok (-4) := by
      rcases hvs with h | h <;> rw [h] <;> decide
    have hfits : Fits (-4) sig := by
      show 2 * (-4 : I32).toInt + 35 + (sig.v.toNat : ℤ) < 2 ^ 31
      have h4 : (-4 : I32).toInt = -4 := by decide
      omega
    exact iff_of_true hread hfits
  | inr hpos =>
    have hc := lt_of_toInt_pos hpos
    rw [toInt_of_lt hc] at hpos
    have hiff : Fits c sig ↔ sig.v.toNat + 2 * c.toNat + 35 < 2 ^ 31 := by
      show 2 * c.toInt + 35 + (sig.v.toNat : ℤ) < 2 ^ 31 ↔ _
      rw [toInt_of_lt hc]
      omega
    rw [hiff]
    by_cases hv : 36 < (vField c sig).toInt
    · have hlt := lt_of_toInt_pos (lt_trans (by norm_num) hv)
      rw [readChainId_above hv]
      constructor
      · intro h
        have hhalf := (split_above hv).1
        rw [Except.ok.inj h] at hhalf
        rw [toInt_of_lt hlt] at hv
        omega
      · intro hfit
        refine congrArg Except.ok (BitVec.eq_of_toNat_eq ?_)
        rw [(split_above hv).1]
        omega
    · constructor
      · intro h
        obtain ⟨rfl, -⟩ := readChainId_below hv h
        exact absurd hc (by decide)
      · intro hfit
        rw [toInt_of_lt (by omega)] at hv
        omega

/-! ### Reading and writing by items -/

/-- What a call of `parse` that throws nothing has read. -/
structure Parsed (rlp : RLPView) (t : TransactionBase) : Prop where
  list : isList rlp.content = true
  nonce : (item rlp 0 >>= toU256) = .ok t.m_nonce
  gasPrice : (item rlp 1 >>= toU256) = .ok t.m_gasPrice
  gas : (item rlp 2 >>= toU256) = .ok t.m_gas
  receiver : ∃ a, (item rlp 3 >>= toReceiver) = .ok a ∧ t.m_receiveAddress = a.getD 0 ∧
    t.m_type = if a.isNone then .contractCreation else .messageCall
  value : (item rlp 4 >>= toU256) = .ok t.m_value
  data : ∃ v, item rlp 5 = .ok v ∧ isData v.content = true ∧ v.toBytes LaissezFaire = .ok t.m_data
  signature : ∃ v r s sig, (item rlp 6 >>= toI32) = .ok v ∧ (item rlp 7 >>= toU256) = .ok r ∧
    (item rlp 8 >>= toU256) = .ok s ∧ readSignature v r s .cheap = .ok (t.m_chainId, sig) ∧
    t.m_vrs = some sig
  count : ∃ n, itemCount rlp.enough rlp = .ok n ∧ n ≤ 9
  hashWith : t.m_hashWith = H256.zero
  unknownSender : t.m_sender = none

theorem field_eq_ok {α : Type} {i : ℕ} {convert : RLPView → Except RLPException α} {a : α} :
    field rlp i convert = .ok a ↔ (item rlp i >>= convert) = .ok a := mapError_eq_ok

theorem parse_eq_ok [Sha3] [Recover] : parse rlp .cheap = .ok t ↔ Parsed rlp t := by
  unfold parse
  simp only [bind_eq_ok]
  simp only [require_eq_ok, field_eq_ok, mapError_eq_ok]
  constructor
  · rintro ⟨-, hlist, nonce, h0, gasPrice, h1, gas, h2, receiver, h3, value, h4, data, hv, -, hdata,
      m_data, h5, v, h6, r, h7, s, h8, ⟨c, sig⟩, hsig, t', ht', n, hn, -, hle, he⟩
    obtain ⟨w, hv, hw⟩ := bind_eq_ok.mp hv
    cases hw
    cases he
    cases ht'
    exact ⟨hlist, h0, h1, h2, ⟨receiver, h3, rfl, rfl⟩, h4, ⟨data, hv, hdata, h5⟩,
      ⟨v, r, s, sig, h6, h7, h8, hsig, rfl⟩, ⟨n, hn, of_decide_eq_true hle⟩, rfl, rfl⟩
  · intro h
    obtain ⟨receiver, hreceiver, haddress, htype⟩ := h.receiver
    obtain ⟨data, hv, hdata, hbytes⟩ := h.data
    obtain ⟨v, r, s, sig, h6, h7, h8, hsig, hvrs⟩ := h.signature
    obtain ⟨n, hn, hle⟩ := h.count
    refine ⟨(), h.list, _, h.nonce, _, h.gasPrice, _, h.gas, _, hreceiver, _, h.value, data,
      bind_eq_ok.mpr ⟨_, hv, rfl⟩, (), hdata, _, hbytes, v, h6, r, h7, s, h8, _, hsig, t, ?_, n, hn,
      (), decide_eq_true hle, rfl⟩
    have ht : t = ⟨t.m_type, t.m_nonce, t.m_value, t.m_receiveAddress, t.m_gasPrice, t.m_gas,
      t.m_data, t.m_vrs, t.m_chainId, t.m_hashWith, t.m_sender⟩ := rfl
    rw [htype, haddress, hvrs, h.hashWith, h.unknownSender] at ht
    rw [ht]
    rfl

/-- The empty list, which is read as the receiver of a creation. -/
def emptyList : Bytes := [UInt8.ofNat c_rlpListStart]

/-- There are two empty items. -/
theorem isEmpty_single {v : RLPView} (hs : v.Single off len) (h : isEmpty v.content = true) :
    v.content = appendData [] ∨ v.content = emptyList := by
  have hext := hs.extent
  have hlen := hs.length_eq
  cases hc : v.content with
  | nil => exact absurd hc (extent_ne_nil hext)
  | cons x rest =>
    rw [hc] at h hext hlen
    have hone : ∀ n : ℕ, x.toNat = n → RLP.extent (x :: rest) = some (1, 0) → x = UInt8.ofNat n ∧
        rest = [] := by
      intro n hn h1
      rw [h1] at hext
      cases hext
      refine ⟨?_, List.length_eq_zero_iff.mp (by rw [List.length_cons] at hlen; omega)⟩
      rw [← hn, UInt8.ofNat_toNat]
    have hor : x.toNat = c_rlpDataImmLenStart ∨ x.toNat = c_rlpListStart := by
      simpa [isEmpty] using h
    rcases hor with hx | hx
    · obtain ⟨rfl, rfl⟩ := hone _ hx (by simp only [RLP.extent, hx]; rfl)
      exact .inl rfl
    · obtain ⟨rfl, rfl⟩ := hone _ hx (by simp only [RLP.extent, hx]; rfl)
      exact .inr rfl

/-- The nine items, with `x` for the receiver. -/
def itemsWith (x : Bytes) (t : TransactionBase) (sig : SignatureStruct) : List Bytes :=
  [numberItem t.m_nonce.toNat, numberItem t.m_gasPrice.toNat, numberItem t.m_gas.toNat, x,
    numberItem t.m_value.toNat, appendData t.m_data, numberItem (vField t.m_chainId sig).toNat,
    numberItem sig.r.toNat, numberItem sig.s.toNat]

/-- The receiver as it is written. -/
def receiverItem (t : TransactionBase) : Bytes :=
  appendData (if t.m_type = .messageCall then addressBytes t.m_receiveAddress else [])

/-- The receiver of what was read is written as it was, or was the empty list. -/
theorem receiver_ok {v : RLPView} (hs : v.Single off len) {a : Option Address}
    (h : toReceiver v = .ok a) (ha : t.m_receiveAddress = a.getD 0)
    (ht : t.m_type = if a.isNone then .contractCreation else .messageCall) :
    v.content = t.receiverItem ∨ (v.content = emptyList ∧ t.receiverItem = appendData []) := by
  unfold toReceiver at h
  unfold receiverItem
  by_cases he : isEmpty v.content = true
  · rw [if_pos he] at h
    cases h
    rw [ht]
    exact (isEmpty_single hs he).imp_right fun h => ⟨h, rfl⟩
  · rw [if_neg he] at h
    obtain ⟨address, haddress, hsome⟩ := bind_eq_ok.mp ((map_eq_pure_bind _ _).symm.trans h)
    cases hsome
    rw [ht, ha]
    exact .inl (converts_toAddress.written hs haddress).1

/-- The payload is the nine items that were read. -/
theorem Parsed.begins (hp : Parsed rlp t) (hs : rlp.Single off len) :
    ∃ v sig, item rlp 3 = .ok v ∧ t.m_vrs = some sig ∧
      (v.content = t.receiverItem ∨ (v.content = emptyList ∧ t.receiverItem = appendData [])) ∧
      Begins (rlp.content.drop off) (itemsWith v.content t sig) [] := by
  obtain ⟨-, r0, -, b0⟩ := hs.field_ok converts_toU256 hp.nonce (.nil _) rfl
  obtain ⟨-, r1, -, b1⟩ := hs.field_ok converts_toU256 hp.gasPrice b0 rfl
  obtain ⟨-, r2, -, b2⟩ := hs.field_ok converts_toU256 hp.gas b1 rfl
  obtain ⟨a, ha, haddress, htype⟩ := hp.receiver
  obtain ⟨v3, hv3, ha⟩ := bind_eq_ok.mp ha
  obtain ⟨data, hv5, hdata, hbytes⟩ := hp.data
  obtain ⟨v, r, s, sig, h6, h7, h8, hsig, hvrs⟩ := hp.signature
  obtain ⟨hr, hs', hv⟩ := readSignature_ok hsig
  subst hr hs' hv
  obtain ⟨n, hn, hle⟩ := hp.count
  cases hs.of_item_ok b2 rfl hv3 with
  | inl hend =>
    exfalso
    unfold toReceiver at ha
    rw [if_neg (by rw [hend.2]; exact Bool.false_ne_true)] at ha
    obtain ⟨address, haddress, -⟩ := bind_eq_ok.mp ((map_eq_pure_bind _ _).symm.trans ha)
    exact converts_toAddress.null hend.2 haddress
  | inr hfound =>
    obtain ⟨r3, -, b3, off3, len3, hs3⟩ := hfound
    obtain ⟨-, r4, -, b4⟩ := hs.field_ok converts_toU256 hp.value b3 rfl
    cases hs.of_item_ok b4 rfl hv5 with
    | inl hend =>
      rw [hend.2] at hdata
      cases hdata
    | inr hfound =>
      obtain ⟨r5, -, b5, off5, len5, hs5⟩ := hfound
      have hm := hbytes
      rw [hs5.toBytes_eq hdata] at hm
      have hc := hs5.content_eq hdata
      rw [Except.ok.inj hm] at hc
      rw [hc] at b5
      obtain ⟨-, r6, -, b6⟩ := hs.field_ok converts_toI32 h6 b5 rfl
      obtain ⟨-, r7, -, b7⟩ := hs.field_ok converts_toU256 h7 b6 rfl
      obtain ⟨-, r8, -, b8⟩ := hs.field_ok converts_toU256 h8 b7 rfl
      refine ⟨v3, sig, hv3, hvrs, receiver_ok hs3 ha haddress htype, ?_⟩
      obtain ⟨all, hall, hlen⟩ := hs.itemCount_ok hp.list hn
      have hnine := hall.length_le_of_nil b8
      have htake := b8.prefix_of_le hall hnine
      rw [List.take_of_length_le (by rw [hlen]; exact hle)] at htake
      rw [htake] at hall
      exact hall

/-! ### Writing -/

theorem mapError_bind {ε ε' α β : Type} (x : Except ε α) (f : α → Except ε β) (g : ε → ε') :
    (x >>= f).mapError g = (x.mapError g >>= fun a => (f a).mapError g) := by
  cases x <;> rfl

/-- The nine items as they are written. -/
def writtenItems (t : TransactionBase) (sig : SignatureStruct) : List Bytes :=
  itemsWith t.receiverItem t sig

theorem writes_receiver (t : TransactionBase) :
    Writes (append (if t.m_type = .messageCall then addressBytes t.m_receiveAddress else []) false)
      t.receiverItem := by
  refine writes_append ?_
  by_cases h : t.m_type = .messageCall
  · rw [if_pos h, addressBytes, toBigEndian_length]
    norm_num
  · rw [if_neg h]
    norm_num

theorem writes_vField (x : I32) : Writes (appendUnsigned x.toNat) (numberItem x.toNat) := by
  have hx : x.toNat % 2 ^ 32 = x.toNat := Nat.mod_eq_of_lt x.isLt
  rw [appendUnsigned, hx]
  refine writes_appendInt ((bytesRequired_le (k := 4) ?_).trans_lt (by norm_num))
  exact x.isLt.trans_eq (by norm_num)

theorem rlp_signed (hty : t.m_type ≠ .nullTransaction) (hvrs : t.m_vrs = some sig) :
    t.rlp true =
      ((RLPStream.appendList 9 RLPStream.empty >>=
        calls (t.fieldCalls ++ signatureCalls t.m_chainId sig)) >>= out).mapError .rlp := by
  unfold TransactionBase.rlp encoded streamRLP
  rw [if_neg hty, hvrs, mapError_bind, mapError_bind, show (ite _ _ _ + 6 : ℕ) = 9 from rfl]
  cases RLPStream.appendList 9 RLPStream.empty with
  | error e => rfl
  | ok s =>
    show (write t.fieldCalls s >>= fun s => write (signatureCalls t.m_chainId sig) s) >>= _ =
      (calls _ s).mapError .rlp >>= _
    rw [calls_append, mapError_bind]
    rfl

/-- What `streamRLP` gives, unless a size is too large for it. -/
theorem rlp_eq_ok (hty : t.m_type ≠ .nullTransaction) (hvrs : t.m_vrs = some sig) :
    t.rlp true = .ok b ↔ (t.writtenItems sig).flatten.length < 2 ^ 64 ∧
      b = Devcore.appendList (t.writtenItems sig).flatten := by
  have hbefore : List.Forall₂ Writes (t.fieldCalls.take 5) ((t.writtenItems sig).take 5) :=
    .cons (writes_u256 _) (.cons (writes_u256 _) (.cons (writes_u256 _) (.cons (writes_receiver t)
      (.cons (writes_u256 _) .nil))))
  have hbehind : List.Forall₂ Writes (signatureCalls t.m_chainId sig)
      ((t.writtenItems sig).drop 6) :=
    .cons (writes_vField _) (.cons (writes_u256 _) (.cons (writes_u256 _) .nil))
  rw [rlp_signed hty hvrs, mapError_eq_ok]
  exact calls_list_eq_ok hbefore t.m_data hbehind

/-! ### Transactions that were read -/

/-- The receiver is there and is a string. -/
def ReceiverIsData (b : Bytes) : Prop := ∃ v, item ⟨ofBytes b⟩ 3 = .ok v ∧ isData v.content = true

theorem construct_cheap [Sha3] [Recover] (h : construct b .cheap = .ok t) :
    (∃ off len, Single ⟨ofBytes b⟩ off len) ∧ Parsed ⟨ofBytes b⟩ t := by
  obtain ⟨v, hv, hp⟩ := bind_eq_ok.mp h
  obtain ⟨rfl, hext⟩ := construct_ok (ofBytes_points b) (mapError_eq_ok.mp hv)
  have hparsed := parse_eq_ok.mp (mapError_eq_ok.mp hp)
  refine ⟨?_, hparsed⟩
  cases hext with
  | inl h0 =>
    have hb : b = [] := List.length_eq_zero_iff.mp h0
    subst hb
    exact nomatch hparsed.list
  | inr hext =>
    obtain ⟨off, len, hext, hlen⟩ := hext
    exact ⟨off, len, ofBytes_points b, hext, hlen⟩

theorem Parsed.type_ne_null (hp : Parsed rlp t) : t.m_type ≠ .nullTransaction := by
  obtain ⟨a, -, -, ht⟩ := hp.receiver
  rw [ht]
  cases a with
  | none => decide
  | some x => exact fun h => nomatch h

theorem itemsWith_injective {x y : Bytes}
    (h : (itemsWith x t sig).flatten = (itemsWith y t sig).flatten) : x = y := by
  have hsplit : ∀ z, (itemsWith z t sig).flatten =
      ((itemsWith z t sig).take 3).flatten ++ (z ++ ((itemsWith z t sig).drop 4).flatten) := by
    intro z
    simp [itemsWith]
  rw [hsplit x, hsplit y] at h
  exact List.append_cancel_right (List.append_cancel_left h)

theorem receiverItem_length_le (t : TransactionBase) :
    (if t.m_type = .messageCall then addressBytes t.m_receiveAddress else []).length ≤ 20 := by
  by_cases h : t.m_type = .messageCall
  · rw [if_pos h]
    exact (toBigEndian_length _ _).le
  · rw [if_neg h]
    exact Nat.zero_le _

/-- The bytes of an accepted transaction are the list of its items. -/
theorem Parsed.bytes (hp : Parsed ⟨ofBytes b⟩ t) (hs : Single ⟨ofBytes b⟩ off len) :
    ∃ v sig, item ⟨ofBytes b⟩ 3 = .ok v ∧ t.m_vrs = some sig ∧
      (v.content = t.receiverItem ∨ (v.content = emptyList ∧ t.receiverItem = appendData [])) ∧
      b = Devcore.appendList (itemsWith v.content t sig).flatten ∧
      (itemsWith v.content t sig).flatten.length < 2 ^ 64 - 1 - 0x100 := by
  obtain ⟨v, sig, hv, hvrs, hor, hb⟩ := hp.begins hs
  have hcontent : RLPView.content ⟨ofBytes b⟩ = b := content_ofBytes b
  have hl := hp.list
  have hext := hs.extent
  have hlen := hs.length_eq
  have hflat := hb.flatten
  rw [hcontent] at hl hext hlen hflat
  rw [List.append_nil] at hflat
  refine ⟨v, sig, hv, hvrs, hor, ?_, ?_⟩
  · rw [← hflat]
    exact (RLP.appendList_of_extent hext hl hlen).symm
  · have hfit := extent_fits hext
    rw [← hflat, List.length_drop]
    omega

/-- What was read is written as it was exactly if the receiver is a string. -/
theorem Parsed.rlp_iff (hp : Parsed ⟨ofBytes b⟩ t) (hs : Single ⟨ofBytes b⟩ off len) :
    t.rlp true = .ok b ↔ ReceiverIsData b := by
  obtain ⟨v, sig, hv, hvrs, hor, hb, hfit⟩ := hp.bytes hs
  rw [rlp_eq_ok hp.type_ne_null hvrs]
  have hdata : ReceiverIsData b ↔ isData v.content = true := by
    refine ⟨fun ⟨w, hw, hd⟩ => ?_, fun hd => ⟨v, hv, hd⟩⟩
    rw [hv] at hw
    cases hw
    exact hd
  rw [hdata]
  constructor
  · rintro ⟨-, hb'⟩
    have hx := itemsWith_injective (appendList_injective (hb.symm.trans hb'))
    rw [hx]
    exact (RLP.isData_encode _ (t.receiverItem_length_le.trans_lt (by norm_num))).1
  · intro hd
    have hx : v.content = t.receiverItem := by
      cases hor with
      | inl h => exact h
      | inr h =>
        rw [h.1] at hd
        exact absurd hd (by decide)
    rw [hx] at hb hfit
    exact ⟨hfit.trans (by norm_num), hb⟩

/-! ### Transactions that were written -/

/-- A transaction with a valid signature. -/
structure Signed (t : TransactionBase) (sig : SignatureStruct) : Prop where
  type : t.m_type ≠ .nullTransaction
  vrs : t.m_vrs = some sig
  valid : sig.isValid = true
  chainId : ChainId t.m_chainId

/-- The same fields; the receiver of a creation is ignored. -/
structure Same (t t' : TransactionBase) : Prop where
  type : t.m_type = t'.m_type
  nonce : t.m_nonce = t'.m_nonce
  value : t.m_value = t'.m_value
  receiveAddress : t'.m_type = .messageCall → t.m_receiveAddress = t'.m_receiveAddress
  gasPrice : t.m_gasPrice = t'.m_gasPrice
  gas : t.m_gas = t'.m_gas
  data : t.m_data = t'.m_data
  vrs : t.m_vrs = t'.m_vrs
  chainId : t.m_chainId = t'.m_chainId

/-- The transaction is written, and what is read from that is the same. -/
def RoundTrips [Sha3] [Recover] (t : TransactionBase) : Prop :=
  ∃ b t', t.rlp true = .ok b ∧ construct b .cheap = .ok t' ∧ Same t' t

/-- The recovery bit fits in its field, and the whole in what the reader takes. -/
structure Small (t : TransactionBase) (sig : SignatureStruct) : Prop where
  fits : Fits t.m_chainId sig
  size : (t.writtenItems sig).flatten.length < 2 ^ 64 - 1 - 0x100

theorem begins_written (hfit : (t.writtenItems sig).flatten.length < 2 ^ 64 - 1 - 0x100) :
    Begins (t.writtenItems sig).flatten (t.writtenItems sig) [] := by
  let strings : List Bytes :=
    [toCompactBigEndian t.m_nonce.toNat, toCompactBigEndian t.m_gasPrice.toNat,
      toCompactBigEndian t.m_gas.toNat,
      if t.m_type = .messageCall then addressBytes t.m_receiveAddress else [],
      toCompactBigEndian t.m_value.toNat, t.m_data,
      toCompactBigEndian (vField t.m_chainId sig).toNat, toCompactBigEndian sig.r.toNat,
      toCompactBigEndian sig.s.toNat]
  have hstrings : t.writtenItems sig = strings.map appendData := rfl
  have hbegins := @begins_appendData strings (fun s hs => ?_) []
  · rw [List.append_nil] at hbegins
    exact hbegins
  · have hmem : appendData s ∈ t.writtenItems sig := by
      rw [hstrings]
      exact List.mem_map_of_mem hs
    exact ((RLP.appendData_length_le s).trans (length_le_of_mem_flatten hmem)).trans_lt hfit

/-- The transaction that is read from what is written of `t`. -/
def normal (t : TransactionBase) : TransactionBase :=
  {t with
    m_receiveAddress := if t.m_type = .messageCall then t.m_receiveAddress else 0
    m_hashWith := H256.zero
    m_sender := none}

theorem toReceiver_written {v : RLPView} (hs : v.Single off len) (hty : t.m_type ≠ .nullTransaction)
    (hc : v.content = t.receiverItem) :
    ∃ a, toReceiver v = .ok a ∧ t.normal.m_receiveAddress = a.getD 0 ∧
      t.m_type = if a.isNone then .contractCreation else .messageCall := by
  unfold receiverItem at hc
  unfold toReceiver
  by_cases h : t.m_type = .messageCall
  · rw [if_pos h] at hc
    have hempty : ¬isEmpty v.content = true := by
      intro he
      have hlen : v.content.length = 1 := by
        cases isEmpty_single hs he with
        | inl h1 => rw [h1]; rfl
        | inr h1 => rw [h1]; rfl
      have hle := RLP.appendData_length_le (addressBytes t.m_receiveAddress)
      rw [← hc, hlen, addressBytes, toBigEndian_length] at hle
      omega
    refine ⟨some t.m_receiveAddress, ?_, if_pos h, h⟩
    rw [if_neg hempty, converts_toAddress.read hs hc (toBigEndian_length _ _)]
    rfl
  · rw [if_neg h] at hc
    have hcreation : t.m_type = .contractCreation := by
      cases hm : t.m_type with
      | nullTransaction => exact absurd hm hty
      | contractCreation => rfl
      | messageCall => exact absurd hm h
    refine ⟨none, ?_, if_neg h, hcreation⟩
    rw [if_pos (by rw [hc]; rfl)]

theorem parsed_of_begins (hs : rlp.Single off len) (hl : isList rlp.content = true)
    (hsigned : Signed t sig) (hfits : Fits t.m_chainId sig)
    (hdata : t.m_data.length < 2 ^ 64 - 1 - 0x100)
    (hb : Begins (rlp.content.drop off) (t.writtenItems sig) []) : Parsed rlp t.normal := by
  have h256 : ∀ x : U256, bytesRequired x.toNat ≤ 32 := fun x =>
    bytesRequired_le (x.isLt.trans_eq (by norm_num))
  have h32 : ∀ x : I32, bytesRequired x.toNat ≤ 4 := fun x =>
    bytesRequired_le (x.isLt.trans_eq (by norm_num))
  exact {
    list := hl
    nonce := hs.field_of_getElem converts_toU256 hb rfl (h256 _)
    gasPrice := hs.field_of_getElem converts_toU256 hb rfl (h256 _)
    gas := hs.field_of_getElem converts_toU256 hb rfl (h256 _)
    receiver := by
      obtain ⟨v, hv, hc, off', len', hsv⟩ := hs.item_of_getElem (i := 3) hb rfl
      obtain ⟨a, ha, haddress, htype⟩ := toReceiver_written hsv hsigned.type hc
      exact ⟨a, bind_eq_ok.mpr ⟨v, hv, ha⟩, haddress, htype⟩
    value := hs.field_of_getElem converts_toU256 hb rfl (h256 _)
    data := by
      obtain ⟨v, hv, hc, off', len', hsv⟩ := hs.item_of_getElem (i := 5) hb rfl
      obtain ⟨hd, hdrop⟩ := hsv.of_appendData hc hdata
      exact ⟨v, hv, hd, by rw [hsv.toBytes_eq hd, hdrop]; rfl⟩
    signature := ⟨vField t.m_chainId sig, sig.r, sig.s, sig,
      hs.field_of_getElem converts_toI32 hb rfl (h32 _),
      hs.field_of_getElem converts_toU256 hb rfl (h256 _),
      hs.field_of_getElem converts_toU256 hb rfl (h256 _),
      (readSignature_vField hsigned.chainId hsigned.valid).mpr hfits, hsigned.vrs⟩
    count := ⟨9, hs.itemCount_of_begins hl hb, le_refl 9⟩
    hashWith := rfl
    unknownSender := rfl }

theorem roundTrips_iff [Sha3] [Recover] (hsigned : Signed t sig) :
    t.RoundTrips ↔ t.Small sig := by
  constructor
  · rintro ⟨b, t', hw, hr, hsame⟩
    obtain ⟨⟨off, len, hs⟩, hp⟩ := construct_cheap hr
    obtain ⟨-, hb⟩ := (rlp_eq_ok hsigned.type hsigned.vrs).mp hw
    obtain ⟨v, r, s, sig', -, -, -, hread, hvrs⟩ := hp.signature
    rw [hsame.vrs, hsigned.vrs] at hvrs
    cases hvrs
    obtain ⟨rfl, rfl, rfl⟩ := readSignature_ok hread
    rw [hsame.chainId] at hread
    refine ⟨(readSignature_vField hsigned.chainId hsigned.valid).mp hread, ?_⟩
    obtain ⟨w, sig'', -, -, -, hb', hfit⟩ := hp.bytes hs
    rw [← appendList_injective (hb'.symm.trans hb)]
    exact hfit
  · rintro ⟨hfits, hfit⟩
    let b := Devcore.appendList (t.writtenItems sig).flatten
    have hcontent : RLPView.content ⟨ofBytes b⟩ = b := content_ofBytes b
    have hl : isList b = true := isList_appendList (hfit.trans (by norm_num))
    obtain ⟨off, len, hs, hdrop⟩ := single_appendList hfit
    have hmem : appendData t.m_data ∈ t.writtenItems sig := by simp [writtenItems, itemsWith]
    have hdata := (RLP.appendData_length_le _).trans (length_le_of_mem_flatten hmem)
    have hp : Parsed ⟨ofBytes b⟩ t.normal := by
      refine parsed_of_begins hs (by rwa [hcontent]) hsigned hfits (hdata.trans_lt hfit) ?_
      rw [hcontent, hdrop]
      exact begins_written hfit
    refine ⟨b, t.normal, ?_, ?_, ⟨rfl, rfl, rfl, fun h => if_pos h, rfl, rfl, rfl, rfl, rfl⟩⟩
    · exact (rlp_eq_ok hsigned.type hsigned.vrs).mpr ⟨hfit.trans (by norm_num), rfl⟩
    · refine bind_eq_ok.mpr ⟨⟨ofBytes b⟩, ?_, mapError_eq_ok.mpr (parse_eq_ok.mpr hp)⟩
      exact mapError_eq_ok.mpr (construct_of_extent hs.extent hs.size)

/-! ### One encoding -/

/-- The transaction gives the bytes back, and its hash is theirs. -/
structure Kept [Sha3] (b : Bytes) (t : TransactionBase) : Prop where
  bytes : t.rlp true = .ok b
  hash : (t.sha3 true).map Prod.fst = .ok (Sha3.sha3 b)

theorem kept_of_rlp [Sha3] (hmemo : t.m_hashWith = H256.zero) (hw : t.rlp true = .ok b) :
    Kept b t := by
  refine ⟨hw, ?_⟩
  have hencoded : t.encoded true (0 < t.m_chainId.toInt && !true) = .ok b := by
    rw [Bool.not_true, Bool.and_false]
    exact hw
  unfold TransactionBase.sha3
  rw [if_neg (fun h => h.2 hmemo), hencoded]
  rfl

/-- Bytes that were accepted are kept exactly if the receiver is a string, and then no others give
the same transaction; a signed transaction is read back exactly if its recovery bit fits. -/
theorem transaction_encodings [Sha3] [Recover] :
    (∀ b t, construct b .cheap = .ok t → (Kept b t ↔ ReceiverIsData b)) ∧
      (∀ b b' t, construct b .cheap = .ok t → construct b' .cheap = .ok t → ReceiverIsData b →
        ReceiverIsData b' → b = b') ∧
      ∀ t sig, Signed t sig → (t.RoundTrips ↔ t.Small sig) := by
  have hkept : ∀ b t, construct b .cheap = .ok t → (Kept b t ↔ ReceiverIsData b) := by
    intro b t h
    obtain ⟨⟨off, len, hs⟩, hp⟩ := construct_cheap h
    rw [← hp.rlp_iff hs]
    exact ⟨fun hk => hk.bytes, kept_of_rlp hp.hashWith⟩
  refine ⟨hkept, fun b b' t h h' hb hb' => ?_, fun t sig hsigned => roundTrips_iff hsigned⟩
  have hw := ((hkept b t h).mpr hb).bytes
  rw [((hkept b' t h').mpr hb').bytes] at hw
  exact (Except.ok.inj hw).symm

/-- A creation with nothing in it. -/
def creation : TransactionBase :=
  {m_type := .contractCreation, m_vrs := some ⟨1, 1, 0⟩}

/-- Its bytes, with `x` for the receiver. -/
def creationBytes (x : UInt8) : Bytes := [0xc9, 0x80, 0x80, 0x80, x, 0x80, 0x80, 0x1b, 0x01, 0x01]

/-- A recovery that never succeeds. -/
@[reducible] def noRecover : Recover where
  recover _ _ := List.replicate 64 0

/-- The smallest chain id that is not read back. -/
def largeChain : TransactionBase := {creation with m_chainId := 0x3fffffef}

theorem creation_encodings :
    (@Kept blankSha3 (creationBytes 0x80) creation ↔ ReceiverIsData (creationBytes 0x80)) ∧
      creationBytes 0x80 = creationBytes 0x80 ∧
        (@RoundTrips blankSha3 noRecover creation ↔ creation.Small ⟨1, 1, 0⟩) := by
  have hread : @construct blankSha3 noRecover (creationBytes 0x80) .cheap = .ok creation := by
    decide +kernel
  obtain ⟨⟨off, len, hs⟩, hp⟩ := @construct_cheap _ _ blankSha3 noRecover hread
  have hdata : ReceiverIsData (creationBytes 0x80) := (hp.rlp_iff hs).mp (by decide +kernel)
  refine ⟨(@transaction_encodings blankSha3 noRecover).1 _ _ hread,
    (@transaction_encodings blankSha3 noRecover).2.1 _ _ _ hread hread hdata hdata, ?_⟩
  exact (@transaction_encodings blankSha3 noRecover).2.2 _ _
    ⟨by decide, rfl, by decide, .inl rfl⟩

/-- Two strings give one transaction, and a large chain id is not read back. -/
theorem creation_not_kept :
    (@construct blankSha3 noRecover (creationBytes 0xc0) .cheap = .ok creation ∧
      @construct blankSha3 noRecover (creationBytes 0x80) .cheap = .ok creation ∧
      ¬@Kept blankSha3 (creationBytes 0xc0) creation) ∧
      Signed largeChain ⟨1, 1, 0⟩ ∧ ¬@RoundTrips blankSha3 noRecover largeChain := by
  have hsigned : Signed largeChain ⟨1, 1, 0⟩ := ⟨by decide, rfl, by decide, .inr (by decide +kernel)⟩
  refine ⟨⟨by decide +kernel, by decide +kernel, fun hk => ?_⟩, hsigned, fun hr => ?_⟩
  · have hne : creation.rlp true ≠ .ok (creationBytes 0xc0) := by decide +kernel
    exact hne (@Kept.bytes blankSha3 _ _ hk)
  · have hsmall := (@roundTrips_iff largeChain ⟨1, 1, 0⟩ blankSha3 noRecover hsigned).mp hr
    exact absurd hsmall.fits (by unfold Fits; decide +kernel)

end TransactionBase
end Aleth.Ethcore
