import Aleth.Devcore.RlpTiles

/-! Reading what was written (`RLPStream`, then `RLP`).

`Reads` says what the accessors give for an item. The round trip holds as long
as the payload of the outermost item stays below the sizes that `RLP::length`
accepts and every number has less than 2^32 bytes, the bound of
`intTraits<bigint>`. Beyond them the reader refuses (`read_write_beyond`). -/
namespace Aleth.Devcore
open RLPStream RLPView BytesConstRef

namespace RLP

/-- The string itself, or the items of the list. -/
def body : RLP → Bytes
  | data s => s
  | list l => encodeItems l

theorem body_length_le (i : RLP) : i.body.length ≤ i.encode.length := by
  cases i with
  | data s => exact appendData_length_le s
  | list l =>
    rw [encode, appendList, List.length_append]
    exact Nat.le_add_left _ _

/-- The header is at most nine bytes. -/
theorem encode_length_le {i : RLP} (h : i.body.length < 2 ^ 64) :
    i.encode.length ≤ i.body.length + 9 := by
  have hheader : ∀ immStart indZero len : ℕ, len < 2 ^ 64 →
      (header immStart indZero len).length ≤ 9 := by
    intro immStart indZero len hlen
    have hbr : bytesRequired len ≤ 8 := bytesRequired_le (by omega)
    unfold header
    split
    · rw [List.length_singleton]
      omega
    · rw [List.length_cons, toCompactBigEndian_length]
      omega
  cases i with
  | data s =>
    have hs : (dataHeader s).length ≤ 9 := by
      unfold dataHeader
      split
      · split
        · exact Nat.zero_le _
        · exact hheader _ _ _ (by decide)
      · exact hheader _ _ _ h
    rw [encode, appendData_eq, List.length_append]
    show _ ≤ s.length + 9
    omega
  | list l =>
    have hl := hheader c_rlpListStart c_rlpListIndLenZero (encodeItems l).length h
    rw [encode, appendList, List.length_append]
    show _ ≤ (encodeItems l).length + 9
    omega

/-- The extent of an encoding, whatever follows it. -/
theorem extent_encode {i : RLP} (h : i.body.length < 2 ^ 64 - 1 - 0x100) (tail : Bytes) :
    ∃ off, extent (i.encode ++ tail) = some (off, i.body.length) ∧
      off + i.body.length = i.encode.length ∧ i.encode.drop off = i.body := by
  cases i with
  | data s =>
    refine ⟨_, extent_data s tail h, ?_, ?_⟩
    · rw [encode, appendData_eq, List.length_append]
      rfl
    · rw [encode, appendData_eq, List.drop_left]
      rfl
  | list l =>
    refine ⟨_, extent_list (encodeItems l) tail h, ?_, ?_⟩
    · rw [encode, appendList, List.length_append]
      rfl
    · rw [encode, appendList, List.drop_left]
      rfl

theorem isList_encode (l : List RLP) (h : (encodeItems l).length < 2 ^ 64 - 1 - 0x100) :
    isList (list l).encode = true ∧ isData (list l).encode = false := by
  obtain ⟨b, hb, hge⟩ := head_appendList (encodeItems l) [] h
  rw [List.append_nil] at hb
  rw [encode, isList, isData, hb]
  exact ⟨decide_eq_true (not_lt.mp hge), decide_eq_false hge⟩

theorem isData_encode (s : Bytes) (h : s.length < 2 ^ 64 - 1 - 0x100) :
    isData (data s).encode = true ∧ isList (data s).encode = false := by
  obtain ⟨b, hb, hlt⟩ := head_appendData s [] h
  rw [List.append_nil] at hb
  rw [encode, isList, isData, hb]
  exact ⟨decide_eq_true hlt, decide_eq_false (not_le.mpr hlt)⟩

theorem tiled_encodeItems (l : List RLP) (h : (encodeItems l).length < 2 ^ 64 - 1 - 0x100) :
    Tiled (encodeItems l) (l.map encode) := by
  induction l with
  | nil => exact .nil
  | cons i l ih =>
    rw [encodeItems, List.length_append] at h
    have hle := body_length_le i
    obtain ⟨off, hext, hlen, -⟩ := extent_encode (i := i) (by omega) (encodeItems l)
    exact .cons hext hlen (ih (by omega))

end RLP

/-! ### Reading -/

mutual
/-- The accessors give the item, whatever bound on the loops is large enough. -/
def Reads : Item → RLPView → Prop
  | .data s, r => isData r.content = true ∧ isList r.content = false ∧
    ∀ flags, toBytes r flags = .ok s
  | .int i, r => isData r.content = true ∧ isList r.content = false ∧
    (∀ flags, toBytes r flags = .ok (toCompactBigEndian i)) ∧ ∀ flags, toInt r flags = .ok i
  | .list l, r => isList r.content = true ∧ isData r.content = false ∧
    (∀ fuel, r.content.length < fuel → itemCount fuel r = .ok l.length) ∧
    ∃ rs, (∀ fuel, r.content.length < fuel → elements fuel r = .ok rs) ∧ ReadsAll l rs

def ReadsAll : List Item → List RLPView → Prop
  | [], rs => rs = []
  | i :: l, rs => ∃ r rs', rs = r :: rs' ∧ Reads i r ∧ ReadsAll l rs'
end

/-- A view that holds one encoding. -/
theorem single_encode {r : RLPView} {i : RLP} (hr : r.m_data.Points) (hc : r.content = i.encode)
    (h : i.body.length < 2 ^ 64 - 1 - 0x100) :
    ∃ off, r.Single off i.body.length ∧ r.content.drop off = i.body := by
  obtain ⟨off, hext, hlen, hdrop⟩ := RLP.extent_encode h []
  rw [List.append_nil] at hext
  refine ⟨off, ⟨hr, hc ▸ hext, ?_⟩, hc ▸ hdrop⟩
  rw [← hr.length_content]
  show _ = r.content.length
  rw [hc, hlen]

theorem requireGood_of_length {b : UInt8} {rest : Bytes} {len : ℕ}
    (h : RLPView.length (b :: rest) = .ok len) : requireGood (b :: rest) = .ok () := by
  cases hg : requireGood (b :: rest) with
  | ok u => rfl
  | error e =>
    have hl : (requireGood (b :: rest) >>= fun _ => _) = Except.ok len := h
    rw [hg] at hl
    cases hl

/-- What `isInt` looks at, except in an empty string: the first byte of the payload. -/
theorem isInt_of_extent {d : Bytes} {off len : ℕ} (h : RLP.extent d = some (off, len))
    (hd : isData d = true) (hpos : 0 < len) : isInt d = nonZeroAt d off := by
  cases d with
  | nil => cases h
  | cons b rest =>
    have hl := length_of_extent h
    have ho := payloadOffset_of_extent h
    have hgood := requireGood_of_length hl
    have hb : b.toNat < c_rlpListStart := of_decide_eq_true hd
    have hint : isInt (b :: rest) = (requireGood (b :: rest) >>= fun _ =>
      if b.toNat < c_rlpDataImmLenStart then Except.ok (decide (b ≠ 0))
      else if b.toNat = c_rlpDataImmLenStart then Except.ok true
      else if b.toNat ≤ c_rlpDataIndLenZero then nonZeroAt (b :: rest) 1
      else if b.toNat < c_rlpListStart then
        nonZeroAt (b :: rest) (1 + (b.toNat - c_rlpDataIndLenZero))
      else Except.ok false) := rfl
    rw [hint, hgood, ok_bind]
    by_cases h1 : b.toNat < c_rlpDataImmLenStart
    · have hs : isSingleByte (b :: rest) = true := decide_eq_true h1
      rw [payloadOffset, if_pos hs] at ho
      rw [if_pos h1, ← ho]
      rfl
    · have hs : isSingleByte (b :: rest) = false := decide_eq_false h1
      rw [payloadOffset, hs, if_neg Bool.false_ne_true] at ho
      have hsize : lengthSize (b :: rest) = b.toNat - c_rlpDataIndLenZero := if_pos hb
      rw [hsize] at ho
      have h2 : b.toNat ≠ c_rlpDataImmLenStart := fun e => by
        have hz : RLPView.length (b :: rest) = .ok 0 := by
          rw [RLPView.length, hgood, ok_bind, if_neg h1, if_pos (by rw [e]; decide), e, Nat.sub_self]
          rfl
        rw [hl] at hz
        cases hz
        exact absurd hpos (lt_irrefl 0)
      rw [if_neg h1, if_neg h2]
      by_cases h3 : b.toNat ≤ c_rlpDataIndLenZero
      · rw [if_pos h3, ← ho, Nat.sub_eq_zero_of_le h3]
      · rw [if_neg h3, if_pos hb, ho]

theorem nonZeroAt_of_drop {d : Bytes} {off : ℕ} {x : UInt8} (hx : x ≠ 0)
    (h : (d.drop off).head? = some x) : nonZeroAt d off = .ok true := by
  rw [List.head?_drop] at h
  rw [nonZeroAt, h]
  show Except.ok (decide (x ≠ 0)) = _
  rw [decide_eq_true hx]

/-- A number is written without a leading zero. -/
theorem isInt_encode {i : ℕ} (h : bytesRequired i < 2 ^ 32) :
    isInt (RLP.data (toCompactBigEndian i)).encode = .ok true := by
  have hlen := toCompactBigEndian_length i
  by_cases h0 : i = 0
  · subst h0
    rfl
  · obtain ⟨x, hx, hx0⟩ := toCompactBigEndian_head h0
    have hfit : (toCompactBigEndian i).length < 2 ^ 64 - 1 - 0x100 := by omega
    obtain ⟨off, hext, -, hdrop⟩ := RLP.extent_encode (i := .data (toCompactBigEndian i)) hfit []
    rw [List.append_nil] at hext
    have hpos := bytesRequired_pos h0
    rw [isInt_of_extent hext (RLP.isData_encode _ hfit).1 (by
      show 0 < (toCompactBigEndian i).length
      omega)]
    exact nonZeroAt_of_drop hx0 (hdrop ▸ hx)

theorem toInt_encode {r : RLPView} {i : ℕ} (hr : r.m_data.Points)
    (hc : r.content = (RLP.data (toCompactBigEndian i)).encode) (h : bytesRequired i < 2 ^ 32)
    (flags : Strictness) : toInt r flags = .ok i := by
  have hlen := toCompactBigEndian_length i
  have hfit : (toCompactBigEndian i).length < 2 ^ 64 - 1 - 0x100 := by omega
  obtain ⟨off, hs, hdrop⟩ := single_encode hr hc hfit
  have hext := hs.extent
  have hne := extent_ne_nil hext
  have hgood : requireGood r.content = .ok () := by
    cases hcon : r.content with
    | nil => exact absurd hcon hne
    | cons b rest =>
      rw [hcon] at hext
      exact requireGood_of_length (length_of_extent hext)
  have hcount : (r.m_data.back off).m_count ≤ 2 ^ 32 - 1 := by
    rw [← (hr.back off).length_content, hs.content_payload, hdrop]
    show (toCompactBigEndian i).length ≤ _
    omega
  unfold toInt
  rw [hgood, ok_bind, hc, isInt_encode h, ok_bind, (RLP.isData_encode _ hfit).2,
    isNull_false (hc ▸ hne), hs.payload_eq]
  simp only [Bool.not_true, Bool.false_and, Bool.or_self, Bool.false_eq_true, if_false]
  rw [ok_bind, decide_eq_false (not_lt.mpr hcount), Bool.false_and, if_neg Bool.false_ne_true,
    hs.content_payload, hdrop]
  exact congrArg Except.ok (fromBigEndian_toCompactBigEndian i)

theorem length_toRLPs (l : List Item) : (Item.toRLPs l).length = l.length := by
  rw [Item.toRLPs_eq_map, List.length_map]

theorem length_le_encodeItems (l : List RLP) : l.length ≤ (RLP.encodeItems l).length := by
  induction l with
  | nil => exact Nat.zero_le _
  | cons i l ih =>
    have hpos := RLP.encode_length_pos i
    rw [RLP.encodeItems, List.length_append, List.length_cons]
    omega

mutual
theorem reads_encode (i : Item) (hs : i.Small) (h : i.toRLP.body.length < 2 ^ 64 - 1 - 0x100)
    (r : RLPView) (hr : r.m_data.Points) (hc : r.content = i.toRLP.encode) : Reads i r := by
  obtain ⟨off, hsingle, hdrop⟩ := single_encode hr hc h
  cases i with
  | data s =>
    obtain ⟨hd, hl⟩ := RLP.isData_encode s h
    rw [Item.toRLP] at hc
    rw [Reads, hc]
    refine ⟨hd, hl, fun flags => ?_⟩
    rw [hsingle.toBytes_eq (hc ▸ hd), hdrop]
    rfl
  | int n =>
    obtain ⟨hd, hl⟩ := RLP.isData_encode (toCompactBigEndian n) h
    rw [Item.toRLP] at hc
    rw [Reads]
    refine ⟨hc ▸ hd, hc ▸ hl, fun flags => ?_, toInt_encode hr hc hs⟩
    rw [hsingle.toBytes_eq (hc ▸ hd), hdrop]
    rfl
  | list l =>
    obtain ⟨hl, hd⟩ := RLP.isList_encode (Item.toRLPs l) h
    rw [Item.toRLP] at hc
    have htiled := RLP.tiled_encodeItems (Item.toRLPs l) h
    have hpay : (r.m_data.back off).content = RLP.encodeItems (Item.toRLPs l) :=
      hsingle.content_payload.trans hdrop
    have hlen : ((Item.toRLPs l).map RLP.encode).length ≤ r.content.length := by
      rw [List.length_map, hc]
      exact (length_le_encodeItems _).trans (RLP.body_length_le (.list (Item.toRLPs l)))
    obtain ⟨hmap, hall⟩ := viewsOf_content htiled hpay (hr.back off)
    rw [Reads]
    refine ⟨hc ▸ hl, hc ▸ hd, fun fuel hf => ?_,
      viewsOf (r.m_data.back off) ((Item.toRLPs l).map RLP.encode), fun fuel hf => ?_, ?_⟩
    · rw [hsingle.itemCount_eq (hc ▸ hl),
        countItems_of_tiled htiled hpay (hr.back off) (hlen.trans_lt hf), List.length_map,
        length_toRLPs]
    · rw [hsingle.elements_eq (hc ▸ hl)]
      exact collect_of_tiled htiled hpay (hr.back off) hsingle.ends (hlen.trans_lt hf)
    · refine readsAll_encode l hs h _ hmap fun r hr => ?_
      obtain ⟨off, len, hs⟩ := hall r hr
      exact hs.points

theorem readsAll_encode (l : List Item) (hs : Item.Smalls l)
    (h : (RLP.encodeItems (Item.toRLPs l)).length < 2 ^ 64 - 1 - 0x100) (rs : List RLPView)
    (hmap : rs.map RLPView.content = (Item.toRLPs l).map RLP.encode)
    (hall : ∀ r ∈ rs, r.m_data.Points) : ReadsAll l rs := by
  cases l with
  | nil =>
    rw [ReadsAll]
    exact List.map_eq_nil_iff.mp hmap
  | cons i l =>
    rw [Item.toRLPs, List.map_cons] at hmap
    obtain ⟨r, rs', rfl, hri, hrl⟩ := List.map_eq_cons_iff.mp hmap
    rw [Item.toRLPs, RLP.encodeItems, List.length_append] at h
    have hle := RLP.body_length_le i.toRLP
    rw [ReadsAll]
    exact ⟨r, rs', rfl, reads_encode i hs.1 (by omega) r (hall r List.mem_cons_self) hri,
      readsAll_encode l hs.2 (by omega) rs' hrl fun r hr => hall r (List.mem_cons_of_mem _ hr)⟩
end

/-- What is written is read back. -/
theorem read_write (i : Item) (hs : i.Small) (h : i.toRLP.body.length < 2 ^ 64 - 1 - 0x100) :
    ∃ b r, write i empty = .ok ⟨b, []⟩ ∧ out ⟨b, []⟩ = .ok b ∧
      construct (ofBytes b) VeryStrict = .ok r ∧ Reads i r := by
  have hle := RLP.encode_length_le (i := i.toRLP) (by omega)
  obtain ⟨off, hext, hlen, -⟩ := RLP.extent_encode h []
  rw [List.append_nil] at hext
  refine ⟨i.toRLP.encode, ⟨ofBytes i.toRLP.encode⟩, write_empty hs (by omega), rfl,
    construct_of_extent ((content_ofBytes _).symm ▸ hext) hlen, ?_⟩
  exact reads_encode i hs h _ (ofBytes_points _) (content_ofBytes _)

theorem read_write_sample :
    ∃ b r, write (.list [.int 1024, .list [], .data [0x61]]) empty = .ok ⟨b, []⟩ ∧
      out ⟨b, []⟩ = .ok b ∧ construct (ofBytes b) VeryStrict = .ok r ∧
      Reads (.list [.int 1024, .list [], .data [0x61]]) r :=
  read_write (.list [.int 1024, .list [], .data [0x61]])
    ⟨show bytesRequired 1024 < 2 ^ 32 by decide +kernel, trivial, trivial, trivial⟩
    (by decide +kernel)

/-! ### Beyond the bounds -/

theorem length_of_eight {b : UInt8} (hb : b.toNat = c_rlpDataIndLenZero + 8) (rest : Bytes) :
    RLPView.length (b :: rest) = indirectLength rest 8 := by
  have hgood : requireGood (b :: rest) = .ok () := if_pos (by rw [hb]; decide)
  rw [RLPView.length, hgood, ok_bind, hb, if_neg (by decide), if_neg (by decide),
    if_pos (by decide), Nat.add_sub_cancel_left]

theorem actualSize_error {b : UInt8} (hb : b.toNat = c_rlpDataIndLenZero + 8) {rest : Bytes}
    {e : RLPException} (h : indirectLength rest 8 = .error e) :
    actualSize (b :: rest) = .error e := by
  have hsingle : isSingleByte (b :: rest) = false := decide_eq_false (by rw [hb]; decide)
  unfold actualSize
  rw [isNull_false (List.cons_ne_nil b rest), if_neg Bool.false_ne_true, hsingle,
    if_neg Bool.false_ne_true, if_pos (isData_or_isList (List.cons_ne_nil b rest)),
    length_of_eight hb, h]
  rfl

/-- `length` refuses what cannot be added to an offset in 64 bits. -/
theorem construct_too_long {s : Bytes} (hlo : 2 ^ 64 - 1 - 0x100 ≤ s.length)
    (hhi : s.length < 2 ^ 64) :
    construct (ofBytes (RLP.data s).encode) VeryStrict = .error .undersizeRLP := by
  have hne : s.length ≠ 1 := by omega
  have hbr : bytesRequired s.length = 8 := bytesRequired_eq (k := 7) (by omega) (by omega)
  have henc : (RLP.data s).encode =
      UInt8.ofNat (c_rlpDataIndLenZero + 8) :: (toCompactBigEndian s.length ++ s) := by
    rw [RLP.encode, RLP.appendData_eq]
    unfold RLP.dataHeader
    split
    case h_1 b => exact absurd rfl hne
    case h_2 => rw [RLP.header_long _ _ (by omega), hbr, List.cons_append]
  have hclen := toCompactBigEndian_length s.length
  rw [hbr] at hclen
  obtain ⟨x, hx, hx0⟩ := toCompactBigEndian_head (i := s.length) (by omega)
  have hhead : (toCompactBigEndian s.length ++ s).head? = some x := by
    rw [List.head?_append, hx]
    rfl
  have htake : (toCompactBigEndian s.length ++ s).take 8 = toCompactBigEndian s.length := by
    rw [← hclen, List.take_left]
  have hind : indirectLength (toCompactBigEndian s.length ++ s) 8 = .error .undersizeRLP := by
    unfold indirectLength
    rw [htake, fromBigEndian_toCompactBigEndian, hhead]
    rw [if_neg (by rw [List.length_append, hclen]; omega), if_neg (by simpa using hx0),
      if_neg (lt_irrefl 8), if_neg (by unfold c_rlpImmLenCount; omega), if_pos hlo]
  have hsize : actualSize (RLP.data s).encode = .error .undersizeRLP := by
    rw [henc]
    exact actualSize_error (RLP.toNat_ofNat (by decide)) hind
  rw [construct_eq, checkTooBig_eq rfl]
  show (actualSize (ofBytes (RLP.data s).encode).content >>= _) >>= _ = _
  rw [content_ofBytes, hsize]
  rfl

/-- The number of bytes is counted in an `unsigned`: it wraps, and the number is written in
front of the buffer. -/
theorem write_too_long {i : ℕ} (h : bytesRequired i = 2 ^ 32) :
    write (.int i) empty = .error .undefined := by
  have h0 : i ≠ 0 := fun e => by
    rw [e] at h
    cases h
  have hlo : ¬i < c_rlpDataImmLenStart := fun hlt => by
    have hle : bytesRequired i ≤ 1 := bytesRequired_le (by unfold c_rlpDataImmLenStart at hlt; omega)
    omega
  have hdown : ∀ {j : ℕ} {l : Bytes}, 256 ^ l.length ≤ j → writeDown j l = .error .undefined := by
    intro j l hj
    induction l generalizing j with
    | nil =>
      have h1 : 1 ≤ j := hj
      exact if_neg (by omega)
    | cons x l ih =>
      have hpos : 0 < 256 ^ (l.length + 1) := Nat.pow_pos (by decide)
      rw [List.length_cons] at hj
      have hdiv : 256 ^ l.length ≤ j / 256 := by
        rw [Nat.le_div_iff_mul_le (by decide), ← Nat.pow_succ]
        exact hj
      rw [writeDown, if_neg (by omega), ih hdiv]
      rfl
  have hle := pow_bytesRequired_le h0
  rw [h] at hle
  have h1 : 256 ^ 1 ≤ i := (Nat.pow_le_pow_right (by decide) (by decide)).trans hle
  rw [write, appendInt, if_neg h0, if_neg hlo, h, Nat.mod_self]
  show (pushInt i 0 (pushByte c_rlpDataImmLenStart empty) >>= fun s => noteAppended 1 s) = _
  have hpush : pushInt i 0 (pushByte c_rlpDataImmLenStart empty) = .error .undefined := by
    show (writeDown i [UInt8.ofNat c_rlpDataImmLenStart] >>= _) = _
    rw [hdown h1]
    rfl
  rw [hpush]
  rfl

theorem exists_bytesRequired (k : ℕ) : ∃ i, bytesRequired i = k + 1 :=
  ⟨256 ^ k, bytesRequired_eq (le_refl _) (Nat.pow_lt_pow_right (by decide) (Nat.lt_succ_self k))⟩

/-- A string of 2^64 - 257 bytes encodes to less than 2^64 bytes, and is not read back; a number
of 2^32 bytes is not written. -/
theorem read_write_beyond :
    (∃ s : Bytes, (Item.data s).toRLP.encode.length < 2 ^ 64 ∧
      write (.data s) empty = .ok ⟨(Item.data s).toRLP.encode, []⟩ ∧
      construct (ofBytes (Item.data s).toRLP.encode) VeryStrict = .error .undersizeRLP) ∧
    ∃ i, bytesRequired i = 2 ^ 32 ∧ write (.int i) empty = .error .undefined := by
  obtain ⟨n, hn⟩ : ∃ n, n = 2 ^ 64 - 1 - 0x100 := ⟨_, rfl⟩
  have hs : (List.replicate n (0 : UInt8)).length = n := List.length_replicate
  have hle := RLP.encode_length_le (i := .data (List.replicate n 0))
    (show (List.replicate n (0 : UInt8)).length < 2 ^ 64 by omega)
  have hbody : (RLP.data (List.replicate n 0)).body.length = n := hs
  obtain ⟨i, hi⟩ := exists_bytesRequired (2 ^ 32 - 1)
  have hi : bytesRequired i = 2 ^ 32 := hi
  refine ⟨⟨List.replicate n 0, by rw [Item.toRLP]; omega, write_empty trivial ?_, ?_⟩, i, hi,
    write_too_long hi⟩
  · rw [Item.toRLP]
    omega
  · exact construct_too_long (by omega) (by omega)

end Aleth.Devcore
