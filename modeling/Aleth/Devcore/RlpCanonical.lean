import Aleth.Devcore.RlpRoundTrip

/-! What is read without an exception was written so (`RLP`, then `RLPStream`).

`traverse` is a full traversal: every item of every list, and the bytes of every
string. The checks on a header leave one way to write it (`appendData_of_extent`,
`appendList_of_extent`), and the items of a list tile its payload, so writing
what was read gives the same bytes back. -/
namespace Aleth.Devcore
open RLPStream RLPView BytesConstRef

namespace RLP
variable {d : Bytes} {b : UInt8} {rest : Bytes} {off len : ℕ}

/-- What the checks on an explicit length let through. -/
structure Explicit (n : ℕ) (rest : Bytes) (len : ℕ) : Prop where
  size : lengthSize n ≤ rest.length
  head : rest.head? ≠ some 0
  width : lengthSize n ≤ 8
  min : 56 ≤ len
  max : len < 2 ^ 64 - 1 - 0x100
  value : fromBigEndian (rest.take (lengthSize n)) = len

theorem explicit_of_some {n : ℕ} (h : explicitLength n rest = some len) : Explicit n rest len := by
  unfold explicitLength at h
  dsimp only at h
  by_cases h1 : rest.length < lengthSize n
  · rw [if_pos h1] at h
    cases h
  · by_cases h2 : rest.head? = some 0
    · rw [if_neg h1, if_pos h2] at h
      cases h
    · by_cases h3 : 8 < lengthSize n
      · rw [if_neg h1, if_neg h2, if_pos h3] at h
        cases h
      · by_cases h4 : fromBigEndian (rest.take (lengthSize n)) < c_rlpImmLenCount
        · rw [if_neg h1, if_neg h2, if_neg h3, if_pos h4] at h
          cases h
        · by_cases h5 : 2 ^ 64 - 1 - 0x100 ≤ fromBigEndian (rest.take (lengthSize n))
          · rw [if_neg h1, if_neg h2, if_neg h3, if_neg h4, if_pos h5] at h
            cases h
          · rw [if_neg h1, if_neg h2, if_neg h3, if_neg h4, if_neg h5] at h
            cases h
            exact ⟨not_lt.mp h1, h2, not_lt.mp h3, not_lt.mp h4, not_le.mp h5, rfl⟩

theorem ofNat_eq {n : ℕ} (h : b.toNat = n) : UInt8.ofNat n = b := by
  rw [← h, UInt8.ofNat_toNat]

/-- An explicit length is written with the bytes that it was read from. -/
theorem Explicit.header_eq {immStart indZero : ℕ} (h : Explicit b.toNat rest len)
    (hb : b.toNat = indZero + lengthSize b.toNat) (hpos : 0 < lengthSize b.toNat) :
    header immStart indZero len = b :: rest.take (lengthSize b.toNat) := by
  have hsize := h.size
  have hvalue := h.value
  obtain ⟨k, hk⟩ : ∃ k, lengthSize b.toNat = k + 1 := ⟨lengthSize b.toNat - 1, by omega⟩
  cases rest with
  | nil =>
    rw [List.length_nil] at hsize
    omega
  | cons x rest =>
    have hx : x ≠ 0 := fun e => h.head (by rw [e]; rfl)
    have hl : (rest.take k).length = k := by
      rw [List.length_cons] at hsize
      rw [List.length_take]
      omega
    rw [hk, List.take_succ_cons] at hvalue ⊢
    have hc := toCompactBigEndian_fromBigEndian hx (rest.take k)
    rw [hvalue] at hc
    have hbr : bytesRequired len = k + 1 := by
      rw [← toCompactBigEndian_length, hc, List.length_cons, hl]
    rw [header_long _ _ (not_lt.mpr h.min), hc, hbr, ← hk, ofNat_eq hb]

theorem lengthSize_of_extent (h1 : ¬b.toNat < c_rlpDataImmLenStart)
    (h : extent (b :: rest) = some (off, len)) : off = 1 + lengthSize b.toNat := by
  have ho := payloadOffset_of_extent h
  have hs : isSingleByte (b :: rest) = false := decide_eq_false h1
  rw [payloadOffset, hs, if_neg Bool.false_ne_true] at ho
  exact ho.symm

/-- Behind the first byte and the bytes of the length comes the payload. -/
theorem drop_header (ho : off = 1 + lengthSize b.toNat) :
    (b :: rest).drop off = rest.drop (lengthSize b.toNat) := by
  rw [ho, Nat.add_comm]
  rfl

theorem length_drop_header (ho : off = 1 + lengthSize b.toNat)
    (hlen : off + len = (b :: rest).length) : (rest.drop (lengthSize b.toNat)).length = len := by
  rw [List.length_cons] at hlen
  rw [List.length_drop]
  omega

/-- The header of a string is the one that is written for it. -/
theorem appendData_of_extent (h : extent d = some (off, len)) (hd : isData d = true)
    (hlen : off + len = d.length) : appendData (d.drop off) = d := by
  cases d with
  | nil => cases h
  | cons b rest =>
    have hb : b.toNat < c_rlpListStart := of_decide_eq_true hd
    by_cases h1 : b.toNat < c_rlpDataImmLenStart
    · have hs : isSingleByte (b :: rest) = true := decide_eq_true h1
      have ho := payloadOffset_of_extent h
      have hl := length_single hs (length_of_extent h)
      rw [payloadOffset, if_pos hs] at ho
      rw [List.length_cons] at hlen
      have hrest : rest = [] := List.length_eq_zero_iff.mp (by omega)
      rw [← ho, List.drop_zero, hrest, appendData, if_pos h1]
    · have ho := lengthSize_of_extent h1 h
      have hplen := length_drop_header ho hlen
      unfold extent at h
      dsimp only at h
      rw [if_neg h1] at h
      suffices hheader : dataHeader (rest.drop (lengthSize b.toNat)) =
          b :: rest.take (lengthSize b.toNat) by
        rw [drop_header ho, appendData_eq, hheader, List.cons_append, List.take_append_drop]
      by_cases hg : b.toNat = c_rlpDataImmLenStart + 1 ∧
          (rest.head?.all fun x => x.toNat < c_rlpDataImmLenStart) = true
      · rw [if_pos hg] at h
        cases h
      · rw [if_neg hg] at h
        by_cases h2 : b.toNat ≤ c_rlpDataIndLenZero
        · rw [if_pos h2] at h
          cases h
          have hz : lengthSize b.toNat = 0 := by omega
          have hshort : b.toNat - c_rlpDataImmLenStart < 56 := by
            unfold c_rlpDataIndLenZero at h2
            unfold c_rlpDataImmLenStart
            omega
          have hn : b.toNat = c_rlpDataImmLenStart + (b.toNat - c_rlpDataImmLenStart) := by omega
          rw [hz, List.drop_zero] at hplen ⊢
          have hhead : header c_rlpDataImmLenStart c_rlpDataIndLenZero rest.length = [b] := by
            rw [hplen, header_short _ _ hshort, ofNat_eq hn]
          rw [List.take_zero]
          unfold dataHeader
          split
          case h_1 x =>
            rw [List.length_singleton] at hplen
            rw [if_neg fun hx => hg ⟨by omega, decide_eq_true hx⟩]
            exact hhead
          case h_2 => exact hhead
        · rw [if_neg h2, if_pos hb, Option.map_eq_some_iff] at h
          obtain ⟨l, hl, he⟩ := h
          cases he
          have hexp := explicit_of_some hl
          have hmin := hexp.min
          have hsize : lengthSize b.toNat = b.toNat - c_rlpDataIndLenZero := if_pos hb
          have hhead : header c_rlpDataImmLenStart c_rlpDataIndLenZero len =
              b :: rest.take (lengthSize b.toNat) := hexp.header_eq (by omega) (by omega)
          rw [← hplen] at hhead
          unfold dataHeader
          split
          case h_1 x hx =>
            rw [hx, List.length_singleton] at hplen
            omega
          case h_2 => exact hhead

/-- The header of a list is the one that is written for it. -/
theorem appendList_of_extent (h : extent d = some (off, len)) (hd : isList d = true)
    (hlen : off + len = d.length) : Devcore.appendList (d.drop off) = d := by
  cases d with
  | nil => cases h
  | cons b rest =>
    have hb : c_rlpListStart ≤ b.toNat := of_decide_eq_true hd
    have h1 : ¬b.toNat < c_rlpDataImmLenStart := by
      unfold c_rlpListStart at hb
      unfold c_rlpDataImmLenStart
      omega
    have hg : ¬(b.toNat = c_rlpDataImmLenStart + 1 ∧
        (rest.head?.all fun x => x.toNat < c_rlpDataImmLenStart) = true) := fun hg => by
      unfold c_rlpListStart at hb
      unfold c_rlpDataImmLenStart at hg
      omega
    have h2 : ¬b.toNat ≤ c_rlpDataIndLenZero := by
      unfold c_rlpListStart at hb
      unfold c_rlpDataIndLenZero
      omega
    have ho := lengthSize_of_extent h1 h
    have hplen := length_drop_header ho hlen
    have hsize : lengthSize b.toNat = b.toNat - c_rlpListIndLenZero := if_neg (not_lt.mpr hb)
    unfold extent at h
    dsimp only at h
    rw [if_neg h1, if_neg hg, if_neg h2, if_neg (not_lt.mpr hb)] at h
    suffices hheader : header c_rlpListStart c_rlpListIndLenZero
        (rest.drop (lengthSize b.toNat)).length = b :: rest.take (lengthSize b.toNat) by
      rw [drop_header ho, Devcore.appendList, hheader, List.cons_append, List.take_append_drop]
    rw [hplen]
    by_cases h3 : b.toNat ≤ c_rlpListIndLenZero
    · rw [if_pos h3] at h
      cases h
      have hz : lengthSize b.toNat = 0 := by omega
      have hshort : b.toNat - c_rlpListStart < 56 := by
        unfold c_rlpListIndLenZero at h3
        unfold c_rlpListStart
        omega
      have hn : b.toNat = c_rlpListStart + (b.toNat - c_rlpListStart) := by omega
      rw [header_short _ _ hshort, ofNat_eq hn, hz, List.take_zero]
    · rw [if_neg h3, Option.map_eq_some_iff] at h
      obtain ⟨l, hl, he⟩ := h
      cases he
      exact (explicit_of_some hl).header_eq (by omega) (by omega)

/-- What has an extent is shorter than 2^64 bytes. -/
theorem extent_lt (h : extent d = some (off, len)) : off + len < 2 ^ 64 := by
  cases d with
  | nil => cases h
  | cons b rest =>
    have hb := b.toNat_lt
    by_cases h1 : b.toNat < c_rlpDataImmLenStart
    · have hs : isSingleByte (b :: rest) = true := decide_eq_true h1
      have ho := payloadOffset_of_extent h
      rw [payloadOffset, if_pos hs] at ho
      rw [← ho, length_single hs (length_of_extent h)]
      decide
    · have ho := lengthSize_of_extent h1 h
      have hshort : ∀ {n l : ℕ}, (explicitLength b.toNat rest).map (fun l => (n, l)) =
          some (off, len) → off + len < 2 ^ 64 := by
        intro n l he
        obtain ⟨l, hl, he⟩ := Option.map_eq_some_iff.mp he
        cases he
        have hexp := explicit_of_some hl
        have hwidth := hexp.width
        have hmax := hexp.max
        omega
      unfold extent at h
      dsimp only at h
      rw [if_neg h1] at h
      split at h
      · cases h
      · split at h
        · cases h
          omega
        · split at h
          · exact hshort (l := 0) h
          · split at h
            · cases h
              omega
            · exact hshort (l := 0) h

/-! ### Traversing -/

mutual
/-- What a caller appends to write the structure. -/
def toItem : RLP → Item
  | data s => .data s
  | list l => .list (toItems l)

def toItems : List RLP → List Item
  | [] => []
  | i :: l => i.toItem :: toItems l
end

mutual
theorem toRLP_toItem (i : RLP) : i.toItem.toRLP = i := by
  cases i with
  | data s => rfl
  | list l => rw [toItem, Item.toRLP, toRLPs_toItems l]

theorem toRLPs_toItems (l : List RLP) : Item.toRLPs (toItems l) = l := by
  cases l with
  | nil => rfl
  | cons i l => rw [toItems, Item.toRLPs, toRLP_toItem i, toRLPs_toItems l]
end

mutual
theorem small_toItem (i : RLP) : i.toItem.Small := by
  cases i with
  | data s => exact trivial
  | list l => exact smalls_toItems l

theorem smalls_toItems (l : List RLP) : Item.Smalls (toItems l) := by
  cases l with
  | nil => exact trivial
  | cons i l => exact ⟨small_toItem i, smalls_toItems l⟩
end

end RLP

namespace RLPView

/-- The items that a view holds: one, or none if it is null. -/
def traverse : (fuel : ℕ) → RLPView → Except RLPException (List RLP)
  | 0, _ => .error .nontermination
  | fuel + 1, r =>
    if isList r.content then do
      let items ← (← elements fuel r).mapM (traverse fuel)
      return [.list items.flatten]
    else if isData r.content then do return [.data (← r.toBytes LaissezFaire)]
    else return []

/-- `RLP(b, VeryStrict)`, fully traversed. -/
def readAll (fuel : ℕ) (b : Bytes) : Except RLPException (List RLP) := do
  traverse fuel (← construct (ofBytes b) VeryStrict)

theorem encodeItems_of_mapM {f : RLPView → Except RLPException (List RLP)} {rs : List RLPView}
    {ys : List (List RLP)}
    (hf : ∀ r ∈ rs, ∀ x, f r = .ok x → ∃ i, x = [i] ∧ i.encode = r.content)
    (h : rs.mapM f = .ok ys) : RLP.encodeItems ys.flatten = (rs.map content).flatten := by
  induction rs generalizing ys with
  | nil =>
    rw [List.mapM_nil] at h
    cases h
    rfl
  | cons r rs ih =>
    rw [List.mapM_cons] at h
    cases hx : f r with
    | error e =>
      rw [hx] at h
      cases h
    | ok x =>
      rw [hx, ok_bind] at h
      cases hy : rs.mapM f with
      | error e =>
        rw [hy] at h
        cases h
      | ok ys' =>
        rw [hy, ok_bind] at h
        cases h
        obtain ⟨i, rfl, hi⟩ := hf r List.mem_cons_self x hx
        have ih := ih (fun r hr => hf r (List.mem_cons_of_mem _ hr)) hy
        rw [List.flatten_cons, List.map_cons, List.flatten_cons, List.singleton_append,
          RLP.encodeItems, hi, ih]

/-- The item that a view of one item holds is written as the view's bytes. -/
theorem encode_of_traverse {fuel : ℕ} {r : RLPView} {off len : ℕ} (hr : r.Single off len)
    {x : List RLP} (h : traverse fuel r = .ok x) : ∃ i, x = [i] ∧ i.encode = r.content := by
  induction fuel generalizing r off len x with
  | zero => cases h
  | succ fuel ih =>
    have hlen : off + len = r.content.length := hr.size.trans hr.points.length_content.symm
    unfold traverse at h
    by_cases hl : isList r.content = true
    · rw [if_pos hl, hr.elements_eq hl] at h
      cases hrs : (advance (r.m_data.back off) >>= collect r.end_ fuel) with
      | error e =>
        rw [hrs] at h
        cases h
      | ok rs =>
        rw [hrs, ok_bind] at h
        cases hys : rs.mapM (traverse fuel) with
        | error e =>
          rw [hys] at h
          cases h
        | ok ys =>
          rw [hys] at h
          cases h
          obtain ⟨ht, hall⟩ := tiled_of_collect (hr.points.back off) hr.ends hrs
          refine ⟨_, rfl, ?_⟩
          rw [RLP.encode, encodeItems_of_mapM (fun r' hr' x hx => ?_) hys, ht.flatten,
            hr.content_payload, RLP.appendList_of_extent hr.extent hl hlen]
          obtain ⟨off', len', hs⟩ := hall r' hr'
          exact ih hs hx
    · rw [if_neg hl] at h
      have hd : isData r.content = true := by
        have hor := isData_or_isList (extent_ne_nil hr.extent)
        rw [eq_false_of_ne_true hl, Bool.or_false] at hor
        exact hor
      rw [if_pos hd, hr.toBytes_eq hd] at h
      cases h
      exact ⟨_, rfl, RLP.appendData_of_extent hr.extent hd hlen⟩

/-- What was read is written as it was. -/
theorem writeItems_of_readAll {fuel : ℕ} {b : Bytes} {x : List RLP} (h : readAll fuel b = .ok x) :
    writeItems (RLP.toItems x) empty = .ok ⟨b, []⟩ := by
  unfold readAll at h
  cases hc : construct (ofBytes b) VeryStrict with
  | error e =>
    rw [hc] at h
    cases h
  | ok r =>
    rw [hc, ok_bind] at h
    obtain ⟨rfl, hr⟩ := construct_ok (ofBytes_points b) hc
    cases hr with
    | inl h0 =>
      have hb : b = [] := List.length_eq_zero_iff.mp h0
      subst hb
      cases fuel with
      | zero => cases h
      | succ fuel =>
        cases h
        rfl
    | inr hr =>
      obtain ⟨off, len, hext, hsize⟩ := hr
      obtain ⟨i, rfl, hi⟩ := encode_of_traverse ⟨ofBytes_points b, hext, hsize⟩ h
      have hb : i.encode = b := hi.trans (content_ofBytes b)
      have hlt := RLP.extent_lt hext
      have hw : write i.toItem empty = .ok ⟨b, []⟩ := by
        have hlen : i.toItem.toRLP.encode.length < 2 ^ 64 := by
          rw [RLP.toRLP_toItem, hb]
          exact lt_of_eq_of_lt hsize.symm hlt
        rw [write_empty (RLP.small_toItem i) hlen, RLP.toRLP_toItem, hb]
      show (write i.toItem empty >>= fun s => Except.ok s) = _
      rw [hw]
      rfl

/-- There is one way to write what was read, so no other string is read the same. -/
theorem readAll_canonical {fuel : ℕ} {b : Bytes} {x : List RLP} (h : readAll fuel b = .ok x) :
    writeItems (RLP.toItems x) empty = .ok ⟨b, []⟩ ∧
      ∀ n c, readAll n c = .ok x → c = b := by
  refine ⟨writeItems_of_readAll h, fun n c hc => ?_⟩
  have hw := writeItems_of_readAll hc
  rw [writeItems_of_readAll h] at hw
  cases hw
  rfl

theorem readAll_canonical_sample :
    writeItems (RLP.toItems [.list [.data [0x01], .list [], .data [0x80]]]) empty =
        .ok ⟨[0xc4, 0x01, 0xc0, 0x81, 0x80], []⟩ ∧
      ∀ n c, readAll n c = .ok [.list [.data [0x01], .list [], .data [0x80]]] →
        c = [0xc4, 0x01, 0xc0, 0x81, 0x80] :=
  @readAll_canonical 9 _ _ rfl

end RLPView
end Aleth.Devcore
