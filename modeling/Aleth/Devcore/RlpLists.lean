import Aleth.Devcore.RlpFields

/-! Writing a list item by item (`RLPStream::appendList(size_t)`, then `append`).

A call `Writes` an item when it puts its bytes behind the others and notes one
item. As many such calls as the list was announced with give the list
(`calls_list`), which is read with the same items. -/
namespace Aleth.Devcore
open RLP (extent)
open RLPView BytesConstRef

/-! ### Writing items one after another -/

namespace RLPStream

/-- `append(unsigned)`: what the argument is converted to. -/
def appendUnsigned (i : ℕ) : RLPStream → Except RLPException RLPStream := appendInt (i % 2 ^ 32)

/-- Appending is putting the bytes behind the others and noting one item. -/
def Writes (f : RLPStream → Except RLPException RLPStream) (e : Bytes) : Prop :=
  ∀ s, f s = noteAppended 1 {s with m_out := s.m_out ++ e}

theorem writes_append {d : Bytes} (h : d.length < 2 ^ 64) : Writes (append d false) (appendData d) :=
  append_eq h

theorem writes_appendInt {i : ℕ} (h : bytesRequired i < 2 ^ 32) :
    Writes (appendInt i) (appendData (toCompactBigEndian i)) := appendInt_eq h

theorem writes_appendRaw (d : Bytes) : Writes (appendRaw d 1) d := fun _ => rfl

/-- Calls one after the other. -/
def calls (fs : List (RLPStream → Except RLPException RLPStream)) (s : RLPStream) :
    Except RLPException RLPStream :=
  fs.foldlM (fun s f => f s) s

theorem calls_nil (s : RLPStream) : calls [] s = .ok s := rfl

theorem calls_cons (f : RLPStream → Except RLPException RLPStream)
    (fs : List (RLPStream → Except RLPException RLPStream)) (s : RLPStream) :
    calls (f :: fs) s = f s >>= calls fs := rfl

theorem calls_append (fs gs : List (RLPStream → Except RLPException RLPStream)) (s : RLPStream) :
    calls (fs ++ gs) s = calls fs s >>= calls gs := List.foldlM_append

variable {fs : List (RLPStream → Except RLPException RLPStream)} {es : List Bytes}

theorem calls_eq (h : List.Forall₂ Writes fs es) (hne : fs ≠ []) (m_out : Bytes) (p : ℕ)
    (stack : List (ℕ × ℕ)) :
    calls fs ⟨m_out, (fs.length, p) :: stack⟩ =
      complete 1 (m_out ++ es.flatten) ((1, p) :: stack) := by
  induction h generalizing m_out with
  | nil => exact absurd rfl hne
  | @cons f e fs es hf hfs ih =>
    rw [calls_cons, hf, noteAppended_one, List.flatten_cons]
    cases hfs with
    | nil =>
      rw [List.flatten_nil, List.append_nil]
      exact bind_ok _
    | @cons g e' fs es hg hgs =>
      have hone : complete 1 (m_out ++ e) (((f :: g :: fs).length, p) :: stack) =
          .ok ⟨m_out ++ e, ((g :: fs).length, p) :: stack⟩ := by
        rw [complete, List.length_cons, if_neg (by omega), if_pos (by simp), Nat.add_sub_cancel]
      show (complete 1 (m_out ++ e) _ >>= _) = _
      rw [hone, ok_bind, ih (List.cons_ne_nil _ _), List.append_assoc]

/-- A list of as many items as it was announced with is written as an item. -/
theorem writes_list (h : List.Forall₂ Writes fs es) (hne : fs ≠ [])
    (hlen : es.flatten.length < 2 ^ 64) :
    Writes (fun s => RLPStream.appendList fs.length s >>= calls fs)
      (Devcore.appendList es.flatten) := by
  intro s
  have h0 : fs.length ≠ 0 := fun h0 => hne (List.length_eq_zero_iff.mp h0)
  show (RLPStream.appendList fs.length s >>= calls fs) = _
  rw [RLPStream.appendList, if_pos h0, ok_bind, calls_eq h hne]
  exact complete_list hlen s.m_out s.m_listStack

/-- As many calls as the list was announced with give the list. -/
theorem calls_list (h : List.Forall₂ Writes fs es) (hne : fs ≠ [])
    (hlen : es.flatten.length < 2 ^ 64) :
    (RLPStream.appendList fs.length empty >>= calls fs) =
      .ok ⟨Devcore.appendList es.flatten, []⟩ := writes_list h hne hlen empty

theorem listHeader_ok {n : ℕ} {e : Bytes} (h : listHeader n = .ok e) : n < 2 ^ 64 := by
  unfold listHeader at h
  by_contra hge
  have hbr : ¬bytesRequired n ≤ 8 := fun hle =>
    hge ((lt_pow_bytesRequired n).trans_le ((Nat.pow_le_pow_right (by norm_num) hle).trans_eq
      (by norm_num)))
  rw [if_neg (by unfold c_rlpImmLenCount; omega),
    if_neg (by unfold c_rlpListIndLenZero; omega)] at h
  cases h

/-- A list that was written is not too long for its header. -/
theorem calls_list_ok (h : List.Forall₂ Writes fs es) (hne : fs ≠ []) {s : RLPStream}
    (hs : (RLPStream.appendList fs.length empty >>= calls fs) = .ok s) :
    es.flatten.length < 2 ^ 64 ∧ s = ⟨Devcore.appendList es.flatten, []⟩ := by
  suffices hlen : es.flatten.length < 2 ^ 64 by
    rw [calls_list h hne hlen] at hs
    cases hs
    exact ⟨hlen, rfl⟩
  have h0 : fs.length ≠ 0 := fun h0 => hne (List.length_eq_zero_iff.mp h0)
  rw [RLPStream.appendList, if_pos h0, ok_bind, calls_eq h hne, complete, if_neg (by omega),
    if_neg (by omega)] at hs
  obtain ⟨e, he, -⟩ := bind_eq_ok.mp hs
  exact listHeader_ok he

/-- A string that is too long for a 64-bit size is not written as an item. -/
theorem append_long {d : Bytes} (h : 2 ^ 64 ≤ d.length) :
    (∃ e : Bytes, d.length ≤ e.length ∧ Writes (append d false) e) ∨
      ∀ s, ∃ e, append d false s = .error e := by
  have hone : ¬(d.length = 1 ∧ d.headD 0 < UInt8.ofNat c_rlpDataImmLenStart) := fun hone => by
    omega
  have himm : ¬d.length < c_rlpImmLenCount := by
    unfold c_rlpImmLenCount
    omega
  have happ : ∀ s, append d false s = (pushCount d.length c_rlpDataIndLenZero s >>= fun s =>
      appendRaw d 0 s >>= noteAppended 1) := by
    intro s
    unfold append
    simp only [Bool.false_eq_true, if_false]
    rw [if_neg hone, pushHeader, if_neg himm]
  by_cases hbr : 0xff < bytesRequired d.length + c_rlpDataIndLenZero
  · refine .inr fun s => ⟨.countTooLarge, ?_⟩
    rw [happ, pushCount, if_pos hbr]
    rfl
  · refine .inl ⟨UInt8.ofNat (bytesRequired d.length + c_rlpDataIndLenZero) ::
      toCompactBigEndian d.length ++ d, ?_, fun s => ?_⟩
    · rw [List.length_append]
      exact Nat.le_add_left _ _
    · rw [happ, pushCount, if_neg hbr, pushInt_eq (lt_pow_bytesRequired d.length)]
      show noteAppended 1 ⟨_, _⟩ = noteAppended 1 ⟨_, _⟩
      simp [pushByte, toCompactBigEndian]

theorem calls_error {f : RLPStream → Except RLPException RLPStream} (hf : f ∈ fs)
    (h : ∀ s, ∃ e, f s = .error e) {s t : RLPStream} : calls fs s ≠ .ok t := by
  intro hok
  induction fs generalizing s with
  | nil => cases hf
  | cons g fs ih =>
    rw [calls_cons] at hok
    obtain ⟨u, hu, hok⟩ := bind_eq_ok.mp hok
    cases List.mem_cons.mp hf with
    | inl e =>
      obtain ⟨x, hx⟩ := h s
      rw [← e, hx] at hu
      cases hu
    | inr hf => exact ih hf hok

theorem writes_middle {gs hs : List (RLPStream → Except RLPException RLPStream)}
    {f : RLPStream → Except RLPException RLPStream} {es ks : List Bytes} {e : Bytes}
    (hg : List.Forall₂ Writes gs es) (hf : Writes f e) (hh : List.Forall₂ Writes hs ks) :
    List.Forall₂ Writes (gs ++ f :: hs) (es ++ e :: ks) := by
  induction hg with
  | nil => exact .cons hf hh
  | cons h _ ih => exact .cons h ih

theorem length_le_of_mem_flatten {x : Bytes} {xs : List Bytes} (h : x ∈ xs) :
    x.length ≤ xs.flatten.length :=
  (List.sublist_flatten_of_mem h).length_le

/-- A list with a string of any length among its items: what is written, if it is not too long. -/
theorem calls_list_eq_ok {gs hs : List (RLPStream → Except RLPException RLPStream)}
    {es ks : List Bytes} (hg : List.Forall₂ Writes gs es) (d : Bytes)
    (hh : List.Forall₂ Writes hs ks) {b : Bytes} :
    ((RLPStream.appendList (gs ++ append d false :: hs).length empty >>=
        calls (gs ++ append d false :: hs)) >>= out) = .ok b ↔
      (es ++ appendData d :: ks).flatten.length < 2 ^ 64 ∧
        b = Devcore.appendList (es ++ appendData d :: ks).flatten := by
  have hne : gs ++ append d false :: hs ≠ [] := by simp
  rw [bind_eq_ok]
  constructor
  · rintro ⟨s, hs, hout⟩
    by_cases hlen : d.length < 2 ^ 64
    · obtain ⟨hfit, rfl⟩ := calls_list_ok (writes_middle hg (writes_append hlen) hh) hne hs
      cases hout
      exact ⟨hfit, rfl⟩
    · exfalso
      cases append_long (not_lt.mp hlen) with
      | inl hwrites =>
        obtain ⟨e, he, hwrites⟩ := hwrites
        obtain ⟨hfit, -⟩ := calls_list_ok (writes_middle hg hwrites hh) hne hs
        have hmem : e ∈ es ++ e :: ks := by simp
        have hle := length_le_of_mem_flatten hmem
        omega
      | inr herror =>
        obtain ⟨t, -, ht⟩ := bind_eq_ok.mp hs
        exact calls_error (by simp) herror ht
  · rintro ⟨hfit, rfl⟩
    have hmem : appendData d ∈ es ++ appendData d :: ks := by simp
    have hle := length_le_of_mem_flatten hmem
    have hd := RLP.appendData_length_le d
    exact ⟨_, calls_list (writes_middle hg (writes_append (by omega)) hh) hne hfit, rfl⟩

end RLPStream

/-! ### How long an item is -/

theorem length_appendData_le {s : Bytes} (h : s.length < 56) :
    (appendData s).length ≤ s.length + 1 := by
  rw [RLP.appendData_eq, List.length_append]
  have hh : (RLP.dataHeader s).length ≤ 1 := by
    unfold RLP.dataHeader
    split
    · split
      · exact Nat.zero_le 1
      · exact le_refl 1
    · rw [RLP.header_short _ _ h]
      exact le_refl 1
  omega

theorem length_numberItem_le {n k : ℕ} (h : bytesRequired n ≤ k) (hk : k < 56) :
    (numberItem n).length ≤ k + 1 := by
  have hlen := toCompactBigEndian_length n
  have hle := length_appendData_le (s := toCompactBigEndian n) (by omega)
  unfold numberItem
  omega

/-! ### One way to write a list -/

theorem bytesRequired_mono {i j : ℕ} (h : i ≤ j) : bytesRequired i ≤ bytesRequired j :=
  bytesRequired_le (h.trans_lt (lt_pow_bytesRequired j))

theorem length_header_mono {immStart indZero i j : ℕ} (h : i ≤ j) :
    (header immStart indZero i).length ≤ (header immStart indZero j).length := by
  have hmono := bytesRequired_mono h
  unfold header
  split
  · split
    · exact le_refl _
    · simp
  · rw [if_neg (by omega)]
    simpa using hmono

theorem appendList_injective {p q : Bytes} (h : appendList p = appendList q) : p = q := by
  have hlen := congrArg List.length h
  unfold appendList at h hlen
  rw [List.length_append, List.length_append] at hlen
  have heq : p.length = q.length := by
    rcases lt_trichotomy p.length q.length with hlt | heq | hlt
    · have hmono : (header c_rlpListStart c_rlpListIndLenZero p.length).length ≤
          (header c_rlpListStart c_rlpListIndLenZero q.length).length := length_header_mono hlt.le
      omega
    · exact heq
    · have hmono : (header c_rlpListStart c_rlpListIndLenZero q.length).length ≤
          (header c_rlpListStart c_rlpListIndLenZero p.length).length := length_header_mono hlt.le
      omega
  exact (List.append_inj' h heq).2

theorem isList_appendList {p : Bytes} (h : p.length < 2 ^ 64) :
    isList (appendList p) = true := by
  have hbr : bytesRequired p.length ≤ 8 := bytesRequired_le (by omega)
  have hhead := @RLP.head_header c_rlpListStart c_rlpListIndLenZero p.length p
  rw [isList, appendList, hhead, Option.any_some, decide_eq_true_eq]
  split
  case isTrue hlt =>
    unfold c_rlpImmLenCount at hlt
    rw [RLP.toNat_ofNat (by unfold c_rlpListStart; omega)]
    exact Nat.le_add_right _ _
  case isFalse =>
    rw [RLP.toNat_ofNat (by unfold c_rlpListIndLenZero; omega)]
    unfold c_rlpListStart c_rlpListIndLenZero
    omega

theorem isData_appendList {p : Bytes} (h : p.length < 2 ^ 64) :
    isData (appendList p) = false := by
  have hl := isList_appendList h
  cases hp : appendList p with
  | nil => rfl
  | cons b rest =>
    rw [hp] at hl
    have hb : c_rlpListStart ≤ b.toNat := of_decide_eq_true hl
    exact decide_eq_false (not_lt.mpr hb)

/-! ### Strings that were written -/

/-- The length that a header tells is below the bound that the reader checks. -/
theorem extent_fits {d : Bytes} {off len : ℕ} (h : extent d = some (off, len)) :
    len < 2 ^ 64 - 1 - 0x100 := by
  cases d with
  | nil => cases h
  | cons b rest =>
    have hb := b.toNat_lt
    have hlong : ∀ {n : ℕ}, (RLP.explicitLength b.toNat rest).map (fun l => (n, l)) =
        some (off, len) → len < 2 ^ 64 - 1 - 0x100 := by
      intro n he
      obtain ⟨l, hl, he⟩ := Option.map_eq_some_iff.mp he
      cases he
      exact (RLP.explicit_of_some hl).max
    unfold extent at h
    dsimp only at h
    split at h
    · cases h
      norm_num
    · split at h
      · cases h
      · split at h
        · cases h
          omega
        · split at h
          · exact hlong h
          · split at h
            · cases h
              omega
            · exact hlong h

theorem converts_toBytes :
    Converts (fun r => toBytes r VeryStrict) appendData fun b => b.length < 2 ^ 64 - 1 - 0x100 where
  null {r a} h hok := by
    unfold toBytes at hok
    rw [show isData r.content = false by rw [h]; rfl] at hok
    cases hok
  written {r off len a} hs h := by
    by_cases hd : isData r.content = true
    · rw [hs.toBytes_eq hd] at h
      cases h
      have hfits := extent_fits hs.extent
      have hlen := hs.length_eq
      refine ⟨hs.content_eq hd, ?_⟩
      rw [List.length_drop]
      omega
    · unfold toBytes at h
      rw [eq_false_of_ne_true hd] at h
      cases h
  read hs hc hb := by
    obtain ⟨hd, hdrop⟩ := hs.of_appendData hc hb
    rw [hs.toBytes_eq hd, hdrop]

theorem appendData_injective {s t : Bytes} (hs : s.length < 2 ^ 64 - 1 - 0x100)
    (ht : t.length < 2 ^ 64 - 1 - 0x100) (h : appendData s = appendData t) : s = t := by
  have hes := RLP.extent_data s [] hs
  have het := RLP.extent_data t [] ht
  rw [h, het] at hes
  have hlen : (RLP.dataHeader t).length = (RLP.dataHeader s).length :=
    congrArg Prod.fst (Option.some.inj hes)
  rw [RLP.appendData_eq, RLP.appendData_eq] at h
  exact (List.append_inj h hlen.symm).2

theorem numberItem_injective {m n : ℕ} (hm : bytesRequired m ≤ 32) (hn : bytesRequired n ≤ 32)
    (h : numberItem m = numberItem n) : m = n := by
  have hc := appendData_injective (by rw [toCompactBigEndian_length]; omega)
    (by rw [toCompactBigEndian_length]; omega) h
  rw [← fromBigEndian_toCompactBigEndian m, hc, fromBigEndian_toCompactBigEndian]

/-- The view of a list that was written. -/
theorem single_appendList {p : Bytes} (h : p.length < 2 ^ 64 - 1 - 0x100) :
    ∃ off len, Single ⟨ofBytes (appendList p)⟩ off len ∧ (appendList p).drop off = p := by
  have hext := RLP.extent_list p [] h
  rw [List.append_nil] at hext
  refine ⟨_, _, ⟨ofBytes_points _, (congrArg extent (content_ofBytes _)).trans hext, ?_⟩, ?_⟩
  · exact List.length_append.symm
  · exact List.drop_left

/-- A view of a written list. -/
theorem RLPView.Single.of_appendList {r : RLPView} {off len : ℕ} (hs : r.Single off len) {p : Bytes}
    (hc : r.content = appendList p) (hp : p.length < 2 ^ 64 - 1 - 0x100) :
    isList r.content = true ∧ r.content.drop off = p := by
  have hext := RLP.extent_list p [] hp
  rw [List.append_nil, ← hc, hs.extent] at hext
  cases hext
  refine ⟨hc ▸ isList_appendList (by omega), ?_⟩
  rw [hc]
  exact List.drop_left

/-- What follows an item does not change it. -/
theorem extent_append {x : Bytes} {off len : ℕ} (h : extent x = some (off, len))
    (hlen : off + len = x.length) (d : Bytes) : extent (x ++ d) = some (off, len) := by
  have hfit := extent_fits h
  have hdrop : (x.drop off).length = len := by
    rw [List.length_drop]
    omega
  by_cases hd : isData x = true
  · have hx := RLP.appendData_of_extent h hd hlen
    have he := RLP.extent_data (x.drop off) [] (hdrop ▸ hfit)
    have he' := RLP.extent_data (x.drop off) d (hdrop ▸ hfit)
    rw [List.append_nil, hx, h] at he
    rw [hx, ← he] at he'
    exact he'
  · have hor := isData_or_isList (extent_ne_nil h)
    rw [eq_false_of_ne_true hd, Bool.false_or] at hor
    have hx := RLP.appendList_of_extent h hor hlen
    have he := RLP.extent_list (x.drop off) [] (hdrop ▸ hfit)
    have he' := RLP.extent_list (x.drop off) d (hdrop ▸ hfit)
    rw [List.append_nil, hx, h] at he
    rw [hx, ← he] at he'
    exact he'

/-- Strings that were written one after another. -/
theorem begins_appendData {ss : List Bytes} (h : ∀ s ∈ ss, s.length < 2 ^ 64 - 1 - 0x100)
    (tail : Bytes) : Begins ((ss.map appendData).flatten ++ tail) (ss.map appendData) tail := by
  induction ss with
  | nil => exact .nil tail
  | cons s ss ih =>
    rw [List.map_cons, List.flatten_cons, List.append_assoc]
    refine .cons (RLP.extent_data s _ (h s List.mem_cons_self)) ?_
      (ih fun t ht => h t (List.mem_cons_of_mem s ht))
    rw [RLP.appendData_eq, List.length_append]

theorem begins_flatten {xs : List Bytes}
    (h : ∀ x ∈ xs, ∃ off len, extent x = some (off, len) ∧ off + len = x.length) :
    Begins xs.flatten xs [] := by
  induction xs with
  | nil => exact .nil []
  | cons x xs ih =>
    obtain ⟨off, len, hx, hlen⟩ := h x List.mem_cons_self
    exact .cons (extent_append hx hlen _) hlen (ih fun y hy => h y (List.mem_cons_of_mem x hy))

/-! ### A list with something behind it -/

namespace RLPView
variable {p padding : Bytes} {xs : List Bytes} {rest : Bytes} {i : ℕ}

/-- A list that is longer than its items say. -/
def padded (p padding : Bytes) : RLPView := ⟨ofBytes (Devcore.appendList p ++ padding)⟩

theorem item_congr {r s : RLPView} (h : r.payload = s.payload) : item r i = item s i := by
  rw [item, item, h]

theorem extent_padded (hp : p.length < 2 ^ 64 - 1 - 0x100) :
    ∃ off, off + p.length = (Devcore.appendList p).length ∧
      extent (padded p padding).content = some (off, p.length) := by
  refine ⟨_, ?_, (congrArg extent (content_ofBytes _)).trans (RLP.extent_list p padding hp)⟩
  exact List.length_append.symm

/-- What is behind the list is not looked at. -/
theorem padded_item (hp : p.length < 2 ^ 64 - 1 - 0x100) :
    ∃ r : RLPView, (∃ off len, r.Single off len ∧ r.content.drop off = p) ∧
      ∀ i, item (padded p padding) i = item r i := by
  obtain ⟨off, hoff, hext⟩ := @extent_padded p padding hp
  generalize hk : (Devcore.appendList p).length = k at hoff
  have hcount : k ≤ (padded p padding).m_data.m_count := by
    show _ ≤ (Devcore.appendList p ++ padding).length
    rw [List.length_append, hk]
    exact Nat.le_add_right _ _
  have hc : content ⟨(padded p padding).m_data.front k⟩ = Devcore.appendList p := by
    show ((padded p padding).m_data.front _).content = _
    rw [content_front hcount, show (padded p padding).m_data.content = _ from content_ofBytes _,
      ← hk, List.take_left]
  have hext' := RLP.extent_list p [] hp
  have hlen : (header c_rlpListStart c_rlpListIndLenZero p.length).length + p.length = k :=
    hk ▸ List.length_append.symm
  rw [List.append_nil, show (header c_rlpListStart c_rlpListIndLenZero p.length).length = off by
    omega, ← hc] at hext'
  have hs : Single ⟨(padded p padding).m_data.front k⟩ off p.length :=
    ⟨(ofBytes_points _).front hcount, hext', hoff⟩
  refine ⟨_, ⟨off, p.length, hs, (hs.of_appendList hc hp).2⟩, fun i => item_congr ?_⟩
  have hfit : off + p.length ≤ (padded p padding).m_data.m_count := hoff ▸ hcount
  have hfront := hs.size.le
  unfold payload
  rw [length_of_extent hext, ok_bind, payloadOffset_of_extent hext, if_neg (by omega),
    length_of_extent hs.extent, ok_bind, payloadOffset_of_extent hs.extent,
    if_neg (Nat.not_lt.mpr ((Nat.le_add_left _ _).trans hfront)), cropped,
    if_pos ⟨rfl, by omega, by omega, hfit⟩, cropped, if_pos ⟨rfl, by omega, by omega, hfront⟩]
  rfl

theorem construct_padded (hp : p.length < 2 ^ 64 - 1 - 0x100) :
    construct (ofBytes (Devcore.appendList p ++ padding))
      {throwOnFail := true, failIfTooSmall := true} = .ok (padded p padding) := by
  obtain ⟨off, hoff, hext⟩ := @extent_padded p padding hp
  rw [construct_eq_checkTooSmall]
  refine checkTooSmall_of_extent hext ?_
  show _ ≤ (Devcore.appendList p ++ padding).length
  rw [List.length_append]
  omega

theorem isList_padded (padding : Bytes) (hp : p.length < 2 ^ 64) :
    isList (Devcore.appendList p ++ padding) = true := by
  have hlist := isList_appendList hp
  cases h : Devcore.appendList p with
  | nil =>
    rw [h] at hlist
    cases hlist
  | cons b rest =>
    rw [h] at hlist
    exact hlist

/-- The items of a list are counted, whatever follows it. -/
theorem padded_itemCount (hp : p.length < 2 ^ 64 - 1 - 0x100) (hb : Begins p xs []) :
    itemCount (padded p padding).enough (padded p padding) = .ok xs.length := by
  obtain ⟨off, hoff, hext⟩ := @extent_padded p padding hp
  have hcontent : (padded p padding).content = Devcore.appendList p ++ padding :=
    content_ofBytes _
  have hcount : off + p.length ≤ (padded p padding).m_data.m_count := by
    show _ ≤ (Devcore.appendList p ++ padding).length
    rw [hoff, List.length_append]
    exact Nat.le_add_right _ _
  have hpoints : (padded p padding).m_data.Points := ofBytes_points _
  have hfront : p.length ≤ ((padded p padding).m_data.back off).m_count :=
    Nat.le_sub_of_add_le' hcount
  have hpayload : (padded p padding).payload =
      .ok (((padded p padding).m_data.back off).front p.length) := by
    unfold payload
    rw [length_of_extent hext, ok_bind, payloadOffset_of_extent hext, if_neg (by omega), cropped,
      if_pos ⟨hpoints.address, by omega, by omega, hcount⟩]
    rfl
  have hitems : (((padded p padding).m_data.back off).front p.length).content = p := by
    rw [content_front hfront, content_back,
      show (padded p padding).m_data.content = _ from hcontent]
    unfold Devcore.appendList at hoff ⊢
    rw [List.length_append, Nat.add_right_cancel_iff] at hoff
    rw [List.append_assoc, List.drop_left' hoff.symm, List.take_left]
  have hle := Begins.length_le hb
  unfold itemCount
  rw [if_pos (hcontent ▸ isList_padded padding (by omega)), hpayload, ok_bind]
  exact countItems_of_tiled hb.tiled hitems ((hpoints.back off).front hfront)
    (by unfold enough; omega)

theorem padded_toHash (hp : p.length < 2 ^ 64 - 1 - 0x100) (hb : Begins p xs rest) {N : ℕ}
    {b : Bytes} (hi : xs[i]? = some (appendData b)) (hN : b.length = N)
    (hfit : b.length < 2 ^ 64 - 1 - 0x100) (flags : Strictness) :
    (item (padded p padding) i >>= fun r => r.toHash N flags) = .ok b := by
  obtain ⟨r, ⟨off, len, hs, hdrop⟩, hitem⟩ := @padded_item p padding hp
  obtain ⟨v, hv, hc, off', len', hsv⟩ := hs.item_of_getElem (hdrop ▸ hb) hi
  obtain ⟨hd, hbytes⟩ := hsv.of_appendData hc hfit
  rw [hitem, hv, ok_bind]
  exact toHash_encode hsv hd hbytes hN flags

theorem padded_toInt (hp : p.length < 2 ^ 64 - 1 - 0x100) (hb : Begins p xs rest) {maxSize n : ℕ}
    (hi : xs[i]? = some (numberItem n)) (hn : bytesRequired n ≤ maxSize) (hmax : maxSize < 2 ^ 32) :
    (item (padded p padding) i >>= fun r => r.toIntOf maxSize Strict) = .ok n := by
  obtain ⟨r, ⟨off, len, hs, hdrop⟩, hitem⟩ := @padded_item p padding hp
  obtain ⟨v, hv, hc, off', len', hsv⟩ := hs.item_of_getElem (hdrop ▸ hb) hi
  rw [hitem, hv, ok_bind]
  exact (converts_toIntOf maxSize hmax).read hsv hc hn

/-- Behind the last item there is no number. -/
theorem padded_toInt_end (hp : p.length < 2 ^ 64 - 1 - 0x100) (hb : Begins p xs []) {maxSize : ℕ}
    (hi : xs.length ≤ i) :
    ∃ e, (item (padded p padding) i >>= fun r => r.toIntOf maxSize Strict) = .error e := by
  obtain ⟨r, ⟨off, len, hs, hdrop⟩, hitem⟩ := @padded_item p padding hp
  obtain ⟨v, hv, hc⟩ := hs.item_end (hdrop ▸ hb) hi
  refine ⟨.badRLP, ?_⟩
  rw [hitem, hv, ok_bind]
  exact toIntOf_null hc Strict

/-- A string that is longer than the hash. -/
theorem padded_toHash_big (hp : p.length < 2 ^ 64 - 1 - 0x100) (hb : Begins p xs rest) {N : ℕ}
    {b : Bytes} (hi : xs[i]? = some (appendData b)) (hN : N < b.length)
    (hfit : b.length < 2 ^ 64 - 1 - 0x100) :
    (item (padded p padding) i >>= fun r => r.toHash N Strict) = .error .badCast := by
  obtain ⟨r, ⟨off, len, hs, hdrop⟩, hitem⟩ := @padded_item p padding hp
  obtain ⟨v, hv, hc, off', len', hsv⟩ := hs.item_of_getElem (hdrop ▸ hb) hi
  obtain ⟨hd, hbytes⟩ := hsv.of_appendData hc hfit
  have hcount := hsv.payload_count
  rw [hbytes] at hcount
  rw [hitem, hv, ok_bind, toHash, hsv.requireGood_eq, ok_bind, hsv.payload_eq, ok_bind, hd, hcount,
    decide_eq_true hN]
  rfl

end RLPView

end Aleth.Devcore
