import Aleth.Libp2p.ENR

/-! When a node record is parsed exactly.

A parsed record is the received one if that is a list in which every key has a
value and the sequence number fits in 32 bits. Whether a record that is not so
is accepted is up to the verification; keys that repeat at the end are compared
with what is behind the map in any case (`parseBytes_exact_iff`). -/
namespace Aleth.P2p
open Devcore
open RLP (extent)
open RLPView BytesConstRef
open ENR (wire readItems)

/-- The item is one item, no more and no less. -/
def IsItem (x : Bytes) : Prop := ∃ off len, extent x = some (off, len) ∧ off + len = x.length

/-! ### Reading and writing -/

theorem Paired.flatten {xs : List Bytes} {kvs : List (Bytes × Bytes)} (h : Paired xs kvs) :
    xs.flatten = (kvs.flatMap fun kv => [appendData kv.1, kv.2]).flatten := by
  induction h with
  | nil => rfl
  | last k => simp
  | pair k v h ih => simp [ih]

/-- A value is one of the items, or missing. -/
theorem Paired.valued {xs : List Bytes} {kvs : List (Bytes × Bytes)} (h : Paired xs kvs) :
    ∀ kv ∈ kvs, kv.2 = [] ∨ kv.2 ∈ xs := by
  induction h with
  | nil => exact nofun
  | last k =>
    intro kv hkv
    rw [List.mem_singleton.mp hkv]
    exact .inl rfl
  | pair k v h ih =>
    intro kv hkv
    rcases List.mem_cons.mp hkv with rfl | hkv
    · exact .inr (by simp)
    · exact (ih kv hkv).imp_right fun hx => by simp [hx]

theorem paired_wire (kvs : List (Bytes × Bytes)) :
    Paired (kvs.flatMap fun kv => [appendData kv.1, kv.2]) kvs := by
  induction kvs with
  | nil => exact .nil
  | cons kv kvs ih => exact .pair kv.1 kv.2 ih

theorem isItem_appendData {s : Bytes} (h : s.length < 2 ^ 64 - 1 - 0x100) :
    IsItem (appendData s) := by
  have hext := RLP.extent_data s [] h
  rw [List.append_nil] at hext
  refine ⟨_, _, hext, ?_⟩
  rw [RLP.appendData_eq, List.length_append]

theorem not_isItem_nil : ¬IsItem [] := by
  rintro ⟨off, len, h, -⟩
  cases h

theorem single_appendData {p : Bytes} (h : p.length < 2 ^ 64 - 1 - 0x100) :
    ∃ off len, Single ⟨ofBytes (appendData p)⟩ off len := by
  obtain ⟨off, len, hext, hlen⟩ := isItem_appendData h
  exact ⟨off, len, ofBytes_points _, (congrArg extent (content_ofBytes _)).trans hext, hlen⟩

section Reads
variable {b sig : Bytes} {seq : UInt64} {kvs : List (Bytes × Bytes)}

theorem Reads.single (h : Reads b sig seq kvs) : ∃ off len, Single ⟨ofBytes b⟩ off len := by
  cases h with
  | list hp hb hx =>
    obtain ⟨off, len, hs, -⟩ := single_appendList hp
    exact ⟨off, len, hs⟩
  | string hp hb => exact single_appendData hp

theorem construct_of_single {off len : ℕ} (hs : Single ⟨ofBytes b⟩ off len) :
    construct (ofBytes b) VeryStrict = .ok ⟨ofBytes b⟩ :=
  construct_of_extent hs.extent hs.size

theorem readItems_null : readItems ⟨ofBytes []⟩ = .error .badCast := rfl

/-- What was read of a list is what it was written from. -/
theorem Reads.bytes (h : Reads b sig seq kvs) (hl : isData b = false) :
    b = appendList (appendData sig :: wire seq.toNat kvs).flatten ∧
      ∀ kv ∈ kvs, kv.2 = [] ∨ IsItem kv.2 := by
  cases h with
  | @list payload _ _ xs _ hp hb hx =>
    have hflat := hb.flatten
    rw [List.append_nil, List.flatten_cons, List.flatten_cons, hx.flatten] at hflat
    refine ⟨congrArg appendList hflat, fun kv hkv => (hx.valued kv hkv).imp_right fun hmem => ?_⟩
    exact hb.extent_mem (List.mem_cons_of_mem _ (List.mem_cons_of_mem _ hmem))
  | @string payload _ rest _ hp hb =>
    have hd : isData (appendData payload) = true := (RLP.isData_encode payload hp).1
    rw [hd] at hl
    cases hl

/-- Pairs with values are read as they were written. -/
theorem reads_of_wire (hv : ∀ kv ∈ kvs, IsItem kv.2)
    (hfit : (appendData sig :: wire seq.toNat kvs).flatten.length < 2 ^ 64 - 1 - 0x100) :
    Reads (appendList (appendData sig :: wire seq.toNat kvs).flatten) sig seq kvs := by
  refine .list hfit (begins_flatten fun x hx => ?_) (paired_wire kvs)
  have hle : ∀ {s : Bytes}, appendData s ∈ appendData sig :: wire seq.toNat kvs →
      IsItem (appendData s) := fun {s} hs =>
    isItem_appendData (((RLP.appendData_length_le s).trans (RLPStream.length_le_of_mem_flatten hs)).trans_lt
      hfit)
  rcases List.mem_cons.mp hx with rfl | hmem
  · exact hle hx
  · rcases List.mem_cons.mp hmem with rfl | hmem
    · exact hle hx
    · obtain ⟨kv, hkv, hin⟩ := List.mem_flatMap.mp hmem
      rcases List.mem_cons.mp hin with rfl | hin
      · exact hle hx
      · rw [List.mem_singleton.mp hin]
        exact hv kv hkv

end Reads

/-! ### Exactness -/

namespace ENR

/-- The record is the one in the bytes: a list of its signature, its number and its pairs. -/
structure Received (b : Bytes) (e : ENR) : Prop where
  ascending : Ascending e.m_keyValuePairs.entries
  valued : ∀ kv ∈ e.m_keyValuePairs.entries, IsItem kv.2
  bytes : b = appendList
    (appendData e.m_signature :: wire e.m_seq.toNat e.m_keyValuePairs.entries).flatten

/-- Parsing reads inside the containers, and a record that it accepts is the one in the bytes,
signed over just its number and pairs, and written as it came. -/
def Exact (verify : VerifyFunction) (b : Bytes) : Prop :=
  ∃ result, parseBytes b verify = some result ∧ ∀ e, result = .ok e → Received b e ∧
    verify e.m_keyValuePairs e.m_signature
      (appendList (wire e.m_seq.toNat e.m_keyValuePairs.entries).flatten) = .ok true ∧
    e.rlp = .ok b

/-- A key without a value, a number of more than 32 bits, or no list. -/
def Loose (b : Bytes) (seq : UInt64) (kvs : List (Bytes × Bytes)) : Prop :=
  (∃ kv ∈ kvs, kv.2 = []) ∨ 2 ^ 32 ≤ seq.toNat ∨ isData b = true

/-- The verification takes the pairs, and what their content is written as. -/
def Verifies (verify : VerifyFunction) (sig : Bytes) (seq : UInt64) (kvs : List (Bytes × Bytes)) :
    Prop :=
  verify (SortedMap.empty.insertAll kvs) sig (appendList (wire (seq.toNat % 2 ^ 32) kvs).flatten) =
    .ok true

/-- The item can be read, and its keys repeat at the end or it is loose and verifies. -/
def Defective (verify : VerifyFunction) (b : Bytes) : Prop :=
  b.length ≤ c_ENRMaxSizeBytes ∧ ∃ sig seq kvs, Reads b sig seq kvs ∧
    (Repeats kvs ∨ Ascending kvs ∧ Loose b seq kvs ∧ Verifies verify sig seq kvs)

/-! ### The outcomes -/

section Outcomes
variable {b sig : Bytes} {seq : UInt64} {kvs : List (Bytes × Bytes)} {verify : VerifyFunction}

/-- What parsing does with the pairs it read. -/
def check (verify : VerifyFunction) (sig : Bytes) (seq : UInt64) (kvs : List (Bytes × Bytes)) :
    Option (Except ENRException ENR) :=
  let e : ENR := ⟨seq, SortedMap.empty.insertAll kvs, sig⟩
  match equalRange kvs e.m_keyValuePairs.entries with
  | none => none
  | some false => some (.error .ENRKeysAreNotUniqueSorted)
  | some true => some do
    let content ← e.content.mapError .RLP
    if ← verify e.m_keyValuePairs sig content then return e
    else .error .ENRSignatureIsInvalid

theorem parseBytes_of_reads (h : Reads b sig seq kvs) (hsize : b.length ≤ c_ENRMaxSizeBytes) :
    parseBytes b verify = check verify sig seq kvs := by
  obtain ⟨off, len, hs⟩ := h.single
  have hread : readItems ⟨ofBytes b⟩ = .ok (sig, seq, kvs) := by
    rw [readItems_iff hs, show RLPView.content ⟨ofBytes b⟩ = b from content_ofBytes b]
    exact h
  unfold parseBytes
  rw [construct_of_single hs]
  unfold parse
  dsimp only
  rw [if_neg (show ¬c_ENRMaxSizeBytes < (ofBytes b).m_count from not_lt.mpr hsize), hread]
  rfl

theorem parseBytes_of_not_reads (h : b.length ≤ c_ENRMaxSizeBytes →
    ∀ sig seq kvs, ¬Reads b sig seq kvs) : ∃ x, parseBytes b verify = some (.error x) := by
  unfold parseBytes
  cases hc : construct (ofBytes b) VeryStrict with
  | error x => exact ⟨_, rfl⟩
  | ok r =>
    obtain ⟨hrb, hr⟩ := single_of_construct hc
    unfold parse
    dsimp only
    split
    · exact ⟨_, rfl⟩
    case isFalse hsize =>
      cases hread : readItems r with
      | error x => exact ⟨_, rfl⟩
      | ok x =>
        exfalso
        rcases hr with rfl | ⟨off, len, hs⟩
        · obtain ⟨rfl, -⟩ := construct_ok (ofBytes_points []) hc
          rw [readItems_null] at hread
          cases hread
        · obtain ⟨rfl, -⟩ := construct_ok (ofBytes_points b) hc
          have hreads := (readItems_iff hs).mp hread
          rw [hrb] at hreads
          exact h (not_lt.mp hsize) _ _ _ hreads

theorem check_repeats (h : Repeats kvs) : check verify sig seq kvs = none := by
  unfold check
  dsimp only
  rw [equalRange_repeats.mpr h]

/-- The content that is checked, for pairs that were read. -/
theorem check_ascending (h : Ascending kvs)
    (hfit : (wire (seq.toNat % 2 ^ 32) kvs).flatten.length < 2 ^ 64) :
    check verify sig seq kvs = some (do
      if ← verify ⟨kvs, h⟩ sig (appendList (wire (seq.toNat % 2 ^ 32) kvs).flatten) then
        return ⟨seq, ⟨kvs, h⟩, sig⟩
      else .error .ENRSignatureIsInvalid) := by
  have hcontent : content ⟨seq, ⟨kvs, h⟩, sig⟩ =
      .ok (appendList (wire (seq.toNat % 2 ^ 32) kvs).flatten) := content_eq hfit
  unfold check
  dsimp only
  rw [equalRange_ascending.mpr h, SortedMap.insertAll_sorted h, hcontent]
  rfl

theorem check_unsorted (h : ¬Repeats kvs) (h' : ¬Ascending kvs) :
    check verify sig seq kvs = some (.error .ENRKeysAreNotUniqueSorted) := by
  unfold check
  dsimp only
  cases he : equalRange kvs (SortedMap.empty.insertAll kvs).entries with
  | none => exact absurd (equalRange_repeats.mp he) h
  | some same =>
    cases same with
    | false => rfl
    | true => exact absurd (equalRange_ascending.mp he) h'

/-- What a short item is written as again is short. -/
theorem length_signed (h : Reads b sig seq kvs) (hsize : b.length ≤ c_ENRMaxSizeBytes) :
    (appendData sig :: wire (seq.toNat % 2 ^ 32) kvs).flatten.length < 2 ^ 64 := by
  have hlt : seq.toNat % 2 ^ 32 < 2 ^ 32 := Nat.mod_lt _ (by norm_num)
  have hbr : bytesRequired (seq.toNat % 2 ^ 32) ≤ 4 := bytesRequired_le (hlt.trans_eq (by norm_num))
  have hnumber := length_numberItem_le hbr (by norm_num)
  unfold c_ENRMaxSizeBytes at hsize
  cases h with
  | @list payload _ _ xs _ hp hb hx =>
    have hflat := congrArg List.length hb.flatten
    unfold wire
    rw [List.flatten_cons, List.flatten_cons, List.length_append, List.length_append, ← hx.flatten]
    rw [appendList, List.length_append] at hsize
    simp only [List.append_nil, List.flatten_cons, List.length_append] at hflat
    omega
  | @string payload _ rest _ hp hb =>
    have hflat := congrArg List.length hb.flatten
    have hle := RLP.appendData_length_le payload
    simp only [List.flatten_cons, List.flatten_nil, List.append_nil, List.length_append] at hflat
    simp only [wire, List.flatMap_nil, List.flatten_cons, List.flatten_nil, List.append_nil,
      List.length_append]
    omega

theorem length_wire (h : Reads b sig seq kvs) (hsize : b.length ≤ c_ENRMaxSizeBytes) :
    (wire (seq.toNat % 2 ^ 32) kvs).flatten.length < 2 ^ 64 := by
  have hle := length_signed h hsize
  rw [List.flatten_cons, List.length_append] at hle
  omega

/-- A record that is accepted was read, and its keys ascend. -/
theorem accepted {e : ENR} (h : parseBytes b verify = some (.ok e)) :
    b.length ≤ c_ENRMaxSizeBytes ∧ Reads b e.m_signature e.m_seq e.m_keyValuePairs.entries ∧
      verify e.m_keyValuePairs e.m_signature
        (appendList (wire (e.m_seq.toNat % 2 ^ 32) e.m_keyValuePairs.entries).flatten) =
          .ok true := by
  by_cases hread : b.length ≤ c_ENRMaxSizeBytes ∧ ∃ sig seq kvs, Reads b sig seq kvs
  case neg =>
    have herror : ∃ x, parseBytes b verify = some (.error x) :=
      parseBytes_of_not_reads fun hsize sig seq kvs hr => hread ⟨hsize, sig, seq, kvs, hr⟩
    obtain ⟨x, hx⟩ := herror
    rw [hx] at h
    cases h
  case pos =>
    obtain ⟨hsize, sig, seq, kvs, hr⟩ := hread
    rw [parseBytes_of_reads hr hsize] at h
    by_cases hrep : Repeats kvs
    · rw [check_repeats hrep] at h
      cases h
    · by_cases hasc : Ascending kvs
      · rw [check_ascending hasc (length_wire hr hsize)] at h
        obtain ⟨ok, hok, h⟩ := bind_eq_ok.mp (Option.some.inj h)
        cases ok with
        | false => cases h
        | true =>
          cases h
          exact ⟨hsize, hr, hok⟩
      · rw [check_unsorted hrep hasc] at h
        cases h

/-- Parsing has no result only if keys repeat. -/
theorem repeats_of_none (h : parseBytes b verify = none) :
    b.length ≤ c_ENRMaxSizeBytes ∧ ∃ sig seq kvs, Reads b sig seq kvs ∧ Repeats kvs := by
  by_cases hread : b.length ≤ c_ENRMaxSizeBytes ∧ ∃ sig seq kvs, Reads b sig seq kvs
  case neg =>
    have herror : ∃ x, parseBytes b verify = some (.error x) :=
      parseBytes_of_not_reads fun hsize sig seq kvs hr => hread ⟨hsize, sig, seq, kvs, hr⟩
    obtain ⟨x, hx⟩ := herror
    rw [hx] at h
    cases h
  case pos =>
    obtain ⟨hsize, sig, seq, kvs, hr⟩ := hread
    refine ⟨hsize, sig, seq, kvs, hr, ?_⟩
    by_contra hrep
    rw [parseBytes_of_reads hr hsize] at h
    by_cases hasc : Ascending kvs
    · rw [check_ascending hasc (length_wire hr hsize)] at h
      cases h
    · rw [check_unsorted hrep hasc] at h
      cases h

/-- A record with a number of 32 bits is written as it was read from a list. -/
theorem rlp_of_reads {e : ENR} (h : Reads b e.m_signature e.m_seq e.m_keyValuePairs.entries)
    (hsize : b.length ≤ c_ENRMaxSizeBytes) (hl : isData b = false) (hseq : e.m_seq.toNat < 2 ^ 32) :
    e.rlp = .ok b := by
  obtain ⟨hb, -⟩ := h.bytes hl
  have hitems : e.contentItems = wire e.m_seq.toNat e.m_keyValuePairs.entries := by
    unfold contentItems
    rw [Nat.mod_eq_of_lt hseq]
  have hlen := congrArg List.length hb
  rw [appendList, List.length_append] at hlen
  unfold c_ENRMaxSizeBytes at hsize
  rw [rlp_eq (by rw [hitems]; omega), hitems, ← hb]

/-- The number of a record that is written as it was read fits in 32 bits. -/
theorem seq_of_rlp {e : ENR} (h : Reads b e.m_signature e.m_seq e.m_keyValuePairs.entries)
    (hsize : b.length ≤ c_ENRMaxSizeBytes) (hrlp : e.rlp = .ok b) :
    e.m_seq.toNat < 2 ^ 32 ∧ isData b = false := by
  have hfit := length_signed h hsize
  have hwritten : appendList (appendData e.m_signature :: e.contentItems).flatten = b :=
    Except.ok.inj ((rlp_eq hfit).symm.trans hrlp)
  have hl : isData b = false := by
    rw [← hwritten]
    exact isData_appendList hfit
  refine ⟨?_, hl⟩
  have hsame := appendList_injective (hwritten.trans (h.bytes hl).1)
  unfold contentItems wire at hsame
  rw [List.flatten_cons, List.flatten_cons, List.flatten_cons, List.flatten_cons,
    List.append_cancel_left_eq, List.append_cancel_right_eq] at hsame
  have hbr : ∀ {n : ℕ}, n < 2 ^ 64 → bytesRequired n ≤ 32 := fun {n} hn =>
    bytesRequired_le (hn.trans (by norm_num))
  have hmod := numberItem_injective (hbr ((Nat.mod_lt _ (by norm_num)).trans (by norm_num)))
    (hbr e.m_seq.toNat_lt) hsame
  rw [← hmod]
  exact Nat.mod_lt _ (by norm_num)

/-- **A record is parsed exactly unless its keys repeat at the end, or it is accepted with a key
without a value, with a number of more than 32 bits, or without being a list.** -/
theorem parseBytes_exact_iff : Exact verify b ↔ ¬Defective verify b := by
  constructor
  · rintro ⟨result, hresult, hexact⟩ ⟨hsize, sig, seq, kvs, hr, hdefect⟩
    rw [parseBytes_of_reads hr hsize] at hresult
    rcases hdefect with hrep | ⟨hasc, hloose, hverifies⟩
    · rw [check_repeats hrep] at hresult
      cases hresult
    · rw [check_ascending hasc (length_wire hr hsize)] at hresult
      unfold Verifies at hverifies
      rw [SortedMap.insertAll_sorted hasc] at hverifies
      rw [hverifies] at hresult
      obtain ⟨hreceived, -, hrlp⟩ := hexact _ (Option.some.inj hresult).symm
      have hseq := seq_of_rlp hr hsize hrlp
      rcases hloose with ⟨kv, hkv, hmissing⟩ | hlarge | hdata
      · have hvalue := hreceived.valued kv hkv
        rw [hmissing] at hvalue
        exact not_isItem_nil hvalue
      · exact absurd hseq.1 (not_lt.mpr hlarge)
      · rw [hseq.2] at hdata
        cases hdata
  · intro hgood
    cases hresult : parseBytes b verify with
    | none =>
      obtain ⟨hsize, sig, seq, kvs, hr, hrep⟩ := repeats_of_none hresult
      exact absurd ⟨hsize, sig, seq, kvs, hr, .inl hrep⟩ hgood
    | some result =>
      refine ⟨result, hresult, ?_⟩
      rintro e rfl
      obtain ⟨hsize, hr, hverify⟩ := accepted hresult
      have hnot : ¬Loose b e.m_seq e.m_keyValuePairs.entries := fun hloose => hgood
        ⟨hsize, _, _, _, hr, .inr ⟨e.m_keyValuePairs.sorted, hloose, by
          unfold Verifies
          rw [SortedMap.insertAll_sorted e.m_keyValuePairs.sorted]
          exact hverify⟩⟩
      have hseq : e.m_seq.toNat < 2 ^ 32 := not_le.mp fun hge => hnot (.inr (.inl hge))
      have hl : isData b = false := Bool.eq_false_iff.mpr fun hd => hnot (.inr (.inr hd))
      obtain ⟨hb, hvalued⟩ := hr.bytes hl
      rw [Nat.mod_eq_of_lt hseq] at hverify
      refine ⟨⟨e.m_keyValuePairs.sorted, fun kv hkv => ?_, hb⟩, hverify,
        rlp_of_reads hr hsize hl hseq⟩
      exact (hvalued kv hkv).resolve_left fun hmissing => hnot (.inl ⟨kv, hkv, hmissing⟩)

end Outcomes

end ENR
end Aleth.P2p
