import Aleth.Devcore.RlpLists
import Aleth.Devcore.Sha3
import Aleth.Libp2p.Common
import Aleth.Structure.SortedMap

/-! Node records (`ENR.cpp`).

A record is a list of a signature, a sequence number and keys with values. The
order of the keys is checked by comparing the received pairs with the map made
of them, and what is signed is written from the parsed record. A comparison that
goes on behind the last element of the map is undefined behaviour: parsing has
no result there. -/
namespace Aleth.P2p
open Devcore
open RLPView BytesConstRef RLPStream

/-- What `ENR` throws. -/
inductive ENRException where
  | RLP (e : RLPException)
  | ENRIsTooBig
  | ENRKeysAreNotUniqueSorted
  | ENRSignatureIsInvalid
deriving DecidableEq

def c_ENRMaxSizeBytes : ℕ := 300

structure ENR where
  m_seq : UInt64
  m_keyValuePairs : SortedMap Bytes Bytes
  m_signature : Bytes
deriving DecidableEq

/-- Gets the pairs, the signature and the serialized content. -/
abbrev VerifyFunction := SortedMap Bytes Bytes → Bytes → Bytes → Except ENRException Bool

/-- `std::equal`, which takes the second range for at least as long as the first. -/
def equalRange {α : Type} [DecidableEq α] : List α → List α → Option Bool
  | [], _ => some true
  | _ :: _, [] => none
  | x :: xs, y :: ys => if x = y then equalRange xs ys else some false

namespace ENR

/-! ### Writing -/

def contentRlpListItemCount (e : ENR) : ℕ := e.m_keyValuePairs.entries.length * 2 + 1

/-- `streamContent`. The number is appended as an `unsigned`. -/
def streamContent (e : ENR) : List (RLPStream → Except RLPException RLPStream) :=
  appendUnsigned e.m_seq.toNat :: e.m_keyValuePairs.entries.flatMap fun keyValue =>
    [append keyValue.1 false, appendRaw keyValue.2 1]

def content (e : ENR) : Except RLPException Bytes := do
  out (← calls e.streamContent (← RLPStream.appendList e.contentRlpListItemCount empty))

def streamRLP (e : ENR) (s : RLPStream) : Except RLPException RLPStream := do
  calls (append e.m_signature false :: e.streamContent)
    (← RLPStream.appendList (e.contentRlpListItemCount + 1) s)

/-- The record by itself. -/
def rlp (e : ENR) : Except RLPException Bytes := do out (← e.streamRLP empty)

/-- The constructor that signs. -/
def create (m_seq : UInt64) (m_keyValuePairs : SortedMap Bytes Bytes) (sign : Bytes → Bytes) :
    Except RLPException ENR := do
  return ⟨m_seq, m_keyValuePairs, sign (← content ⟨m_seq, m_keyValuePairs, []⟩)⟩

def update (e : ENR) (keyValuePairs : SortedMap Bytes Bytes) (sign : Bytes → Bytes) :
    Except RLPException ENR :=
  create (e.m_seq + 1) keyValuePairs sign

/-! ### Parsing -/

/-- The loop over the pairs, from the item `i` on. -/
def readKeyValuePairs (r : RLPView) : (pairs i : ℕ) → Except RLPException (List (Bytes × Bytes))
  | 0, _ => .ok []
  | pairs + 1, i => do
    let key ← (← item r i).toBytes VeryStrict
    let value := (← item r (i + 1)).content
    return (key, value) :: (← readKeyValuePairs r pairs (i + 2))

/-- The items: a key is read at 2, 4, … as long as that is less than their number. -/
def readItems (r : RLPView) : Except RLPException (Bytes × UInt64 × List (Bytes × Bytes)) := do
  let m_signature ← (← item r 0).toBytes VeryStrict
  let m_seq ← (← item r 1).toIntOf 8 VeryStrict
  let keyValuePairs ← readKeyValuePairs r (((← itemCount r.enough r) - 1) / 2) 2
  return (m_signature, UInt64.ofNat m_seq, keyValuePairs)

/-- The constructor that parses. -/
def parse (r : RLPView) (verify : VerifyFunction) : Option (Except ENRException ENR) :=
  if c_ENRMaxSizeBytes < r.m_data.m_count then some (.error .ENRIsTooBig)
  else match readItems r with
    | .error e => some (.error (.RLP e))
    | .ok (m_signature, m_seq, keyValuePairs) =>
      let e : ENR := ⟨m_seq, SortedMap.empty.insertAll keyValuePairs, m_signature⟩
      match equalRange keyValuePairs e.m_keyValuePairs.entries with
      | none => none
      | some false => some (.error .ENRKeysAreNotUniqueSorted)
      | some true => some do
        let content ← e.content.mapError .RLP
        if ← verify e.m_keyValuePairs m_signature content then return e
        else .error .ENRSignatureIsInvalid

/-- `ENR(RLP(b), verify)`. -/
def parseBytes (b : Bytes) (verify : VerifyFunction) : Option (Except ENRException ENR) :=
  match construct (ofBytes b) VeryStrict with
  | .error e => some (.error (.RLP e))
  | .ok r => parse r verify

end ENR

/-! ### The comparison with the map -/

section EqualRange
variable {α : Type} [DecidableEq α] {xs ys : List α}

theorem equalRange_eq_none : equalRange xs ys = none ↔ ∃ rest, rest ≠ [] ∧ xs = ys ++ rest := by
  induction xs generalizing ys with
  | nil =>
    constructor
    · intro h
      cases h
    · rintro ⟨rest, hne, h⟩
      exact absurd (List.append_eq_nil_iff.mp h.symm).2 hne
  | cons x xs ih =>
    cases ys with
    | nil => exact ⟨fun _ => ⟨x :: xs, List.cons_ne_nil _ _, rfl⟩, fun _ => rfl⟩
    | cons y ys =>
      unfold equalRange
      by_cases hxy : x = y
      · rw [if_pos hxy, ih]
        simp [hxy]
      · rw [if_neg hxy]
        constructor
        · intro h
          cases h
        · rintro ⟨rest, -, h⟩
          exact absurd (List.cons.inj h).1 hxy

theorem equalRange_eq_true : equalRange xs ys = some true ↔ xs <+: ys := by
  induction xs generalizing ys with
  | nil => simp [equalRange]
  | cons x xs ih =>
    cases ys with
    | nil => simp [equalRange]
    | cons y ys =>
      unfold equalRange
      by_cases hxy : x = y
      · rw [if_pos hxy, ih, hxy, List.prefix_cons_inj]
      · rw [if_neg hxy]
        simp [List.cons_prefix_cons, hxy]

end EqualRange

/-- The keys strictly increase. -/
def Ascending (kvs : List (Bytes × Bytes)) : Prop := kvs.Pairwise fun a b => a.1 < b.1

/-- The keys strictly increase up to where only keys come that were there. -/
def Repeats (kvs : List (Bytes × Bytes)) : Prop :=
  ∃ pre suf, kvs = pre ++ suf ∧ suf ≠ [] ∧ Ascending pre ∧ ∀ e ∈ suf, ∃ e' ∈ pre, e'.1 = e.1

section Keys
variable {kvs : List (Bytes × Bytes)}

theorem find_isSome_of_mem {m : SortedMap Bytes Bytes} {e : Bytes × Bytes} (h : e ∈ m.entries) :
    (m.find e.1).isSome := by
  have hfind : m.find e.1 = some e.2 := SortedMap.find_eq_some_iff.mpr h
  rw [hfind]
  rfl

theorem equalRange_ascending : equalRange kvs (SortedMap.empty.insertAll kvs).entries = some true ↔
    Ascending kvs := by
  rw [equalRange_eq_true]
  constructor
  · intro h
    exact (SortedMap.sorted _).sublist h.sublist
  · intro h
    rw [SortedMap.insertAll_sorted h]

theorem equalRange_repeats : equalRange kvs (SortedMap.empty.insertAll kvs).entries = none ↔
    Repeats kvs := by
  rw [equalRange_eq_none]
  constructor
  · rintro ⟨rest, hne, h⟩
    refine ⟨_, rest, h, hne, SortedMap.sorted _, fun e he => ?_⟩
    have hkvs : e ∈ kvs := h ▸ List.mem_append_right _ he
    have hfind : ((SortedMap.empty.insertAll kvs).find e.1).isSome := by
      rw [SortedMap.find_insertAll, SortedMap.find_empty, Option.none_or,
        Option.isSome_iff_ne_none, ne_eq, SortedMap.findList_eq_none_iff]
      exact fun hno => hno e hkvs rfl
    obtain ⟨v, hv⟩ := Option.isSome_iff_exists.mp hfind
    exact ⟨(e.1, v), SortedMap.find_eq_some_iff.mp hv, rfl⟩
  · rintro ⟨pre, suf, rfl, hne, hpre, hsuf⟩
    have hmap : SortedMap.empty.insertAll (pre ++ suf) = ⟨pre, hpre⟩ := by
      rw [SortedMap.insertAll_append, SortedMap.insertAll_sorted hpre]
      apply SortedMap.insertAll_known
      intro e he
      obtain ⟨e', he', hk⟩ := hsuf e he
      rw [← hk]
      exact find_isSome_of_mem he'
    exact ⟨suf, hne, by rw [hmap]⟩

end Keys

/-! ### What is read -/

/-- The items of keys and values; of the last key the value may be missing. -/
inductive Paired : List Bytes → List (Bytes × Bytes) → Prop
  | nil : Paired [] []
  | last (k : Bytes) : Paired [appendData k] [(k, [])]
  | pair (k v : Bytes) {xs : List Bytes} {kvs : List (Bytes × Bytes)} (h : Paired xs kvs) :
      Paired (appendData k :: v :: xs) ((k, v) :: kvs)

/-- What the fields are in an item that can be read, which need not be a list. -/
inductive Reads : Bytes → Bytes → UInt64 → List (Bytes × Bytes) → Prop
  | list {payload sig : Bytes} {seq : UInt64} {xs : List Bytes} {kvs : List (Bytes × Bytes)}
      (hp : payload.length < 2 ^ 64 - 1 - 0x100)
      (hb : Begins payload (appendData sig :: numberItem seq.toNat :: xs) []) (hx : Paired xs kvs) :
      Reads (appendList payload) sig seq kvs
  | string {payload sig rest : Bytes} {seq : UInt64} (hp : payload.length < 2 ^ 64 - 1 - 0x100)
      (hb : Begins payload [appendData sig, numberItem seq.toNat] rest) :
      Reads (appendData payload) sig seq []

namespace ENR
variable {r : RLPView} {off len : ℕ}

theorem length_payload (hs : r.Single off len) :
    (r.content.drop off).length < 2 ^ 64 - 1 - 0x100 := by
  have hfits := extent_fits hs.extent
  have hlen := hs.length_eq
  rw [List.length_drop]
  omega

theorem fits_of_begins {xs : List Bytes} {rest d k : Bytes} (hd : d.length < 2 ^ 64 - 1 - 0x100)
    (hb : Begins d xs rest) (hk : appendData k ∈ xs) : k.length < 2 ^ 64 - 1 - 0x100 := by
  have hle := length_le_of_mem_flatten hk
  have hflat := congrArg List.length hb.flatten
  rw [List.length_append] at hflat
  have hkle := RLP.appendData_length_le k
  omega

theorem readKeyValuePairs_iff (hs : r.Single off len) {n i : ℕ} {pre xs : List Bytes}
    {kvs : List (Bytes × Bytes)} (hb : Begins (r.content.drop off) (pre ++ xs) [])
    (hi : pre.length = i) (hn : (xs.length + 1) / 2 = n) :
    readKeyValuePairs r n i = .ok kvs ↔ Paired xs kvs := by
  induction n generalizing i pre xs kvs with
  | zero =>
    have hxs : xs = [] := by
      cases xs with
      | nil => rfl
      | cons x xs => simp at hn
    subst hxs
    constructor
    · intro h
      cases h
      exact .nil
    · intro h
      cases h
      rfl
  | succ n ih =>
    cases xs with
    | nil => simp at hn
    | cons x xs =>
      have hx : (pre ++ x :: xs)[i]? = some x := by simp [← hi]
      obtain ⟨v, hv, hvx, off', len', hsv⟩ := hs.item_of_getElem hb hx
      have hkey : ∀ k, v.toBytes VeryStrict = .ok k ↔ x = appendData k := by
        intro k
        constructor
        · intro h
          rw [← hvx]
          exact (converts_toBytes.written hsv h).1
        · rintro rfl
          exact converts_toBytes.read hsv hvx
            (fits_of_begins (length_payload hs) hb (List.mem_append_right _ List.mem_cons_self))
      unfold readKeyValuePairs
      rw [hv, ok_bind]
      cases xs with
      | nil =>
        have hn0 : n = 0 := by simp at hn; omega
        subst hn0
        obtain ⟨w, hw, hwc⟩ := hs.item_end (i := i + 1) hb (by simp [← hi])
        rw [hw]
        constructor
        · intro h
          obtain ⟨k, hk, h⟩ := bind_eq_ok.mp h
          rw [ok_bind, hwc] at h
          cases h
          rw [(hkey k).mp hk]
          exact .last k
        · intro h
          cases h with
          | last k =>
            rw [(hkey k).mpr rfl, ok_bind, ok_bind, hwc]
            rfl
      | cons y ys =>
        have hy : (pre ++ x :: y :: ys)[i + 1]? = some y := by simp [← hi]
        obtain ⟨w, hw, hwy, -⟩ := hs.item_of_getElem hb hy
        have hbys : Begins (r.content.drop off) ((pre ++ [x, y]) ++ ys) [] := by
          rw [List.append_assoc]
          exact hb
        have hrest : ∀ kvs, readKeyValuePairs r n (i + 2) = .ok kvs ↔ Paired ys kvs := fun kvs =>
          ih hbys (by simp [hi]) (by simp at hn; omega)
        rw [hw]
        constructor
        · intro h
          obtain ⟨k, hk, h⟩ := bind_eq_ok.mp h
          rw [ok_bind] at h
          obtain ⟨kvs', hkvs, h⟩ := bind_eq_ok.mp h
          cases h
          rw [(hkey k).mp hk, hwy]
          exact .pair k y ((hrest kvs').mp hkvs)
        · intro h
          cases h with
          | pair k _ h =>
            rw [(hkey k).mpr rfl, ok_bind, ok_bind, (hrest _).mpr h, hwy]
            rfl

theorem single_of_construct {b : Bytes} {r : RLPView}
    (h : construct (ofBytes b) VeryStrict = .ok r) :
    r.content = b ∧ (b = [] ∨ ∃ off len, r.Single off len) := by
  obtain ⟨rfl, hr⟩ := construct_ok (ofBytes_points b) h
  refine ⟨content_ofBytes b, hr.imp (fun h0 => ?_) fun hext => ?_⟩
  · exact List.length_eq_zero_iff.mp h0
  · obtain ⟨off, len, hext, hlen⟩ := hext
    exact ⟨off, len, ofBytes_points b, hext, hlen⟩

/-- The signature and the number come first. -/
theorem readHead (hs : r.Single off len) {sig : Bytes} {n : ℕ} {v w : RLPView}
    (hv : item r 0 = .ok v) (hsig : v.toBytes VeryStrict = .ok sig) (hw : item r 1 = .ok w)
    (hseq : w.toIntOf 8 VeryStrict = .ok n) :
    bytesRequired n ≤ 8 ∧
      ∃ rest, Begins (r.content.drop off) [appendData sig, numberItem n] rest := by
  have hfield : (item r 0 >>= fun v => v.toBytes VeryStrict) = .ok sig :=
    bind_eq_ok.mpr ⟨v, hv, hsig⟩
  have hfield' : (item r 1 >>= fun v => v.toIntOf 8 Strict) = .ok n :=
    bind_eq_ok.mpr ⟨w, hw, hseq⟩
  obtain ⟨-, rest, -, hb⟩ := hs.field_ok converts_toBytes hfield (.nil _) rfl
  obtain ⟨hn, rest', -, hb'⟩ := hs.field_ok (converts_toIntOf 8 (by norm_num)) hfield' hb rfl
  exact ⟨hn, rest', hb'⟩

theorem readItems_iff (hs : r.Single off len) {sig : Bytes} {seq : UInt64}
    {kvs : List (Bytes × Bytes)} :
    readItems r = .ok (sig, seq, kvs) ↔ Reads r.content sig seq kvs := by
  constructor
  · intro h
    obtain ⟨v, hv, h⟩ := bind_eq_ok.mp h
    obtain ⟨sig', hsig, h⟩ := bind_eq_ok.mp h
    obtain ⟨w, hw, h⟩ := bind_eq_ok.mp h
    obtain ⟨n, hseq, h⟩ := bind_eq_ok.mp h
    obtain ⟨k, hk, h⟩ := bind_eq_ok.mp h
    obtain ⟨kvs', hkvs, h⟩ := bind_eq_ok.mp h
    cases h
    obtain ⟨hn, rest, hb⟩ := readHead hs hv hsig hw hseq
    have hlt : n < 2 ^ 64 := (bytesRequired_le_iff.mp hn).trans_eq (by norm_num)
    have hseqn : (UInt64.ofNat n).toNat = n := UInt64.toNat_ofNat_of_lt hlt
    by_cases hl : isList r.content = true
    · obtain ⟨all, hall, hlen⟩ := hs.itemCount_ok hl hk
      have hle := hall.length_le_of_nil hb
      have hpre := hb.prefix_of_le hall hle
      have hsplit : all = [appendData sig, numberItem n] ++ all.drop 2 := by
        rw [← hpre]
        exact (List.take_append_drop 2 all).symm
      rw [hsplit] at hall
      have hcount : ((all.drop 2).length + 1) / 2 = (k - 1) / 2 := by
        rw [List.length_drop, hlen]
        have h2 : 2 ≤ all.length := hle
        omega
      rw [← RLP.appendList_of_extent hs.extent hl hs.length_eq]
      exact .list (length_payload hs) (hseqn.symm ▸ hall)
        ((readKeyValuePairs_iff hs hall rfl hcount).mp hkvs)
    · have hd : isData r.content = true := by
        have hor := isData_or_isList (extent_ne_nil hs.extent)
        rwa [eq_false_of_ne_true hl, Bool.or_false] at hor
      have hzero : k = 0 := by
        unfold itemCount at hk
        rw [if_neg hl] at hk
        cases hk
        rfl
      rw [hzero] at hkvs
      cases hkvs
      rw [hs.content_eq hd]
      exact .string (length_payload hs) (hseqn.symm ▸ hb)
  · intro h
    generalize hc : r.content = b at h
    have hstrict : ∀ {xs rest}, Begins (r.content.drop off)
        (appendData sig :: numberItem seq.toNat :: xs) rest → ∃ v w, item r 0 = .ok v ∧
          v.toBytes VeryStrict = .ok sig ∧ item r 1 = .ok w ∧
          w.toIntOf 8 VeryStrict = .ok seq.toNat := by
      intro xs rest hb
      have hsig := hs.field_of_getElem converts_toBytes (i := 0) hb rfl
        (fits_of_begins (length_payload hs) hb List.mem_cons_self)
      have hseq := hs.field_of_getElem (converts_toIntOf 8 (by norm_num)) (i := 1) hb rfl
        (bytesRequired_le (seq.toNat_lt.trans_eq (by norm_num)))
      obtain ⟨v, hv, hsig⟩ := bind_eq_ok.mp hsig
      obtain ⟨w, hw, hseq⟩ := bind_eq_ok.mp hseq
      exact ⟨v, w, hv, hsig, hw, hseq⟩
    unfold readItems
    cases h with
    | @list payload _ _ xs _ hp hb hx =>
      obtain ⟨hl, hdrop⟩ := hs.of_appendList hc hp
      rw [← hdrop] at hb
      obtain ⟨v, w, hv, hsig, hw, hseq⟩ := hstrict hb
      have hpairs : (xs.length + 1) / 2 =
          ((appendData sig :: numberItem seq.toNat :: xs).length - 1) / 2 := by
        simp
      have hall : Begins (r.content.drop off)
          ([appendData sig, numberItem seq.toNat] ++ xs) [] := hb
      have hkvs : readKeyValuePairs r
          (((appendData sig :: numberItem seq.toNat :: xs).length - 1) / 2) 2 = .ok kvs :=
        (readKeyValuePairs_iff hs hall rfl hpairs).mpr hx
      rw [hv, ok_bind, hsig, ok_bind, hw, ok_bind, hseq, ok_bind, hs.itemCount_of_begins hl hb,
        ok_bind, hkvs, ok_bind, UInt64.ofNat_toNat]
      rfl
    | @string payload _ rest _ hp hb =>
      obtain ⟨hd, hdrop⟩ := hs.of_appendData hc hp
      rw [← hdrop] at hb
      obtain ⟨v, w, hv, hsig, hw, hseq⟩ := hstrict hb
      have hcount : itemCount r.enough r = .ok 0 := by
        unfold itemCount
        rw [hs.isList_eq, hd]
        rfl
      rw [hv, ok_bind, hsig, ok_bind, hw, ok_bind, hseq, ok_bind, hcount, ok_bind,
        UInt64.ofNat_toNat]
      rfl

/-! ### What is written -/

/-- The items of the sequence number and the pairs. -/
def wire (seq : ℕ) (kvs : List (Bytes × Bytes)) : List Bytes :=
  numberItem seq :: kvs.flatMap fun kv => [appendData kv.1, kv.2]

/-- The items that the content is written as: the number is cut to 32 bits. -/
def contentItems (e : ENR) : List Bytes :=
  wire (e.m_seq.toNat % 2 ^ 32) e.m_keyValuePairs.entries

theorem writes_pairs {kvs : List (Bytes × Bytes)} (h : ∀ kv ∈ kvs, kv.1.length < 2 ^ 64) :
    List.Forall₂ Writes
      (kvs.flatMap fun kv => [RLPStream.append kv.1 false, RLPStream.appendRaw kv.2 1])
      (kvs.flatMap fun kv => [appendData kv.1, kv.2]) := by
  induction kvs with
  | nil => exact .nil
  | cons kv kvs ih =>
    rw [List.flatMap_cons, List.flatMap_cons]
    exact .cons (writes_append (h kv List.mem_cons_self)) (.cons (writes_appendRaw kv.2)
      (ih fun x hx => h x (List.mem_cons_of_mem _ hx)))

theorem key_length_le {seq : ℕ} {kvs : List (Bytes × Bytes)} {kv : Bytes × Bytes} (h : kv ∈ kvs) :
    kv.1.length ≤ (wire seq kvs).flatten.length := by
  have hmem : appendData kv.1 ∈ wire seq kvs :=
    List.mem_cons_of_mem _ (List.mem_flatMap.mpr ⟨kv, h, List.mem_cons_self⟩)
  exact (RLP.appendData_length_le kv.1).trans (length_le_of_mem_flatten hmem)

variable {e : ENR}

theorem writes_streamContent (h : e.contentItems.flatten.length < 2 ^ 64) :
    List.Forall₂ Writes e.streamContent e.contentItems := by
  refine .cons (writes_appendInt ?_) (writes_pairs fun kv hkv => (key_length_le hkv).trans_lt h)
  have hlt : e.m_seq.toNat % 2 ^ 32 < 2 ^ 32 := Nat.mod_lt _ (by norm_num)
  exact (bytesRequired_le (k := 4) (hlt.trans_eq (by norm_num))).trans_lt (by norm_num)

theorem length_streamContent (e : ENR) : e.streamContent.length = e.contentRlpListItemCount := by
  unfold streamContent contentRlpListItemCount
  rw [List.length_cons, List.length_flatMap]
  simp

theorem content_eq (h : e.contentItems.flatten.length < 2 ^ 64) :
    e.content = .ok (Devcore.appendList e.contentItems.flatten) := by
  have hcalls := calls_list (writes_streamContent h) (List.cons_ne_nil _ _) h
  rw [length_streamContent] at hcalls
  obtain ⟨s, hs, hcalls⟩ := bind_eq_ok.mp hcalls
  unfold content
  rw [hs, ok_bind, hcalls, ok_bind]
  rfl

theorem writes_streamRLP (h : (appendData e.m_signature :: e.contentItems).flatten.length < 2 ^ 64) :
    Writes e.streamRLP (Devcore.appendList (appendData e.m_signature :: e.contentItems).flatten) := by
  have hlen := h
  rw [List.flatten_cons, List.length_append] at hlen
  have hsig := RLP.appendData_length_le e.m_signature
  have hw : List.Forall₂ Writes (RLPStream.append e.m_signature false :: e.streamContent)
      (appendData e.m_signature :: e.contentItems) :=
    .cons (writes_append (by omega)) (writes_streamContent (by omega))
  have hlist := writes_list hw (List.cons_ne_nil _ _) h
  rw [List.length_cons, length_streamContent] at hlist
  exact hlist

theorem rlp_eq (h : (appendData e.m_signature :: e.contentItems).flatten.length < 2 ^ 64) :
    e.rlp = .ok (Devcore.appendList (appendData e.m_signature :: e.contentItems).flatten) := by
  unfold rlp
  rw [writes_streamRLP h]
  rfl

end ENR
end Aleth.P2p
