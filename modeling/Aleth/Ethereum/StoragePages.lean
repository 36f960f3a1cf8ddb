import Aleth.Devcore.FatTrie
import Aleth.Devcore.Hex
import Aleth.Devcore.RlpRoundTrip
import Aleth.Devcore.RlpFields
import Aleth.Structure.InsertionMap
import Aleth.Structure.Paging
import Aleth.Ethereum.StateObservers

/-! Pages of the storage of a contract (`State::storage(Address const&)`,
`Debug::debug_storageRangeAt`).

All slots of the storage trie are read, and what the cache has is merged over
them; a page is a stretch of that. The key that the next page begins at is
written without leading zero bytes, and a string that is not of 32 bytes is read
as the zero key: after a page that ends before such a key the first one comes
again (`storagePages_complete_iff`). -/
namespace Aleth.Ethereum
open Devcore Throwing Patricia GenericTrieDB FatGenericTrieDB
variable [Sha3]

/-- From the hash of a slot to the slot and its value. -/
abbrev StorageMap := SortedMap H256 (U256 × U256)

def slotBytes (k : U256) : Bytes := (H256.ofU256 k).bytes

def slotHash (k : U256) : H256 := sha3 (slotBytes k)

/-- `u256(h256(bytes))`: zero if the size is another. -/
def toSlot (b : Bytes) : U256 := (H256.ofRef b).toU256

/-- `rlp(u256)`. -/
def slotRlp (v : U256) : Bytes := (RLP.data (toCompactBigEndian v.toNat)).encode

/-- `RLP(bytes).toInt<u256>()`. -/
def toValue (b : Bytes) : Except RLPException U256 := do
  let r ← RLPView.construct (.ofBytes b) VeryStrict
  return BitVec.ofNat 256 (← RLPView.toIntOf 32 r Strict)

/-- An exception of the RLP as one of the trie. -/
def ofRLP : RLPException → TrieError
  | .badCast => .badCast
  | _ => .badRLP

namespace State
variable {σ : Type} [NodeDB σ]

/-- The loop over the trie. -/
def fromStorageTrie : (fuel : ℕ) → List TrailNode → StorageMap → FatM σ StorageMap
  | 0, _, _ => throw .stackOverflow
  | fuel + 1, it, ret =>
    if it = end_ then return ret
    else do
      let (hashed, payload) ← super (GenericTrieDB.entryAt it)
      let (key, _) ← FatGenericTrieDB.entryAt it
      let value ← lift ((toValue payload).mapError ofRLP)
      let it ← super (next fuel it)
      fromStorageTrie fuel it (ret.insert (H256.ofRef hashed) (toSlot key, value))

/-- All values from the storage trie. -/
def fromTrieAt (fuel : ℕ) (root : H256) : FatM σ StorageMap :=
  if root ≠ H256.zero then do
    let it ← super (GenericTrieDB.begin fuel root)
    fromStorageTrie fuel it .empty
  else return .empty

/-- Cached storage over the top. -/
def mergeOverlay (ret : StorageMap) (overlay : List (U256 × U256)) : StorageMap :=
  overlay.foldl (fun ret i =>
    if i.2 ≠ 0 then ret.insert (slotHash i.1) i else ret.erase (slotHash i.1)) ret

/-- `storage(Address const&)`. -/
def storageEntries (fuel : ℕ) (s : State) (id : Address) : FatM σ StorageMap :=
  match s.peek id with
  | none => return .empty
  | some a => do
    let ret ← fromTrieAt fuel a.m_storageRoot
    return mergeOverlay ret a.m_storageOverlay.entries

end State

/-! ### The call -/

inductive DebugError where
  | nonpositiveMaxResults
  | invalidHex
  | invalidParams
deriving DecidableEq

/-- `h256fromHex`: the hash is zero if the size is another. -/
def h256fromHex (s : Bytes) : Except DebugError H256 :=
  match fromHex s with
  | .ok b => .ok (H256.ofRef b)
  | .error _ => .error .invalidHex

/-- `toCompactHexPrefixed(h256, 1)`. -/
def compactHash (h : H256) : Bytes := toCompactHexPrefixed (fromBigEndian h.bytes) 1

def compactWord (v : U256) : Bytes := toCompactHexPrefixed v.toNat 1

/-- The names are the hashed keys, with key and value. -/
structure StoragePage where
  storage : InsertionMap Bytes (Bytes × Bytes)
  nextKey : Option Bytes

/-- The loop from the begin on. -/
def storageRange (maxResults : ℕ) :
    List (H256 × U256 × U256) → InsertionMap Bytes (Bytes × Bytes) → StoragePage
  | [], storage => ⟨storage, none⟩
  | it :: rest, storage =>
    if storage.keys.length = maxResults then ⟨storage, some (compactHash it.1)⟩
    else storageRange maxResults rest
      (storage.set (compactHash it.1) (compactWord it.2.1, compactWord it.2.2))

section Call
variable {σ : Type} [NodeDB σ]

/-- `debug_storageRangeAt` in the state that it is asked for. -/
def debug_storageRangeAt (fuel : ℕ) (s : State) (address : Address) (first : Bytes)
    (maxResults : ℤ) : Throwing (WithAux σ) DebugError StoragePage :=
  if maxResults ≤ 0 then throw .nonpositiveMaxResults
  else do
    let storage ← mapError (fun _ => .invalidParams) (s.storageEntries fuel address)
    let itBegin ← lift (h256fromHex first)
    return storageRange maxResults.toNat (storage.entries.filter fun e => itBegin ≤ e.1) .empty

/-- What the pages have, until there is no next key, in so many calls at most. -/
def storagePages (fuel : ℕ) (s : State) (address : Address) (maxResults : ℤ) :
    (calls : ℕ) → (first : Bytes) → Throwing (WithAux σ) DebugError (List (Bytes × Bytes × Bytes))
  | 0, _ => throw .invalidParams
  | calls + 1, first => do
    let page ← debug_storageRangeAt fuel s address first maxResults
    match page.nextKey with
    | none => return page.storage.entries
    | some nextKey => do
      let rest ← storagePages fuel s address maxResults calls nextKey
      return page.storage.entries ++ rest

end Call

/-! ### The specification -/

namespace State
variable {σ : Type} [NodeDB σ]

/-- The value of a slot, as `storage(Address const&, u256 const&)` says. -/
def HasSlot (s : State) (a : Address) (k v : U256) : Prop := ((storage a k).run s).1 = .ok v

end State

/-- A slot as a page shows it. -/
def shown (e : H256 × U256 × U256) : Bytes × Bytes × Bytes :=
  (compactHash e.1, compactWord e.2.1, compactWord e.2.2)

/-- `storage(address)` has the slots that are not zero, and the pages from the zero key on come to
an end, and have each of these once, in the order of the hashes. -/
def StoragePagesComplete {σ : Type} [NodeDB σ] (s : State) (db : WithAux σ) (a : Address)
    (maxResults : ℤ) : Prop :=
  ∃ storage : StorageMap,
    (∃ n, ∀ fuel, n ≤ fuel → (s.storageEntries fuel a).run db = (.ok storage, db)) ∧
    (∀ h k v, storage.find h = some (k, v) ↔ h = slotHash k ∧ v ≠ 0 ∧ s.HasSlot a k v) ∧
    ∃ n, ∀ fuel calls, n ≤ fuel → n ≤ calls →
      (storagePages fuel s a maxResults calls (toHexPrefixed H256.zero.bytes)).run db =
        (.ok (storage.entries.map shown), db)

/-! ### Keys on the way to the next page -/

section Keys
variable {h h' : H256}

/-- The hash begins with a zero byte. -/
def Short (h : H256) : Prop := h.bytes.headD 0 = 0

instance (h : H256) : Decidable (Short h) := by
  unfold Short
  infer_instance

omit [Sha3] in
theorem short_of_le (hle : h ≤ h') (hs : Short h') : Short h := by
  have hsize := h.size
  have hsize' := h'.size
  have hle' : h.bytes ≤ h'.bytes := hle
  unfold Short at hs ⊢
  cases hb : h.bytes with
  | nil => rfl
  | cons x b =>
    cases hb' : h'.bytes with
    | nil =>
      rw [hb'] at hsize'
      cases hsize'
    | cons y b' =>
      rw [hb'] at hs
      obtain rfl : y = 0 := hs
      rw [hb, hb'] at hle'
      by_contra hx
      have hpos : (0 : UInt8) < x := lt_of_le_of_ne UInt8.zero_le (Ne.symm hx)
      exact not_lt.mpr hle' (List.cons_lt_cons_iff.mpr (.inl hpos))

omit [Sha3] in
theorem exists_bytes (h : H256) : ∃ x b, h.bytes = x :: b ∧ b.length = 31 := by
  have hsize := h.size
  cases hb : h.bytes with
  | nil =>
    rw [hb] at hsize
    cases hsize
  | cons x b =>
    rw [hb] at hsize
    exact ⟨x, b, rfl, Nat.succ.inj hsize⟩

/-- The bytes of a hash as they are written. -/
def compactBytes (h : H256) : Bytes :=
  toBigEndian (max 1 (bytesRequired (fromBigEndian h.bytes))) (fromBigEndian h.bytes)

omit [Sha3] in
theorem length_compactBytes_le (h : H256) : (compactBytes h).length ≤ 32 := by
  have hlt := fromBigEndian_lt h.bytes
  rw [h.size] at hlt
  have hle := bytesRequired_le hlt
  rw [compactBytes, toBigEndian_length]
  omega

omit [Sha3] in
theorem compactBytes_of_not_short (hs : ¬Short h) : compactBytes h = h.bytes := by
  obtain ⟨x, b, hb, hlen⟩ := exists_bytes h
  have hx : x ≠ 0 := fun hx => hs (by rw [Short, hb, hx]; rfl)
  have hlo := pow_le_fromBigEndian hx b
  have hhi := fromBigEndian_lt h.bytes
  rw [← hb, hlen] at hlo
  rw [h.size] at hhi
  rw [compactBytes, bytesRequired_eq hlo hhi]
  have hback := toBigEndian_fromBigEndian h.bytes
  rwa [h.size] at hback

omit [Sha3] in
theorem length_compactBytes_of_short (hs : Short h) : (compactBytes h).length ≤ 31 := by
  obtain ⟨x, b, hb, hlen⟩ := exists_bytes h
  rw [Short, hb] at hs
  obtain rfl : x = 0 := hs
  have hlt := fromBigEndian_lt b
  have hzero : fromBigEndian h.bytes = fromBigEndian b := by
    rw [hb]
    rfl
  rw [hlen, ← hzero] at hlt
  have hle := bytesRequired_le hlt
  rw [compactBytes, toBigEndian_length]
  omega

omit [Sha3] in
theorem fromHex_compactHash (h : H256) : fromHex (compactHash h) = .ok (compactBytes h) := by
  have hle := length_compactBytes_le h
  show fromHex (toHexPrefixed (compactBytes h)) = _
  apply fromHex_toHexPrefixed
  omega

omit [Sha3] in
/-- A short key is read back as zero. -/
theorem h256fromHex_compactHash (h : H256) :
    h256fromHex (compactHash h) = .ok (if Short h then H256.zero else h) := by
  unfold h256fromHex
  rw [fromHex_compactHash]
  dsimp only
  split
  case isTrue hs =>
    have hle := length_compactBytes_of_short hs
    rw [H256.ofRef, if_neg (by omega)]
  case isFalse hs => rw [compactBytes_of_not_short hs, H256.ofRef_bytes]

omit [Sha3] in
theorem compactHash_injective : Function.Injective compactHash := by
  intro h h' heq
  have hbytes : compactBytes h = compactBytes h' := by
    have hok := (fromHex_compactHash h).symm.trans ((congrArg fromHex heq).trans
      (fromHex_compactHash h'))
    exact Except.ok.inj hok
  have hvalue : ∀ g : H256, fromBigEndian (compactBytes g) = fromBigEndian g.bytes := by
    intro g
    rw [compactBytes, fromBigEndian_toBigEndian, Nat.mod_eq_of_lt]
    exact (lt_pow_bytesRequired _).trans_le (Nat.pow_le_pow_right (by norm_num) (le_max_right _ _))
  have hn : fromBigEndian h.bytes = fromBigEndian h'.bytes := by
    rw [← hvalue h, ← hvalue h', hbytes]
  apply H256.ext
  rw [← toBigEndian_fromBigEndian h.bytes, ← toBigEndian_fromBigEndian h'.bytes, h.size, h'.size,
    hn]

end Keys

/-! ### A page -/

section Page
variable {m : ℕ} {es : List (H256 × U256 × U256)}

omit [Sha3] in
theorem storageRange_eq (hsorted : es.Pairwise (fun e e' => e.1 < e'.1))
    {storage : InsertionMap Bytes (Bytes × Bytes)}
    (hnew : ∀ e ∈ es, compactHash e.1 ∉ storage.keys) (hlen : storage.keys.length ≤ m) :
    (storageRange m es storage).storage.entries =
        storage.entries ++ (es.take (m - storage.keys.length)).map shown ∧
      (storageRange m es storage).nextKey =
        (es[m - storage.keys.length]?).map fun e => compactHash e.1 := by
  induction es generalizing storage with
  | nil => simp [storageRange]
  | cons e es ih =>
    by_cases hfull : storage.keys.length = m
    · rw [storageRange, if_pos hfull, hfull, Nat.sub_self]
      simp
    · obtain ⟨hfirst, hrest⟩ := List.pairwise_cons.mp hsorted
      have he : compactHash e.1 ∉ storage.keys := hnew e List.mem_cons_self
      have hc : storage.contains (compactHash e.1) = false := by
        cases hc : storage.contains (compactHash e.1) with
        | false => rfl
        | true => exact absurd ((storage.mem_keys _).mpr hc) he
      have hkeys : (storage.set (compactHash e.1) (compactWord e.2.1, compactWord e.2.2)).keys =
          storage.keys ++ [compactHash e.1] := if_neg (by rw [hc]; exact Bool.false_ne_true)
      have hnew' : ∀ e' ∈ es, compactHash e'.1 ∉
          (storage.set (compactHash e.1) (compactWord e.2.1, compactWord e.2.2)).keys := by
        intro e' he' hmem
        rw [hkeys, List.mem_append, List.mem_singleton] at hmem
        rcases hmem with hmem | heq
        · exact hnew e' (List.mem_cons_of_mem e he') hmem
        · exact (hfirst e' he').ne' (compactHash_injective heq)
      obtain ⟨k, hk⟩ : ∃ k, m - storage.keys.length = k + 1 :=
        ⟨m - storage.keys.length - 1, by omega⟩
      have hk' : m - (storage.keys.length + 1) = k := by omega
      have hlen' : (storage.set (compactHash e.1)
          (compactWord e.2.1, compactWord e.2.2)).keys.length = storage.keys.length + 1 := by
        rw [hkeys, List.length_append, List.length_singleton]
      obtain ⟨hentries, hnext⟩ := ih hrest hnew' (by rw [hlen']; omega)
      rw [hlen', hk'] at hentries hnext
      rw [storageRange, if_neg hfull, hk]
      refine ⟨?_, hnext⟩
      rw [hentries, InsertionMap.entries_set_new he, List.take_succ_cons, List.map_cons,
        List.append_assoc]
      rfl

end Page

/-! ### All pages -/

section Pages
variable {σ : Type} [NodeDB σ] {s : State} {db : WithAux σ} {a : Address} {storage : StorageMap}
  {m n : ℕ} {first : Bytes} {b : H256} {x : H256 × U256 × U256}

/-- The entries from a hash on. -/
def entriesFrom (storage : StorageMap) (b : H256) : List (H256 × U256 × U256) :=
  storage.entries.filter fun e => b ≤ e.1

omit [Sha3] in
theorem sorted_entriesFrom (storage : StorageMap) (b : H256) :
    (entriesFrom storage b).Pairwise (fun e e' => e.1 < e'.1) :=
  storage.sorted.sublist List.filter_sublist

omit [Sha3] in
/-- What the page after an entry begins with. -/
theorem entriesFrom_next (h : (entriesFrom storage b)[m]? = some x) :
    entriesFrom storage x.1 = (entriesFrom storage b).drop m := by
  have hx : x ∈ entriesFrom storage b := List.mem_of_getElem? h
  have hle : b ≤ x.1 := of_decide_eq_true (List.mem_filter.mp hx).2
  rw [← Paging.filter_eq_drop (sorted_entriesFrom storage b) h]
  unfold entriesFrom
  rw [List.filter_filter]
  apply List.filter_congr
  intro e _
  by_cases hxe : x.1 ≤ e.1
  · simp [hxe, hle.trans hxe]
  · simp [hxe]

theorem run_debug (hrun : ∀ fuel, n ≤ fuel → (s.storageEntries fuel a).run db = (.ok storage, db))
    (hm : 0 < m) (hfirst : h256fromHex first = .ok b) {fuel : ℕ} (hf : n ≤ fuel) :
    ∃ page, (debug_storageRangeAt fuel s a first m).run db = (.ok page, db) ∧
      page.storage.entries = ((entriesFrom storage b).take m).map shown ∧
      page.nextKey = ((entriesFrom storage b)[m]?).map fun e => compactHash e.1 := by
  have hnew : ∀ e ∈ entriesFrom storage b,
      compactHash e.1 ∉ (InsertionMap.empty : InsertionMap Bytes (Bytes × Bytes)).keys :=
    fun e _ => List.not_mem_nil
  obtain ⟨hentries, hnext⟩ := storageRange_eq (sorted_entriesFrom storage b) hnew (Nat.zero_le m)
  refine ⟨_, ?_, hentries, hnext⟩
  have hpos : ¬(m : ℤ) ≤ 0 := by omega
  have hmap : (mapError (fun _ => .invalidParams) (s.storageEntries fuel a) :
      Throwing (WithAux σ) DebugError StorageMap).run db = (.ok storage, db) := by
    rw [run_mapError, hrun fuel hf]
    rfl
  unfold debug_storageRangeAt
  rw [if_neg hpos, run_bind_ok hmap, hfirst]
  rfl

/-- Pages that end before keys that are not short have everything. -/
theorem run_pages_long
    (hrun : ∀ fuel, n ≤ fuel → (s.storageEntries fuel a).run db = (.ok storage, db)) (hm : 0 < m)
    (hfirst : h256fromHex first = .ok b)
    (hlong : ∀ x, (entriesFrom storage b)[m]? = some x → ¬Short x.1) :
    ∃ k, ∀ fuel calls, n ≤ fuel → k ≤ calls →
      (storagePages fuel s a m calls first).run db =
        (.ok ((entriesFrom storage b).map shown), db) := by
  induction hl : (entriesFrom storage b).length using Nat.strongRecOn generalizing first b with
  | ind l ih =>
    cases hx : (entriesFrom storage b)[m]? with
    | none =>
      refine ⟨1, fun fuel calls hf hc => ?_⟩
      obtain ⟨calls, rfl⟩ := Nat.exists_eq_add_one_of_ne_zero (by omega : calls ≠ 0)
      obtain ⟨page, hpage, hentries, hnext⟩ := run_debug hrun hm hfirst hf
      rw [hx] at hnext
      have hall : (entriesFrom storage b).length ≤ m := List.getElem?_eq_none_iff.mp hx
      rw [storagePages, run_bind_ok hpage, hnext]
      rw [List.take_of_length_le hall] at hentries
      rw [← hentries]
      rfl
    | some x =>
      have hrest := entriesFrom_next hx
      have hshort := hlong x hx
      obtain ⟨hlt, hxeq⟩ := List.getElem?_eq_some_iff.mp hx
      have hparse : h256fromHex (compactHash x.1) = .ok x.1 := by
        rw [h256fromHex_compactHash, if_neg hshort]
      have hlong' : ∀ y, (entriesFrom storage x.1)[m]? = some y → ¬Short y.1 := by
        intro y hy hys
        have hmem : y ∈ entriesFrom storage x.1 := List.mem_of_getElem? hy
        have hle : x.1 ≤ y.1 := of_decide_eq_true (List.mem_filter.mp hmem).2
        exact hshort (short_of_le hle hys)
      have hless : (entriesFrom storage x.1).length < l := by
        rw [hrest, List.length_drop]
        omega
      obtain ⟨k, hk⟩ := ih _ hless hparse hlong' rfl
      refine ⟨k + 1, fun fuel calls hf hc => ?_⟩
      obtain ⟨calls, rfl⟩ := Nat.exists_eq_add_one_of_ne_zero (by omega : calls ≠ 0)
      obtain ⟨page, hpage, hentries, hnext⟩ := run_debug hrun hm hfirst hf
      rw [hx] at hnext
      rw [storagePages, run_bind_ok hpage, hnext]
      dsimp only [Option.map_some]
      rw [run_bind_ok (hk fuel calls hf (by omega)), hentries, hrest, run_pure, ← List.map_append,
        List.take_append_drop]

/-- A page that ends before a short key is followed by the first one again. -/
theorem run_pages_short
    (hrun : ∀ fuel, n ≤ fuel → (s.storageEntries fuel a).run db = (.ok storage, db)) (hm : 0 < m)
    (hx : (entriesFrom storage H256.zero)[m]? = some x) (hshort : Short x.1) {fuel : ℕ}
    (hf : n ≤ fuel) (calls : ℕ) (hfirst : h256fromHex first = .ok H256.zero) :
    (storagePages fuel s a m calls first).run db = (.error .invalidParams, db) := by
  induction calls generalizing first with
  | zero => rfl
  | succ calls ih =>
    obtain ⟨page, hpage, hentries, hnext⟩ := run_debug hrun hm hfirst hf
    rw [hx] at hnext
    have hparse : h256fromHex (compactHash x.1) = .ok H256.zero := by
      rw [h256fromHex_compactHash, if_pos hshort]
    rw [storagePages, run_bind_ok hpage, hnext]
    dsimp only [Option.map_some]
    rw [run_bind_error (ih hparse)]

omit [Sha3] in
theorem entriesFrom_zero (storage : StorageMap) :
    entriesFrom storage H256.zero = storage.entries :=
  List.filter_eq_self.mpr fun e _ => decide_eq_true (H256.zero_le e.1)

end Pages

/-! ### What is in the trie -/

omit [Sha3] in
theorem toSlot_slotBytes (k : U256) : toSlot (slotBytes k) = k := by
  have hlt : k.toNat < 256 ^ 32 := k.isLt
  rw [toSlot, slotBytes, H256.ofRef_bytes, H256.toU256, H256.ofU256]
  have hbytes : (H256.alignRight (toBigEndian 32 k.toNat)).bytes = toBigEndian 32 k.toNat := by
    simp [H256.alignRight, List.take_of_length_le]
  rw [hbytes, fromBigEndian_toBigEndian, Nat.mod_eq_of_lt hlt, BitVec.ofNat_toNat,
    BitVec.setWidth_eq]

omit [Sha3] in
theorem toValue_slotRlp (v : U256) : toValue (slotRlp v) = .ok v := by
  have hlt : v.toNat < 256 ^ 32 := v.isLt
  have hreq := bytesRequired_le hlt
  have hlen := toCompactBigEndian_length v.toNat
  have hfit : (RLP.data (toCompactBigEndian v.toNat)).body.length < 2 ^ 64 - 1 - 0x100 := by
    show (toCompactBigEndian v.toNat).length < _
    omega
  obtain ⟨off, hs, hdrop⟩ := single_encode
    (r := ⟨.ofBytes (slotRlp v)⟩) (BytesConstRef.ofBytes_points _) (BytesConstRef.content_ofBytes _)
    hfit
  have hdata := (RLP.isData_encode (toCompactBigEndian v.toNat) (by omega)).1
  have hread : RLPView.toIntOf 32 ⟨.ofBytes (slotRlp v)⟩ Strict = .ok v.toNat := by
    apply RLPView.toIntOf_encode hs (n := v.toNat) _ _ hdrop hreq (by omega)
    · exact (BytesConstRef.content_ofBytes _).trans rfl
    · rw [show RLPView.content ⟨.ofBytes (slotRlp v)⟩ = slotRlp v from
        BytesConstRef.content_ofBytes _]
      exact hdata
  rw [toValue, RLPView.construct_of_extent hs.extent hs.size, RLPView.ok_bind, hread]
  show Except.ok (BitVec.ofNat 256 v.toNat) = _
  rw [BitVec.ofNat_toNat, BitVec.setWidth_eq]

/-- The trie at the root has these values of the slots, and none that is zero. -/
structure HoldsStorage {σ : Type} [NodeDB σ] [LawfulNodeDB σ] (db : WithAux σ) (root : H256)
    (value : U256 → U256) : Prop where
  keyed : ∃ m, Keyed sha3 db root m ∧ ∀ key b, m.find key = some b ↔
    ∃ k, key = slotBytes k ∧ b = slotRlp (value k) ∧ value k ≠ 0
  noCollision : NoCollision sha3 db.main
  root_ne : root ≠ H256.zero

section Trie
variable {σ : Type} [NodeDB σ] [LawfulNodeDB σ] {db : WithAux σ} {root : H256}
  {value : U256 → U256}

/-- An entry of the trie as the loop reads it. -/
def slotAt {σ : Type} (db : WithAux σ) (e : Bytes × Bytes) : H256 × U256 × U256 :=
  (H256.ofRef e.1, toSlot (db.lookupAux (H256.ofRef e.1)),
    (toValue e.2).toOption.getD 0)

theorem run_fromStorageTrie (hs : Devcore.Sound sha3 db.main) (hn : NoCollision sha3 db.main)
    {it : List TrailNode} {es : List (List Nibble × Value)} (h : Stands sha3 db.main it es)
    {bs : List (Bytes × Bytes)} (hm : Matches es bs) {acc : StorageMap}
    (hread : ∀ e ∈ bs, ∃ v, toValue e.2 = .ok v)
    (hsorted : (acc.entries ++ bs.map (slotAt db)).Pairwise (fun e e' => e.1 < e'.1)) :
    ∃ n ret, ret.entries = acc.entries ++ bs.map (slotAt db) ∧
      ∀ fuel, (State.fromStorageTrie (n + fuel) it acc).run db = (.ok ret, db) := by
  induction es generalizing it bs acc with
  | nil =>
    cases h
    obtain rfl : bs = [] := List.map_eq_nil_iff.mp hm.symm
    refine ⟨1, acc, by simp, fun fuel => ?_⟩
    rw [Nat.add_comm]
    rfl
  | cons e es ih =>
    obtain ⟨key, bs, rfl, hk, hm'⟩ := hm.cons
    obtain ⟨hne, hentry, n₁, it', hit', hnext⟩ := h.step hs hn hk
    obtain ⟨v, hv⟩ := hread (key, e.2.1) List.mem_cons_self
    have hslot : slotAt db (key, e.2.1) =
        (H256.ofRef key, toSlot (db.lookupAux (H256.ofRef key)), v) := by
      rw [slotAt, hv]
      rfl
    rw [List.map_cons] at hsorted ⊢
    obtain ⟨_, _, hbefore⟩ := List.pairwise_append.mp hsorted
    have hlast : (acc.insert (H256.ofRef key)
        (toSlot (db.lookupAux (H256.ofRef key)), v)).entries =
          acc.entries ++ [slotAt db (key, e.2.1)] := by
      rw [hslot]
      apply SortedMap.entries_insert_last
      intro x hx
      have hlt := hbefore x hx _ List.mem_cons_self
      rwa [hslot] at hlt
    have hsorted' : ((acc.insert (H256.ofRef key)
        (toSlot (db.lookupAux (H256.ofRef key)), v)).entries ++
          bs.map (slotAt db)).Pairwise (fun e e' => e.1 < e'.1) := by
      rw [hlast, List.append_assoc]
      exact hsorted
    obtain ⟨n₂, ret, hret, hrun⟩ := ih hit' hm'
      (fun e' he' => hread e' (List.mem_cons_of_mem _ he')) hsorted'
    refine ⟨n₁ + n₂ + 1, ret, ?_, fun fuel => ?_⟩
    · rw [hret, hlast, List.append_assoc]
      rfl
    · have hhashed : (super (GenericTrieDB.entryAt it)).run db = (.ok (key, e.2.1), db) := by
        rw [run_super, hentry]
      have hkey : (FatGenericTrieDB.entryAt it).run db =
          (.ok (db.lookupAux (H256.ofRef key), e.2.1), db) := by
        unfold FatGenericTrieDB.entryAt
        rw [run_bind_ok hhashed]
        rfl
      have hvalue : (lift ((toValue e.2.1).mapError ofRLP) : FatM σ U256).run db =
          (.ok v, db) := by
        rw [run_lift, hv]
        rfl
      have hmove : (super (next (n₁ + (n₂ + fuel)) it)).run db = (.ok it', db) := by
        rw [run_super, hnext (n₂ + fuel)]
      have hrest := hrun (n₁ + fuel)
      rw [show n₂ + (n₁ + fuel) = n₁ + (n₂ + fuel) by omega] at hrest
      rw [show n₁ + n₂ + 1 + fuel = n₁ + (n₂ + fuel) + 1 by omega, State.fromStorageTrie,
        if_neg hne, run_bind_ok hhashed]
      dsimp only
      rw [run_bind_ok hkey]
      dsimp only
      rw [run_bind_ok hvalue, run_bind_ok hmove, hrest]

/-- The loop over a storage trie gives its slots. -/
theorem run_fromTrieAt (h : HoldsStorage db root value) :
    ∃ n ret, (∀ fuel, n ≤ fuel → (State.fromTrieAt fuel root).run db = (.ok ret, db)) ∧
      ∀ h k v, ret.find h = some (k, v) ↔ h = slotHash k ∧ v = value k ∧ v ≠ 0 := by
  obtain ⟨mm, hkeyed, hslots⟩ := h.keyed
  obtain ⟨t, hashed, hholds, hreal, hhash⟩ := hkeyed.trie
  have hitem : ∀ e ∈ hashed.entries, ∃ k, value k ≠ 0 ∧
      e = ((slotHash k).bytes, slotRlp (value k)) := by
    intro e he
    obtain ⟨key, hkey, hv⟩ := (hhash e.1 e.2).mp (SortedMap.find_eq_some_iff.mpr he)
    obtain ⟨k, hk, hb, hne⟩ := (hslots key e.2).mp hv
    exact ⟨k, hne, Prod.ext (hkey.trans (congrArg (fun b => (sha3 b).bytes) hk)) hb⟩
  have hshow : ∀ k, value k ≠ 0 → slotAt db ((slotHash k).bytes, slotRlp (value k)) =
      (slotHash k, k, value k) := by
    intro k hne
    have hname : db.lookupAux (slotHash k) = slotBytes k := by
      apply hkeyed.names
      rw [(hslots (slotBytes k) (slotRlp (value k))).mpr ⟨k, rfl, rfl, hne⟩]
      rfl
    unfold slotAt
    dsimp only
    rw [H256.ofRef_bytes, hname, toSlot_slotBytes, toValue_slotRlp]
    rfl
  have hread : ∀ e ∈ hashed.entries, ∃ v, toValue e.2 = .ok v := by
    intro e he
    obtain ⟨k, hne, rfl⟩ := hitem e he
    exact ⟨value k, toValue_slotRlp _⟩
  have hsorted : ((SortedMap.empty : StorageMap).entries ++ hashed.entries.map (slotAt db)).Pairwise
      (fun e e' => e.1 < e'.1) := by
    show (hashed.entries.map (slotAt db)).Pairwise (fun e e' => e.1 < e'.1)
    rw [List.pairwise_map]
    apply hashed.sorted.imp_of_mem
    intro e e' he he' hlt
    obtain ⟨k, hne, rfl⟩ := hitem e he
    obtain ⟨k', hne', rfl⟩ := hitem e' he'
    rw [hshow k hne, hshow k' hne']
    exact H256.lt_def.mpr hlt
  obtain ⟨n₁, it, hit, hgo⟩ := goesTo_root hholds h.noCollision []
  rw [Tree.notBefore_nil] at hit
  obtain ⟨n₂, ret, hret, hwalk⟩ := run_fromStorageTrie hholds.sound h.noCollision hit
    (matches_of_realizes hreal) hread hsorted
  refine ⟨n₁ + n₂, ret, fun fuel hle => ?_, fun g k v => ?_⟩
  · obtain ⟨j, rfl⟩ : ∃ j, fuel = n₁ + n₂ + j := ⟨fuel - (n₁ + n₂), by omega⟩
    have h₁ := hgo (n₂ + j)
    have h₂ := hwalk (n₁ + j)
    rw [show n₂ + (n₁ + j) = n₁ + n₂ + j by omega] at h₂
    rw [← Nat.add_assoc, ← run_next] at h₁
    have hbegin : (super (GenericTrieDB.begin (n₁ + n₂ + j) root)).run db = (.ok it, db) := by
      unfold GenericTrieDB.begin
      rw [run_super, run_bind_ok (run_entered hholds), h₁]
    rw [State.fromTrieAt, if_pos h.root_ne, run_bind_ok hbegin, h₂]
  · rw [SortedMap.find_eq_some_iff, hret]
    show (g, k, v) ∈ hashed.entries.map (slotAt db) ↔ _
    rw [List.mem_map]
    constructor
    · rintro ⟨e, he, heq⟩
      obtain ⟨k', hne, rfl⟩ := hitem e he
      rw [hshow k' hne] at heq
      cases heq
      exact ⟨rfl, rfl, hne⟩
    · rintro ⟨rfl, rfl, hne⟩
      have hfind : hashed.find (slotHash k).bytes = some (slotRlp (value k)) :=
        (hhash _ _).mpr ⟨slotBytes k, rfl, (hslots _ _).mpr ⟨k, rfl, rfl, hne⟩⟩
      exact ⟨_, SortedMap.find_eq_some_iff.mp hfind, hshow k hne⟩

end Trie

/-! ### What is merged over it -/

/-- What is written over a slot is found, where the hashes of the slots that are written differ. -/
theorem find_mergeOverlay {l : List (U256 × U256)}
    (hl : l.Pairwise fun i j => slotHash i.1 ≠ slotHash j.1) (ret : StorageMap) (h : H256) :
    (State.mergeOverlay ret l).find h =
      match l.find? fun i => decide (slotHash i.1 = h) with
      | some i => if i.2 ≠ 0 then some i else none
      | none => ret.find h := by
  induction l generalizing ret with
  | nil => rfl
  | cons i l ih =>
    obtain ⟨hfirst, hrest⟩ := List.pairwise_cons.mp hl
    show (State.mergeOverlay (if i.2 ≠ 0 then ret.insert (slotHash i.1) i
      else ret.erase (slotHash i.1)) l).find h = _
    rw [ih hrest]
    by_cases hi : slotHash i.1 = h
    · have hnone : l.find? (fun i => decide (slotHash i.1 = h)) = none := by
        apply List.find?_eq_none.mpr
        intro j hj heq
        exact hfirst j hj (hi.trans (of_decide_eq_true heq).symm)
      have hhere : (i :: l).find? (fun i => decide (slotHash i.1 = h)) = some i := by simp [hi]
      rw [hnone, hhere]
      dsimp only
      split
      · rw [SortedMap.find_insert, if_pos hi.symm]
      · rw [SortedMap.find_erase, if_pos hi.symm]
    · have hlater : (i :: l).find? (fun i => decide (slotHash i.1 = h)) =
          l.find? fun i => decide (slotHash i.1 = h) := by simp [hi]
      rw [hlater]
      cases l.find? fun i => decide (slotHash i.1 = h) with
      | some j => rfl
      | none =>
        dsimp only
        split
        · rw [SortedMap.find_insert, if_neg (Ne.symm hi)]
        · rw [SortedMap.find_erase, if_neg (Ne.symm hi)]

/-- A slot that is written in the cache, or has a value in the trie. -/
def Account.Used (account : Account) (value : U256 → U256) (k : U256) : Prop :=
  (account.m_storageOverlay.find k).isSome = true ∨ value k ≠ 0

/-- The hashes of the slots at hand differ. -/
def Account.DistinctSlots (account : Account) (value : U256 → U256) : Prop :=
  ∀ k k', account.Used value k → account.Used value k' → slotHash k = slotHash k' → k = k'

section Merge
variable {account : Account} {value : U256 → U256}

theorem find_merged (hd : account.DistinctSlots value) {ret : StorageMap}
    (hret : ∀ h k v, ret.find h = some (k, v) ↔ h = slotHash k ∧ v = value k ∧ v ≠ 0) (h : H256)
    (k v : U256) :
    (State.mergeOverlay ret account.m_storageOverlay.entries).find h = some (k, v) ↔
      h = slotHash k ∧ v ≠ 0 ∧ v = (account.m_storageOverlay.find k).getD (value k) := by
  have hused : ∀ i ∈ account.m_storageOverlay.entries,
      account.m_storageOverlay.find i.1 = some i.2 := fun i hi => SortedMap.find_eq_some_iff.mpr hi
  have huse : ∀ i ∈ account.m_storageOverlay.entries, account.Used value i.1 := fun i hi =>
    .inl (by rw [hused i hi]; rfl)
  have hpair : account.m_storageOverlay.entries.Pairwise
      fun i j => slotHash i.1 ≠ slotHash j.1 := by
    apply account.m_storageOverlay.sorted.imp_of_mem
    intro i j hi hj hlt heq
    exact hlt.ne (hd i.1 j.1 (huse i hi) (huse j hj) heq)
  rw [find_mergeOverlay hpair]
  cases hf : account.m_storageOverlay.entries.find? fun i => decide (slotHash i.1 = h) with
  | some i =>
    have hi := List.mem_of_find?_eq_some hf
    have hhash : slotHash i.1 = h := by simpa using List.find?_some hf
    dsimp only
    constructor
    · intro hsome
      split at hsome
      case isTrue hne =>
        cases hsome
        exact ⟨hhash.symm, hne, by rw [hused _ hi]; rfl⟩
      case isFalse => cases hsome
    · rintro ⟨rfl, hne, hv⟩
      have huk : account.Used value k := by
        cases ho : account.m_storageOverlay.find k with
        | some w => exact .inl (by rw [ho]; rfl)
        | none =>
          rw [ho] at hv
          exact .inr fun h0 => hne (hv.trans h0)
      have hk := hd i.1 k (huse i hi) huk hhash
      rw [← hk, hused i hi] at hv
      obtain rfl : v = i.2 := hv
      rw [if_pos hne, ← hk]
  | none =>
    have hnot : ∀ w, h = slotHash k → account.m_storageOverlay.find k ≠ some w := by
      intro w hk ho
      exact List.find?_eq_none.mp hf (k, w) (SortedMap.find_eq_some_iff.mp ho)
        (decide_eq_true hk.symm)
    rw [hret]
    constructor
    · rintro ⟨hk, hv, hne⟩
      cases ho : account.m_storageOverlay.find k with
      | some w => exact absurd ho (hnot w hk)
      | none => exact ⟨hk, hne, hv⟩
    · rintro ⟨hk, hne, hv⟩
      cases ho : account.m_storageOverlay.find k with
      | some w => exact absurd ho (hnot w hk)
      | none =>
        rw [ho] at hv
        exact ⟨hk, hv, hne⟩

end Merge

/-! ### The storage of an address -/

section Listing
variable {σ : Type} [NodeDB σ] [LawfulNodeDB σ] {s : State} {db : WithAux σ} {a : Address}
  {D : Address → U256 → Prop}

/-- The database has the storage trie of the account, and the hashes of its slots differ. -/
structure KnownStorage (s : State) (db : WithAux σ) (a : Address) : Prop where
  holds : ∀ account, s.peek a = some account →
    HoldsStorage db account.m_storageRoot (s.m_db.storage account.m_storageRoot)
  distinct : ∀ account, s.peek a = some account →
    account.DistinctSlots (s.m_db.storage account.m_storageRoot)

theorem hasSlot_iff (hs : s.WellFormed D) (a : Address) (k v : U256) :
    s.HasSlot a k v ↔ v = storageOf (s.view a) k := by
  obtain ⟨t, hrun, -, -⟩ := State.reads_storage hs a k
  unfold State.HasSlot
  rw [hrun]
  exact ⟨fun h => (Except.ok.inj h).symm, fun h => congrArg Except.ok h.symm⟩

/-- `storage(address)` lists the slots that are not zero. -/
theorem run_storageEntries (hs : s.WellFormed D) (h : KnownStorage s db a) :
    ∃ n storage, (∀ fuel, n ≤ fuel → (s.storageEntries fuel a).run db = (.ok storage, db)) ∧
      ∀ g k v, storage.find g = some (k, v) ↔ g = slotHash k ∧ v ≠ 0 ∧ s.HasSlot a k v := by
  cases hp : s.peek a with
  | none =>
    refine ⟨0, .empty, fun fuel _ => ?_, fun g k v => ?_⟩
    · rw [State.storageEntries, hp]
      rfl
    · have hview : storageOf (s.view a) k = 0 := by
        rw [State.view, hp]
        rfl
      rw [hasSlot_iff hs, hview, SortedMap.find_empty]
      constructor
      · intro hnone
        cases hnone
      · rintro ⟨-, hne, h0⟩
        exact absurd h0 hne
  | some account =>
    obtain ⟨n, ret, hrun, hret⟩ := run_fromTrieAt (h.holds account hp)
    refine ⟨n, State.mergeOverlay ret account.m_storageOverlay.entries, fun fuel hf => ?_,
      fun g k v => ?_⟩
    · rw [State.storageEntries, hp]
      dsimp only
      rw [run_bind_ok (hrun fuel hf)]
      rfl
    · have hview : storageOf (s.view a) k =
          (account.m_storageOverlay.find k).getD (s.m_db.storage account.m_storageRoot k) := by
        rw [State.view, hp]
        rfl
      rw [find_merged (h.distinct account hp) hret, hasSlot_iff hs, hview]

/-- Of the slots that are not zero at most `m` have a hash that begins with a zero byte. -/
def FewShort (s : State) (a : Address) (m : ℕ) : Prop :=
  ∀ ks : List U256, ks.Nodup → (∀ k ∈ ks, Short (slotHash k) ∧ ∃ v, v ≠ 0 ∧ s.HasSlot a k v) →
    ks.length ≤ m

/-- The short hashes come first: there are few of them where the one behind `m` is not short. -/
theorem fewShort_iff {storage : StorageMap} {m : ℕ}
    (hspec : ∀ g k v, storage.find g = some (k, v) ↔ g = slotHash k ∧ v ≠ 0 ∧ s.HasSlot a k v) :
    FewShort s a m ↔ ∀ x, storage.entries[m]? = some x → ¬Short x.1 := by
  have hentry : ∀ e ∈ storage.entries, e.1 = slotHash e.2.1 ∧ e.2.2 ≠ 0 ∧
      s.HasSlot a e.2.1 e.2.2 := fun e he =>
    (hspec e.1 e.2.1 e.2.2).mp (SortedMap.find_eq_some_iff.mpr he)
  constructor
  · intro hfew x hx hshort
    obtain ⟨hlt, rfl⟩ := List.getElem?_eq_some_iff.mp hx
    have hfirst : ∀ e ∈ storage.entries.take (m + 1), e.1 ≤ (storage.entries[m]).1 := by
      intro e he
      have hsorted := storage.sorted
      rw [← List.take_append_drop m storage.entries, List.pairwise_append] at hsorted
      rw [List.take_succ_eq_append_getElem hlt, List.mem_append, List.mem_singleton] at he
      rcases he with he | rfl
      · have hmem : storage.entries[m] ∈ storage.entries.drop m := by
          rw [List.drop_eq_getElem_cons hlt]
          exact List.mem_cons_self
        exact (hsorted.2.2 e he _ hmem).le
      · exact le_rfl
    have hnodup : ((storage.entries.take (m + 1)).map fun e => e.2.1).Nodup := by
      apply List.Nodup.map_on
      · intro e he e' he' heq
        have hmem := hentry e (List.mem_of_mem_take he)
        have hmem' := hentry e' (List.mem_of_mem_take he')
        have hhash : e.1 = e'.1 := by rw [hmem.1, hmem'.1, heq]
        have hfind := SortedMap.find_eq_some_iff.mpr (List.mem_of_mem_take he)
        have hfind' := SortedMap.find_eq_some_iff.mpr (List.mem_of_mem_take he')
        rw [hhash] at hfind
        exact Prod.ext hhash (Option.some.inj (hfind.symm.trans hfind'))
      · exact storage.entries_nodup.sublist (List.take_sublist _ _)
    have hle := hfew _ hnodup fun k hk => by
      obtain ⟨e, he, rfl⟩ := List.mem_map.mp hk
      obtain ⟨hhash, hne, hslot⟩ := hentry e (List.mem_of_mem_take he)
      exact ⟨hhash ▸ short_of_le (hfirst e he) hshort, _, hne, hslot⟩
    rw [List.length_map, List.length_take] at hle
    omega
  · intro hlong ks hks hall
    have hmem : ∀ k ∈ ks, ∃ v, (slotHash k, k, v) ∈ storage.entries.take m := by
      intro k hk
      obtain ⟨hshort, v, hne, hslot⟩ := hall k hk
      have he : (slotHash k, k, v) ∈ storage.entries :=
        SortedMap.find_eq_some_iff.mp ((hspec _ _ _).mpr ⟨rfl, hne, hslot⟩)
      rw [← List.take_append_drop m storage.entries, List.mem_append] at he
      rcases he with he | he
      · exact ⟨v, he⟩
      · have hlt : m < storage.entries.length := by
          have hpos := List.length_pos_of_mem he
          rw [List.length_drop] at hpos
          omega
        have hle : (storage.entries[m]).1 ≤ slotHash k := by
          have hsorted : (storage.entries.drop m).Pairwise (fun e e' => e.1 < e'.1) :=
            storage.sorted.sublist (List.drop_sublist m _)
          rw [List.drop_eq_getElem_cons hlt] at he hsorted
          rcases List.mem_cons.mp he with heq | he
          · rw [← heq]
          · exact ((List.pairwise_cons.mp hsorted).1 _ he).le
        exact absurd (short_of_le hle hshort) (hlong _ (List.getElem?_eq_getElem hlt))
    have hinj : (ks.map slotHash).Nodup := by
      apply List.Nodup.map_on _ hks
      intro k hk k' hk' heq
      obtain ⟨v, hv⟩ := hmem k hk
      obtain ⟨v', hv'⟩ := hmem k' hk'
      have hfind := SortedMap.find_eq_some_iff.mpr (List.mem_of_mem_take hv)
      have hfind' := SortedMap.find_eq_some_iff.mpr (List.mem_of_mem_take hv')
      rw [heq] at hfind
      exact congrArg Prod.fst (Option.some.inj (hfind.symm.trans hfind'))
    have hsub : ks.map slotHash ⊆ (storage.entries.take m).map Prod.fst := by
      intro g hg
      obtain ⟨k, hk, rfl⟩ := List.mem_map.mp hg
      obtain ⟨v, hv⟩ := hmem k hk
      exact List.mem_map.mpr ⟨_, hv, rfl⟩
    have hle := (hinj.subperm hsub).length_le
    rw [List.length_map, List.length_map] at hle
    exact hle.trans (List.length_take_le m _)

omit [Sha3] in
theorem h256fromHex_zero : h256fromHex (toHexPrefixed H256.zero.bytes) = .ok H256.zero := by
  unfold h256fromHex
  rw [fromHex_toHexPrefixed (by rw [H256.zero.size]; norm_num)]
  exact congrArg Except.ok (H256.ofRef_bytes H256.zero)

omit [LawfulNodeDB σ] in
theorem fewShort_of_complete {m : ℕ} (hm : 0 < m) (h : StoragePagesComplete s db a m) :
    FewShort s a m := by
  obtain ⟨storage, ⟨n, hrun⟩, hspec, k, hpages⟩ := h
  rw [fewShort_iff hspec]
  intro x hx hshort
  rw [← entriesFrom_zero storage] at hx
  have herror := run_pages_short hrun hm hx hshort (le_max_left n k) k h256fromHex_zero
  rw [hpages _ k (le_max_right n k) le_rfl] at herror
  cases herror

end Listing

end Aleth.Ethereum

/-! ### Two slots with real hashes -/

namespace Aleth.Ethereum
open Devcore Throwing Patricia GenericTrieDB FatGenericTrieDB

def storageSamples : List (ℕ × ℕ × ℕ) :=
  [(1, 0x80, 0x56e81f171bcc55a6ff8345e692c0f86e5b48e01b996cadc001622fb5e363b421),
   (0, 0x0, 0xc5d2460186f7233c927e7db2dcc703c0e500b653ca82273b7bfad8045d85a470),
   (32, 480, 0x005761dee20a44baaf17dcbe34055177c421f61c61b70817f3a26219b96cfee1),
   (32, 581, 0x0079a4e850d506d72240d14b8f48335c309112acba0ea190020cd84fe377ec30)]

/-- Keccak-256 on the sample strings. -/
@[reducible] def storageSha3 : Sha3 where
  sha3 b := H256.alignRight (toBigEndian 32
    (((storageSamples.find? fun e => toBigEndian e.1 e.2.1 = b).map fun e => e.2.2).getD 0))

attribute [local instance] storageSha3

def emptyStateDB : StateDB where
  account _ := none
  storage _ _ := 0
  code _ := []
  storage_empty _ := rfl
  code_hash _ _ h := nomatch h

/-- A contract with two slots that are not committed. -/
def twoSlots : Account := ((Account.ofBalance 0 0).setStorage 480 1).setStorage 581 1

def twoSlotsState : State :=
  ⟨emptyStateDB, SortedMap.empty.insert 1 twoSlots, [], [], 0, [], fun _ => 0⟩

theorem find_twoSlots {a : Address} {account : Account}
    (h : twoSlotsState.m_cache.find a = some account) : account = twoSlots := by
  rw [twoSlotsState, SortedMap.find_insert] at h
  split at h
  · exact (Option.some.inj h).symm
  · cases h

theorem wellFormed_twoSlots : twoSlotsState.WellFormed fun _ _ => False where
  nonExisting a ha := by cases ha
  coherent a account h := by
    rw [find_twoSlots h]
    exact ⟨fun k v hk => (nomatch hk), rfl⟩
  clean a account h hd := by
    rw [find_twoSlots h] at hd
    cases hd

theorem peek_twoSlots {account : Account} (h : twoSlotsState.peek 1 = some account) :
    account = twoSlots :=
  (Option.some.inj h).symm

theorem knownStorage_twoSlots :
    ∃ db : WithAux StateCacheDB, KnownStorage twoSlotsState db 1 := by
  have hn : NoCollision sha3 ((super (GenericTrieDB.init sha3)).run fresh).2.main := by
    decide +kernel
  obtain ⟨db, hrun, hkeyed, -⟩ := keyed_init sound_fresh hn
  rw [hrun] at hn
  refine ⟨db, fun account h => ?_, fun account h => ?_⟩
  · rw [peek_twoSlots h]
    refine ⟨⟨.empty, hkeyed, fun key b => ?_⟩, hn, by decide⟩
    constructor
    · exact nofun
    · rintro ⟨k, -, -, hne⟩
      exact absurd rfl hne
  · rw [peek_twoSlots h]
    have hused : ∀ k, twoSlots.Used (fun _ => 0) k → k ∈ [480, 581] := by
      rintro k (hk | hk)
      · have hfind : (((SortedMap.empty.insert (480 : U256) (1 : U256)).insert 581 1).find
            k).isSome = true := hk
        rw [SortedMap.find_insert, SortedMap.find_insert] at hfind
        by_cases h581 : k = 581
        · exact List.mem_pair.mpr (.inr h581)
        · by_cases h480 : k = 480
          · exact List.mem_pair.mpr (.inl h480)
          · rw [if_neg h581, if_neg h480] at hfind
            cases hfind
      · exact absurd rfl hk
    have hhashes : (([480, 581] : List U256).map slotHash).Nodup := by decide +kernel
    exact fun k k' hk hk' => List.inj_on_of_nodup_map hhashes (hused k hk) (hused k' hk')

end Aleth.Ethereum
