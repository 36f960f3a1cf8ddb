import Aleth.Libp2p.ENRParse

/-! The identity scheme "v4" of node records.

The signature is over the hash of the content, with the key that the record
names. Records that are created are parsed again as they were, and records that
are updated as long as their sequence number fits in 32 bits. -/
namespace Aleth.P2p
open Devcore
open RLPView BytesConstRef RLPStream

/-- Signing with a secret key, and checking with its compressed public key. -/
class Ecdsa (Secret : Type) where
  toPublicCompressed : Secret → {b : Bytes // b.length = 33}
  sign : Secret → H256 → {b : Bytes // b.length = 65}
  verify : Bytes → Bytes → H256 → Bool

/-- "id" -/
def c_keyID : Bytes := [0x69, 0x64]
/-- "secp256k1" -/
def c_keySecp256k1 : Bytes := [0x73, 0x65, 0x63, 0x70, 0x32, 0x35, 0x36, 0x6b, 0x31]
/-- "ip" -/
def c_keyIP : Bytes := [0x69, 0x70]
/-- "ip6" -/
def c_keyIP6 : Bytes := [0x69, 0x70, 0x36]
/-- "tcp" -/
def c_keyTCP : Bytes := [0x74, 0x63, 0x70]
/-- "udp" -/
def c_keyUDP : Bytes := [0x75, 0x64, 0x70]
/-- "v4" -/
def c_IDV4 : Bytes := [0x76, 0x34]

namespace IdentitySchemeV4

/-- `keyValuePairs[key] = rlp(value)`. -/
def put (key : Bytes) (value : RLPStream → Except RLPException RLPStream)
    (keyValuePairs : SortedMap Bytes Bytes) : Except RLPException (SortedMap Bytes Bytes) := do
  return keyValuePairs.insert key (← out (← value empty))

def putPort (key : Bytes) (port : UInt16) (keyValuePairs : SortedMap Bytes Bytes) :
    Except RLPException (SortedMap Bytes Bytes) :=
  if port ≠ 0 then put key (appendUnsigned port.toNat) keyValuePairs else .ok keyValuePairs

def putAddress (ip : Address) (keyValuePairs : SortedMap Bytes Bytes) :
    Except RLPException (SortedMap Bytes Bytes) :=
  if ip.is_unspecified then .ok keyValuePairs
  else match ip with
    | .v4 bytes _ => put c_keyIP (append bytes false) keyValuePairs
    | .v6 bytes _ => put c_keyIP6 (append bytes false) keyValuePairs

section Scheme
variable [Sha3] {Secret : Type} [Ecdsa Secret]

def sign (data : Bytes) (secret : Secret) : Bytes := (Ecdsa.sign secret (sha3 data)).1.take 64

def createKeyValuePairs (secret : Secret) (ip : Address) (tcpPort udpPort : UInt16) :
    Except RLPException (SortedMap Bytes Bytes) := do
  let publicKey := (Ecdsa.toPublicCompressed secret).1
  let keyValuePairs ← put c_keyID (append c_IDV4 false) .empty
  let keyValuePairs ← put c_keySecp256k1 (append publicKey false) keyValuePairs
  let keyValuePairs ← putPort c_keyTCP tcpPort keyValuePairs
  let keyValuePairs ← putPort c_keyUDP udpPort keyValuePairs
  putAddress ip keyValuePairs

def createENR (secret : Secret) (ip : Address) (tcpPort udpPort : UInt16) :
    Except RLPException ENR := do
  ENR.create 1 (← createKeyValuePairs secret ip tcpPort udpPort) fun data => sign data secret

def updateENR (enr : ENR) (secret : Secret) (ip : Address) (tcpPort udpPort : UInt16) :
    Except RLPException ENR := do
  enr.update (← createKeyValuePairs secret ip tcpPort udpPort) fun data => sign data secret

/-- `h512(signature)`: zeros if it has another size. -/
def h512 (b : Bytes) : Bytes := if b.length = 64 then b else List.replicate 64 0

def readString (v : Bytes) : Except ENRException Bytes :=
  (construct (ofBytes v) VeryStrict >>= fun r => r.toBytes VeryStrict).mapError .RLP

def readKey (v : Bytes) : Except ENRException Bytes :=
  (construct (ofBytes v) VeryStrict >>= fun r => r.toHash 33 VeryStrict).mapError .RLP

variable (Secret) in
/-- With the key of the record. -/
def verifyKey (keyValuePairs : SortedMap Bytes Bytes) (signature data : Bytes) :
    Except ENRException Bool :=
  match keyValuePairs.find c_keySecp256k1 with
  | none => .ok false
  | some v => do
    let key ← readKey v
    return Ecdsa.verify Secret key (h512 signature) (sha3 data)

variable (Secret) in
/-- The verification that `parseENR` passes. -/
def verify : VerifyFunction := fun keyValuePairs signature data =>
  match keyValuePairs.find c_keyID with
  | none => .ok false
  | some v => do
    let id ← readString v
    if id ≠ c_IDV4 then return false else verifyKey Secret keyValuePairs signature data

variable (Secret) in
def parseENR (r : RLPView) : Option (Except ENRException ENR) := ENR.parse r (verify Secret)

end Scheme

/-! ### The pairs -/

/-- At most so many pairs, with short keys and short strings for values. -/
structure Short (n : ℕ) (m : SortedMap Bytes Bytes) : Prop where
  count : m.entries.length ≤ n
  key : ∀ kv ∈ m.entries, kv.1.length ≤ 9
  value : ∀ kv ∈ m.entries, ∃ s, kv.2 = appendData s ∧ s.length ≤ 33

theorem short_empty : Short 0 .empty := ⟨le_refl 0, nofun, nofun⟩

theorem Short.mono {n k : ℕ} {m : SortedMap Bytes Bytes} (h : Short n m) (hk : n ≤ k) :
    Short k m := ⟨h.count.trans hk, h.key, h.value⟩

theorem Short.insert {n : ℕ} {m : SortedMap Bytes Bytes} {key s : Bytes} (h : Short n m)
    (hkey : key.length ≤ 9) (hs : s.length ≤ 33) : Short (n + 1) (m.insert key (appendData s)) where
  count := (SortedMap.length_insert_le m key _).trans (Nat.succ_le_succ h.count)
  key kv hkv := by
    rcases SortedMap.mem_insertList hkv with rfl | hkv
    · exact hkey
    · exact h.key kv hkv
  value kv hkv := by
    rcases SortedMap.mem_insertList hkv with rfl | hkv
    · exact ⟨s, rfl, hs⟩
    · exact h.value kv hkv

theorem put_eq {key e : Bytes} {value : RLPStream → Except RLPException RLPStream}
    (h : Writes value e) (m : SortedMap Bytes Bytes) : put key value m = .ok (m.insert key e) := by
  unfold put
  rw [h]
  rfl

/-- Two maps with the same values at the two keys that are looked at. -/
def SameIdentity (m m' : SortedMap Bytes Bytes) : Prop :=
  m'.find c_keyID = m.find c_keyID ∧ m'.find c_keySecp256k1 = m.find c_keySecp256k1

theorem sameIdentity_insert {m : SortedMap Bytes Bytes} {key e : Bytes} (h : key ≠ c_keyID)
    (h' : key ≠ c_keySecp256k1) : SameIdentity m (m.insert key e) := by
  constructor
  · rw [SortedMap.find_insert, if_neg h.symm]
  · rw [SortedMap.find_insert, if_neg h'.symm]

theorem putPort_ok {n : ℕ} {m : SortedMap Bytes Bytes} {key : Bytes} (port : UInt16)
    (h : Short n m) (hlen : key.length ≤ 9) (hkey : key ≠ c_keyID) (hkey' : key ≠ c_keySecp256k1) :
    ∃ m', putPort key port m = .ok m' ∧ Short (n + 1) m' ∧ SameIdentity m m' := by
  have hlt := port.toNat_lt
  have hmod : port.toNat % 2 ^ 32 = port.toNat := Nat.mod_eq_of_lt (by omega)
  have hbr : bytesRequired port.toNat ≤ 2 := bytesRequired_le (hlt.trans_eq (by norm_num))
  unfold putPort
  split
  · have hw : Writes (appendUnsigned port.toNat) (appendData (toCompactBigEndian port.toNat)) := by
      unfold appendUnsigned
      rw [hmod]
      exact writes_appendInt (by omega)
    refine ⟨_, put_eq hw m, h.insert hlen ?_, sameIdentity_insert hkey hkey'⟩
    rw [toCompactBigEndian_length]
    omega
  · exact ⟨m, rfl, h.mono (Nat.le_succ n), rfl, rfl⟩

theorem putAddress_ok {n : ℕ} {m : SortedMap Bytes Bytes} (ip : Address) (h : Short n m) :
    ∃ m', putAddress ip m = .ok m' ∧ Short (n + 1) m' ∧ SameIdentity m m' := by
  have hw : ∀ {b : Bytes}, b.length ≤ 33 → Writes (append b false) (appendData b) := fun hb =>
    writes_append (by omega)
  unfold putAddress
  split
  · exact ⟨m, rfl, h.mono (Nat.le_succ n), rfl, rfl⟩
  · cases ip with
    | v4 bytes size =>
      exact ⟨_, put_eq (hw (by omega)) m, h.insert (by decide) (by omega),
        sameIdentity_insert (by decide) (by decide)⟩
    | v6 bytes size =>
      exact ⟨_, put_eq (hw (by omega)) m, h.insert (by decide) (by omega),
        sameIdentity_insert (by decide) (by decide)⟩

/-- The pairs of a record name the scheme and the key. -/
structure Identified (key : Bytes) (m : SortedMap Bytes Bytes) : Prop where
  short : Short 5 m
  id : m.find c_keyID = some (appendData c_IDV4)
  key : m.find c_keySecp256k1 = some (appendData key)

theorem createKeyValuePairs_ok {Secret : Type} [Ecdsa Secret] (secret : Secret) (ip : Address)
    (tcpPort udpPort : UInt16) : ∃ m, createKeyValuePairs secret ip tcpPort udpPort = .ok m ∧
      Identified (Ecdsa.toPublicCompressed secret).1 m := by
  have hsize := (Ecdsa.toPublicCompressed secret).2
  have hid : Writes (append c_IDV4 false) (appendData c_IDV4) := writes_append (by decide)
  have hkey : Writes (append (Ecdsa.toPublicCompressed secret).1 false)
      (appendData (Ecdsa.toPublicCompressed secret).1) := writes_append (by omega)
  have hshort : Short 2 ((SortedMap.empty.insert c_keyID (appendData c_IDV4)).insert c_keySecp256k1
      (appendData (Ecdsa.toPublicCompressed secret).1)) :=
    (short_empty.insert (by decide) (by decide)).insert (by decide) hsize.le
  obtain ⟨m₁, h₁, hs₁, hid₁, hkey₁⟩ := @putPort_ok _ _ c_keyTCP tcpPort hshort
    (by decide) (by decide) (by decide)
  obtain ⟨m₂, h₂, hs₂, hid₂, hkey₂⟩ := @putPort_ok _ _ c_keyUDP udpPort hs₁
    (by decide) (by decide) (by decide)
  obtain ⟨m₃, h₃, hs₃, hid₃, hkey₃⟩ := putAddress_ok ip hs₂
  refine ⟨m₃, ?_, hs₃, ?_, ?_⟩
  · unfold createKeyValuePairs
    rw [put_eq hid, ok_bind, put_eq hkey, ok_bind, h₁, ok_bind, h₂, ok_bind, h₃]
  · rw [hid₃, hid₂, hid₁, SortedMap.find_insert, SortedMap.find_insert, if_neg (by decide),
      if_pos rfl]
  · rw [hkey₃, hkey₂, hkey₁, SortedMap.find_insert, if_pos rfl]

/-! ### Records are short -/

/-- The pairs take no more than so many bytes each. -/
theorem length_pairs_le {n : ℕ} {kvs : List (Bytes × Bytes)} (hn : kvs.length ≤ n)
    (hkey : ∀ kv ∈ kvs, kv.1.length ≤ 9)
    (hvalue : ∀ kv ∈ kvs, ∃ s, kv.2 = appendData s ∧ s.length ≤ 33) :
    (kvs.flatMap fun kv => [appendData kv.1, kv.2]).flatten.length ≤ 44 * n := by
  induction kvs generalizing n with
  | nil => exact Nat.zero_le _
  | cons kv kvs ih =>
    obtain ⟨n, rfl⟩ : ∃ m, n = m + 1 := ⟨n - 1, by rw [List.length_cons] at hn; omega⟩
    have htail := ih (Nat.le_of_succ_le_succ hn) (fun x hx => hkey x (List.mem_cons_of_mem _ hx))
      fun x hx => hvalue x (List.mem_cons_of_mem _ hx)
    obtain ⟨s, hs, hslen⟩ := hvalue kv List.mem_cons_self
    have hk := hkey kv List.mem_cons_self
    have hkl := length_appendData_le (s := kv.1) (by omega)
    have hsl := length_appendData_le (s := s) (by omega)
    simp only [List.flatMap_cons, List.flatten_append, List.length_append, List.flatten_cons,
      List.flatten_nil, List.append_nil, hs]
    omega

theorem length_header_le (immStart indZero n : ℕ) :
    (header immStart indZero n).length ≤ 1 + bytesRequired n := by
  unfold header
  split
  · simp
  · simp [Nat.add_comm]

theorem length_signature_le {sig : Bytes} (h : sig.length = 64) :
    (appendData sig).length ≤ 66 := by
  have hhead := length_header_le c_rlpDataImmLenStart c_rlpDataIndLenZero 64
  have hbr : bytesRequired 64 ≤ 1 := bytesRequired_le (by norm_num)
  unfold appendData
  split
  · rw [List.length_singleton] at h
    cases h
  · rw [List.length_append, h]
    omega

theorem length_payload_le {m : SortedMap Bytes Bytes} {sig : Bytes} {seq : ℕ} (hm : Short 5 m)
    (hsig : sig.length = 64) (hseq : seq < 2 ^ 32) :
    (appendData sig :: ENR.wire seq m.entries).flatten.length ≤ 291 := by
  have hpairs := length_pairs_le hm.count hm.key hm.value
  have hs := length_signature_le hsig
  have hbr : bytesRequired seq ≤ 4 := bytesRequired_le (hseq.trans_eq (by norm_num))
  have hnumber := length_numberItem_le hbr (by norm_num)
  unfold ENR.wire
  rw [List.flatten_cons, List.flatten_cons, List.length_append, List.length_append]
  omega

theorem length_record_le {p : Bytes} (h : p.length ≤ 291) :
    (Devcore.appendList p).length ≤ c_ENRMaxSizeBytes := by
  have hhead := length_header_le c_rlpListStart c_rlpListIndLenZero p.length
  have hbr : bytesRequired p.length ≤ 2 := bytesRequired_le (by omega)
  unfold Devcore.appendList c_ENRMaxSizeBytes
  rw [List.length_append]
  omega

/-! ### Created and updated records -/

section Records
variable [Sha3] {Secret : Type} [Ecdsa Secret]

variable (Secret) in
/-- Parsing what the record is written as gives the record. -/
def Parses (e : ENR) : Prop :=
  ∃ b, e.rlp = .ok b ∧ ENR.parseBytes b (verify Secret) = some (.ok e)

/-- The key pair signs what it verifies. -/
def SignsWell (secret : Secret) : Prop := ∀ h, Ecdsa.verify Secret
  (Ecdsa.toPublicCompressed secret).1 ((Ecdsa.sign secret h).1.take 64) h = true

theorem length_sign (secret : Secret) (data : Bytes) : (sign data secret).length = 64 := by
  unfold sign
  rw [List.length_take, (Ecdsa.sign secret (sha3 data)).2]
  rfl

omit [Sha3] in
theorem read_appendData {α : Type} {convert : RLPView → Except RLPException α}
    {write : α → Bytes} {Valid : α → Prop} (hc : Converts convert write Valid) {a : α} {s : Bytes}
    (hw : write a = appendData s) (ha : Valid a) (hs : s.length < 2 ^ 64 - 1 - 0x100) :
    (construct (ofBytes (appendData s)) VeryStrict >>= convert) = .ok a := by
  obtain ⟨off, len, hsingle⟩ := single_appendData hs
  rw [construct_of_single hsingle, ok_bind]
  exact hc.read hsingle ((content_ofBytes _).trans hw.symm) ha

/-- The verification looks at the signature with the key of the record. -/
theorem verify_eq {m : SortedMap Bytes Bytes} {key sig data : Bytes} (hm : Identified key m)
    (hkey : key.length = 33) (hsig : sig.length = 64) :
    verify Secret m sig data = .ok (Ecdsa.verify Secret key sig (sha3 data)) := by
  have hid : readString (appendData c_IDV4) = .ok c_IDV4 :=
    mapError_eq_ok.mpr (read_appendData converts_toBytes rfl (by decide) (by decide))
  have hhash : readKey (appendData key) = .ok key :=
    mapError_eq_ok.mpr (read_appendData (converts_toHash 33 (by norm_num)) rfl hkey (by omega))
  have h512 : h512 sig = sig := if_pos hsig
  unfold verify
  rw [hm.id]
  dsimp only
  rw [hid, ok_bind, if_neg (not_not.mpr rfl), verifyKey, hm.key]
  dsimp only
  rw [hhash, h512]
  rfl

/-- A record of a created map is parsed again if and only if its number fits in 32 bits. -/
theorem parses_iff {secret : Secret} {m : SortedMap Bytes Bytes} (seq : UInt64)
    (hsign : SignsWell secret) (hm : Identified (Ecdsa.toPublicCompressed secret).1 m) :
    ∃ e, ENR.create seq m (fun data => sign data secret) = .ok e ∧
      (Parses Secret e ↔ seq.toNat < 2 ^ 32) := by
  have hmod : seq.toNat % 2 ^ 32 < 2 ^ 32 := Nat.mod_lt _ (by norm_num)
  let c := Devcore.appendList (ENR.wire (seq.toNat % 2 ^ 32) m.entries).flatten
  let e : ENR := ⟨seq, m, sign c secret⟩
  have hlen : (appendData e.m_signature :: e.contentItems).flatten.length ≤ 291 :=
    length_payload_le hm.short (length_sign secret c) hmod
  have hcontent : (⟨seq, m, []⟩ : ENR).content = .ok c := by
    apply ENR.content_eq
    show e.contentItems.flatten.length < 2 ^ 64
    rw [List.flatten_cons, List.length_append] at hlen
    omega
  refine ⟨e, ?_, ?_, fun hseq => ⟨_, ENR.rlp_eq (by omega), ?_⟩⟩
  · unfold ENR.create
    rw [hcontent]
    rfl
  · rintro ⟨b, hrlp, hparse⟩
    obtain ⟨hsize, hr, -⟩ := ENR.accepted hparse
    exact (ENR.seq_of_rlp hr hsize hrlp).1
  · have hitems : e.contentItems = ENR.wire seq.toNat m.entries := by
      show ENR.wire (seq.toNat % 2 ^ 32) m.entries = _
      rw [Nat.mod_eq_of_lt hseq]
    have hvalues : ∀ kv ∈ m.entries, IsItem kv.2 := by
      intro kv hkv
      obtain ⟨s, hs, hslen⟩ := hm.short.value kv hkv
      rw [hs]
      exact isItem_appendData (by omega)
    have hreads : Reads (Devcore.appendList (appendData e.m_signature :: e.contentItems).flatten)
        e.m_signature seq m.entries := by
      rw [hitems] at hlen ⊢
      exact reads_of_wire hvalues (by omega)
    have hsize := length_record_le hlen
    rw [ENR.parseBytes_of_reads hreads hsize,
      ENR.check_ascending m.sorted (ENR.length_wire hreads hsize)]
    have hverify : verify Secret m (sign c secret) c = .ok true := by
      rw [verify_eq hm (Ecdsa.toPublicCompressed secret).2 (length_sign secret c)]
      exact congrArg Except.ok (hsign (sha3 c))
    show some (verify Secret m (sign c secret) c >>= _) = _
    rw [hverify]
    rfl

/-- **Node records are parsed exactly and parsed as they were made, where they are lists of keys
with values, numbered in 32 bits, whose keys do not repeat at the end.** -/
theorem parsed_exactly_iff :
    (∀ verify b, ENR.Exact verify b ↔ ¬ENR.Defective verify b) ∧
      ∀ secret : Secret, SignsWell secret → ∀ (ip : Address) (tcpPort udpPort : UInt16),
        (∃ e, createENR secret ip tcpPort udpPort = .ok e ∧ Parses Secret e) ∧
          ∀ enr, ∃ e, updateENR enr secret ip tcpPort udpPort = .ok e ∧
            (Parses Secret e ↔ (enr.m_seq + 1).toNat < 2 ^ 32) := by
  refine ⟨fun verify b => ENR.parseBytes_exact_iff, fun secret hsign ip tcpPort udpPort => ?_⟩
  obtain ⟨m, hpairs, hm⟩ := createKeyValuePairs_ok secret ip tcpPort udpPort
  constructor
  · obtain ⟨e, he, hparses⟩ := parses_iff 1 hsign hm
    refine ⟨e, ?_, hparses.mpr (by decide)⟩
    unfold createENR
    rw [hpairs]
    exact he
  · intro enr
    obtain ⟨e, he, hparses⟩ := parses_iff (enr.m_seq + 1) hsign hm
    refine ⟨e, ?_, hparses⟩
    unfold updateENR
    rw [hpairs]
    exact he

end Records

/-! ### Records on the wire -/

/-- A hash, a key pair for each bit, and signatures that repeat the hash and name the key. -/
@[reducible] def sampleSha3 : Sha3 where
  sha3 b := .alignRight (b.take 32)

@[reducible] def sampleEcdsa : Ecdsa Bool where
  toPublicCompressed s := ⟨List.replicate 33 (if s then 3 else 2), List.length_replicate⟩
  sign s h := ⟨h.bytes ++ List.replicate 33 (if s then 3 else 2), by
    rw [List.length_append, h.size, List.length_replicate]⟩
  verify key sig h := sig = h.bytes ++ key.take 32

theorem signsWell_sample : @SignsWell Bool sampleEcdsa true := by
  intro h
  apply decide_eq_true
  show (h.bytes ++ List.replicate 33 (3 : UInt8)).take 64 = _
  rw [List.take_append, h.size, List.take_of_length_le (by rw [h.size]; norm_num)]
  rfl

theorem parsed_exactly_created : ∃ e,
    @createENR sampleSha3 Bool sampleEcdsa true (.v4 [8, 8, 8, 8] rfl) 30303 30303 = .ok e ∧
      @Parses sampleSha3 Bool sampleEcdsa e :=
  ((@parsed_exactly_iff sampleSha3 Bool sampleEcdsa).2 true signsWell_sample _ _ _).1

/-- A verification that takes everything. -/
def dummyVerifyFunction : VerifyFunction := fun _ _ _ => .ok true

/-- The key "key" twice, with empty values. -/
def repeatedKey : Bytes :=
  [0xcc, 0x80, 0x80, 0x83, 0x6b, 0x65, 0x79, 0x80, 0x83, 0x6b, 0x65, 0x79, 0x80]

/-- The key "key" without a value. -/
def missingValue : Bytes := [0xc6, 0x80, 0x80, 0x83, 0x6b, 0x65, 0x79]

/-- The sequence number 2 ^ 32. -/
def largeNumber : Bytes := [0xc7, 0x80, 0x85, 1, 0, 0, 0, 0]

/-- The comparison goes on behind the map, a key without a value is accepted, and a number that
was not signed is. -/
theorem not_exact_samples : ¬ENR.Exact dummyVerifyFunction repeatedKey ∧
    ¬ENR.Exact dummyVerifyFunction missingValue ∧ ¬ENR.Exact dummyVerifyFunction largeNumber := by
  refine ⟨?_, ?_, ?_⟩
  · rintro ⟨result, hresult, -⟩
    have hnone : ENR.parseBytes repeatedKey dummyVerifyFunction = none := by decide +kernel
    rw [hnone] at hresult
    cases hresult
  · rintro ⟨result, hresult, hexact⟩
    have hok : ENR.parseBytes missingValue dummyVerifyFunction =
        some (.ok ⟨0, ⟨[([0x6b, 0x65, 0x79], [])], by simp⟩, []⟩) := by decide +kernel
    rw [hok] at hresult
    have hvalue := (hexact _ (Option.some.inj hresult).symm).1.valued _ List.mem_cons_self
    exact not_isItem_nil hvalue
  · rintro ⟨result, hresult, hexact⟩
    have hok : ENR.parseBytes largeNumber dummyVerifyFunction =
        some (.ok ⟨2 ^ 32, .empty, []⟩) := by decide +kernel
    rw [hok] at hresult
    have hrlp := (hexact _ (Option.some.inj hresult).symm).2.2
    have hcut : ENR.rlp ⟨2 ^ 32, .empty, []⟩ = .ok [0xc2, 0x80, 0x80] := by decide +kernel
    rw [hcut] at hrlp
    cases hrlp

end IdentitySchemeV4
end Aleth.P2p
