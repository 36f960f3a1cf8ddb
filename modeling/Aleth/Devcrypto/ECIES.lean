import Aleth.Devcore.Bytes
import Mathlib

/-! Encryption to a public key (`CryptoPP.cpp`, `Common.cpp`).

A message is a format byte, the ephemeral public key, the initialization vector,
the ciphertext and a tag. The tag is over the vector, the ciphertext and the MAC
data, without anything between them; of the shared point only the x-coordinate
is used. `Forged` is what can be changed therefore, and nothing else can
(`ecies_exact`). -/
namespace Aleth.Devcrypto
open Devcore

/-! ### What the libraries provide -/

abbrev FixedHash (n : ℕ) := {b : Bytes // b.length = n}

abbrev Secret := FixedHash 32
abbrev Public := FixedHash 64
abbrev H128 := FixedHash 16

def FixedHash.zero (n : ℕ) : FixedHash n := ⟨List.replicate n 0, List.length_replicate⟩

/-- From a reference: zero if the size is another. -/
def FixedHash.ofBytes (n : ℕ) (b : Bytes) : FixedHash n :=
  if h : b.length = n then ⟨b, h⟩ else .zero n

structure Primitives where
  isSecret : Secret → Bool
  toPublic : Secret → Public
  /-- The shared point, compressed: a sign byte and the x-coordinate. There is none if one of the
  keys is not valid. -/
  secp256k1_ecdh_raw : Public → Secret → Option (FixedHash 33)
  sha256 : Bytes → FixedHash 32
  hmac : Bytes → Bytes → FixedHash 32
  /-- The keystream of AES in counter mode, for a key and an initialization vector. -/
  aesCtr : Bytes → H128 → ℕ → UInt8
  /-- The shared point is the same for both sides. -/
  ecdh_comm : ∀ s s', isSecret s = true → isSecret s' = true → ∃ point,
    secp256k1_ecdh_raw (toPublic s) s' = some point ∧
      secp256k1_ecdh_raw (toPublic s') s = some point
  /-- And another for another public key. -/
  ecdh_injective : ∀ s r r' point, secp256k1_ecdh_raw r s = some point →
    secp256k1_ecdh_raw r' s = some point → r = r'

/-! ### The code -/

/-- A read outside the message. -/
inductive Outside where
  | outside
deriving DecidableEq

/-- What is at an address of the message. -/
def readAt (message : Bytes) (begin count : ℕ) : Except Outside (FixedHash count) :=
  if h : begin + count ≤ message.length then
    .ok ⟨(message.drop begin).take count, by
      rw [List.length_take, List.length_drop]
      omega⟩
  else .error .outside

/-- `vector_ref::cropped`. -/
def cropped (b : Bytes) (begin count : ℕ) : Bytes :=
  if begin + count ≤ b.length then (b.drop begin).take count else []

/-- `bytes::resize`. -/
def resize (b : Bytes) (n : ℕ) : Bytes := b.take n ++ List.replicate (n - b.length) 0

namespace Primitives
variable (c : Primitives)

/-- `ecdh::agree`. -/
def agree (s : Secret) (r : Public) : Option Secret :=
  (c.secp256k1_ecdh_raw r s).map fun compressedPoint =>
    ⟨compressedPoint.1.drop 1, by rw [List.length_drop, compressedPoint.2]⟩

/-- `ecies::kdf`: the counter begins with one. -/
def kdf (z : Secret) (s1 : Bytes) (kdByteLen : ℕ) : Bytes :=
  let reps := (kdByteLen + 7) * 8 / 512
  let k := (List.range (reps + 1)).flatMap fun i =>
    (c.sha256 (toBigEndian 4 (i + 1) ++ z.1 ++ s1)).1
  resize k kdByteLen

/-- `encryptAES128CTR`, which is `decryptAES128CTR` as well. -/
def encryptAES128CTR (k : Bytes) (iv : H128) (plain : Bytes) : Bytes :=
  if k.length ≠ 16 ∧ k.length ≠ 24 ∧ k.length ≠ 32 then []
  else plain.mapIdx fun i b => b ^^^ c.aesCtr k iv i

/-- The key for the tag. -/
def macKey (key : Bytes) : Bytes := (c.sha256 (cropped key 16 16)).1

/-- `Secp256k1PP::encryptECIES`; `r` is the secret of the key pair that it makes. -/
def encryptECIES (k : Public) (sharedMacData : Bytes) (r : Secret) (iv : H128)
    (io : Bytes) : Bytes :=
  let z := (c.agree r k).getD (.zero 32)
  let key := c.kdf z [] 32
  let eKey := cropped key 0 16
  let cipherText := c.encryptAES128CTR eKey iv io
  if cipherText = [] then io
  else
    let cipherWithIV := iv.1 ++ cipherText
    [0x04] ++ (c.toPublic r).1 ++ cipherWithIV ++
      (c.hmac (c.macKey key) (cipherWithIV ++ sharedMacData)).1

/-- `Secp256k1PP::decryptECIES`; nothing where it returns false. -/
def decryptECIES (k : Secret) (sharedMacData : Bytes) (io : Bytes) :
    Except Outside (Option Bytes) :=
  match io with
  | [] => .ok none
  | format :: _ =>
    if format < 2 ∨ 4 < format then .ok none
    else if io.length < 1 + 64 + 16 + 1 + 32 then .ok none
    else do
      let r ← readAt io 1 64
      match c.agree k r with
      | none => .ok none
      | some z => do
        let key := c.kdf z [] 64
        let eKey := cropped key 0 16
        let cipherLen := io.length - 1 - 64 - 16 - 32
        let cipherWithIV ← readAt io (1 + 64) (16 + cipherLen)
        let cipherIV := cropped cipherWithIV.1 0 16
        let cipherNoIV := cropped cipherWithIV.1 16 cipherLen
        let msgMac ← readAt io (1 + 64 + 16 + cipherLen) 32
        let iv := FixedHash.ofBytes 16 cipherIV
        if c.hmac (c.macKey key) (cipherWithIV.1 ++ sharedMacData) ≠ msgMac then .ok none
        else .ok (some (c.encryptAES128CTR eKey iv cipherNoIV))

end Primitives

/-! ### The specification -/

/-- A message that is long enough: its body is the initialization vector and a ciphertext. -/
structure Message where
  format : UInt8
  ephemeral : Public
  body : Bytes
  tag : FixedHash 32
  body_length : 17 ≤ body.length

def Message.bytes (w : Message) : Bytes := w.format :: (w.ephemeral.1 ++ (w.body ++ w.tag.1))

namespace Primitives
variable (c : Primitives)

/-- The tag of a body with its MAC data, under a shared secret. -/
def tag (p : Secret × Bytes) : FixedHash 32 := c.hmac (c.macKey (c.kdf p.1 [] 64)) p.2

def Accepts (k : Secret) (macData message : Bytes) : Prop :=
  ∃ plain, c.decryptECIES k macData message = .ok (some plain)

/-- What the tag of the message is compared with is computed from something in `S`. -/
def TagsIn (S : Set (Secret × Bytes)) (k : Secret) (macData message : Bytes) : Prop :=
  ∀ w : Message, w.bytes = message → ∀ z, c.agree k w.ephemeral = some z →
    (z, w.body ++ macData) ∈ S

/-- The shared points differ in the sign only. -/
def Negated (k : Secret) (r r' : Public) : Prop := ∃ p p', c.secp256k1_ecdh_raw r k = some p ∧
  c.secp256k1_ecdh_raw r' k = some p' ∧ p.1.head? ≠ p'.1.head? ∧ p.1.drop 1 = p'.1.drop 1

/-- The tag is as it was. The format byte is another, the ephemeral key is negated, or bytes have
moved between the ciphertext and the MAC data. -/
def Forged (k : Secret) (macData message macData' message' : Bytes) : Prop :=
  ∃ w w' : Message, w.bytes = message ∧ w'.bytes = message' ∧ (2 ≤ w'.format ∧ w'.format ≤ 4) ∧
    (w'.ephemeral = w.ephemeral ∨ c.Negated k w.ephemeral w'.ephemeral) ∧
    w'.body ++ macData' = w.body ++ macData ∧ w'.tag = w.tag

/-- The tag is another, and it is that of the body and the MAC data under the shared secret. -/
def Retagged (k : Secret) (message macData' message' : Bytes) : Prop :=
  ∃ w w' : Message, w.bytes = message ∧ w'.bytes = message' ∧ (2 ≤ w'.format ∧ w'.format ≤ 4) ∧
    w'.tag ≠ w.tag ∧ ∃ z, c.agree k w'.ephemeral = some z ∧ c.tag (z, w'.body ++ macData') = w'.tag

end Primitives

/-! ### Slices -/

theorem resize_of_length {b : Bytes} {n : ℕ} (h : b.length = n) : resize b n = b := by
  rw [resize, List.take_of_length_le h.le, h, Nat.sub_self]
  exact List.append_nil b

theorem cropped_append_left {a b : Bytes} {begin count : ℕ} (h : begin + count ≤ a.length) :
    cropped (a ++ b) begin count = cropped a begin count := by
  unfold cropped
  rw [if_pos h, if_pos (by rw [List.length_append]; omega),
    List.drop_append_of_le_length (by omega),
    List.take_append_of_le_length (by rw [List.length_drop]; omega)]

theorem cropped_append (a b : Bytes) : cropped (a ++ b) 0 a.length = a := by
  rw [cropped_append_left (by omega), cropped, if_pos (by omega)]
  exact List.take_length

theorem cropped_append_right (a b : Bytes) : cropped (a ++ b) a.length b.length = b := by
  unfold cropped
  rw [if_pos (by rw [List.length_append]), List.drop_left, List.take_length]

/-- A part of the message is read where it is. -/
theorem readAt_part {begin count : ℕ} {message a b rest : Bytes}
    (hsplit : message = a ++ (b ++ rest)) (ha : a.length = begin) (hb : b.length = count) :
    readAt message begin count = .ok ⟨b, hb⟩ := by
  subst hsplit ha hb
  unfold readAt
  have hlen : a.length + b.length ≤ (a ++ (b ++ rest)).length := by
    simp only [List.length_append]
    omega
  rw [dif_pos hlen]
  refine congrArg Except.ok (Subtype.ext ?_)
  change ((a ++ (b ++ rest)).drop a.length).take b.length = b
  rw [List.drop_left, List.take_left]

namespace Message

theorem length_bytes (w : Message) : w.bytes.length = 97 + w.body.length := by
  simp only [Message.bytes, List.length_cons, List.length_append, w.ephemeral.2, w.tag.2]
  omega

theorem bytes_injective {w w' : Message} (h : w.bytes = w'.bytes) : w = w' := by
  have hlen := congrArg List.length h
  rw [length_bytes, length_bytes] at hlen
  obtain ⟨hformat, hrest⟩ := List.cons.inj h
  obtain ⟨hephemeral, hrest⟩ := List.append_inj hrest (w.ephemeral.2.trans w'.ephemeral.2.symm)
  obtain ⟨hbody, htag⟩ := List.append_inj hrest (by omega)
  cases w; cases w'
  simp only [mk.injEq]
  exact ⟨hformat, Subtype.ext hephemeral, hbody, Subtype.ext htag⟩

/-- A string that is long enough is a message. -/
theorem exists_bytes {message : Bytes} (h : 114 ≤ message.length) :
    ∃ w : Message, w.bytes = message := by
  cases message with
  | nil => cases h
  | cons format rest =>
    rw [List.length_cons] at h
    refine ⟨⟨format, ⟨rest.take 64, ?_⟩, (rest.drop 64).take (rest.length - 96),
      ⟨rest.drop (rest.length - 32), ?_⟩, ?_⟩, ?_⟩
    · rw [List.length_take]
      omega
    · rw [List.length_drop]
      omega
    · rw [List.length_take, List.length_drop]
      omega
    · have hdrop : rest.drop (rest.length - 32) = (rest.drop 64).drop (rest.length - 96) := by
        rw [List.drop_drop]
        congr 1
        omega
      change format :: (rest.take 64 ++ ((rest.drop 64).take (rest.length - 96) ++
        rest.drop (rest.length - 32))) = format :: rest
      rw [hdrop, List.take_append_drop, List.take_append_drop]

end Message

/-! ### Keys -/

namespace Primitives
variable (c : Primitives)

/-- What both sides hash first. -/
def firstHash (z : Secret) : FixedHash 32 := c.sha256 (toBigEndian 4 1 ++ z.1 ++ [])

theorem kdf_32 (z : Secret) : c.kdf z [] 32 = (c.firstHash z).1 := by
  change resize ((c.firstHash z).1 ++ []) 32 = _
  rw [List.append_nil, resize_of_length (c.firstHash z).2]

theorem kdf_64 (z : Secret) : c.kdf z [] 64 =
    (c.firstHash z).1 ++ (c.sha256 (toBigEndian 4 2 ++ z.1 ++ [])).1 := by
  change resize ((c.firstHash z).1 ++ ((c.sha256 (toBigEndian 4 2 ++ z.1 ++ [])).1 ++ [])) 64 = _
  rw [List.append_nil, resize_of_length]
  rw [List.length_append, (c.firstHash z).2, (c.sha256 _).2]

/-- So both sides derive the same keys. -/
theorem cropped_kdf (z : Secret) {begin count : ℕ} (h : begin + count ≤ 32) :
    cropped (c.kdf z [] 64) begin count = cropped (c.kdf z [] 32) begin count := by
  rw [kdf_32, kdf_64, cropped_append_left (by rwa [(c.firstHash z).2])]

theorem macKey_kdf (z : Secret) : c.macKey (c.kdf z [] 64) = c.macKey (c.kdf z [] 32) := by
  rw [macKey, macKey, cropped_kdf c z (by omega)]

theorem length_eKey (z : Secret) : (cropped (c.kdf z [] 64) 0 16).length = 16 := by
  rw [cropped_kdf c z (by omega), kdf_32, cropped, if_pos (by rw [(c.firstHash z).2]; omega),
    List.length_take, List.length_drop, (c.firstHash z).2]
  rfl

theorem length_encryptAES128CTR {k : Bytes} (hk : k.length = 16) (iv : H128) (plain : Bytes) :
    (c.encryptAES128CTR k iv plain).length = plain.length := by
  rw [encryptAES128CTR, if_neg (fun h => h.1 hk), List.length_mapIdx]

/-- The keystream is taken off by adding it again. -/
theorem encryptAES128CTR_twice {k : Bytes} (hk : k.length = 16) (iv : H128) (plain : Bytes) :
    c.encryptAES128CTR k iv (c.encryptAES128CTR k iv plain) = plain := by
  rw [encryptAES128CTR, encryptAES128CTR, if_neg (fun h => h.1 hk), if_neg (fun h => h.1 hk)]
  refine List.ext_getElem (by simp) fun i hi hi' => ?_
  simp only [List.getElem_mapIdx]
  rw [UInt8.xor_assoc, UInt8.xor_self, UInt8.xor_zero]

/-! ### Decryption -/

/-- What a message of the right tag decrypts to. -/
def plainOf (z : Secret) (body : Bytes) : Bytes :=
  c.encryptAES128CTR (cropped (c.kdf z [] 64) 0 16) (.ofBytes 16 (body.take 16)) (body.drop 16)

theorem decrypt_bytes (k : Secret) (macData : Bytes) (w : Message) :
    c.decryptECIES k macData w.bytes = .ok (if w.format < 2 ∨ 4 < w.format then none else
      (c.agree k w.ephemeral).bind fun z =>
        if c.tag (z, w.body ++ macData) = w.tag then some (c.plainOf z w.body) else none) := by
  have hlen := w.length_bytes
  have hbody := w.body_length
  have hr : readAt w.bytes 1 64 = .ok w.ephemeral :=
    readAt_part (a := [w.format]) rfl rfl w.ephemeral.2
  have hcipher : readAt w.bytes (1 + 64) (16 + (w.bytes.length - 1 - 64 - 16 - 32)) =
      .ok ⟨w.body, by omega⟩ :=
    readAt_part (a := w.format :: w.ephemeral.1) rfl (by simp [w.ephemeral.2]) (by omega)
  have hmac : readAt w.bytes (1 + 64 + 16 + (w.bytes.length - 1 - 64 - 16 - 32)) 32 =
      .ok w.tag :=
    readAt_part (show w.bytes = (w.format :: (w.ephemeral.1 ++ w.body)) ++ (w.tag.1 ++ []) by
      simp [Message.bytes]) (by simp [w.ephemeral.2]; omega) w.tag.2
  have hiv : cropped w.body 0 16 = w.body.take 16 := if_pos (by omega)
  have hrest : cropped w.body 16 (w.bytes.length - 1 - 64 - 16 - 32) = w.body.drop 16 := by
    rw [cropped, if_pos (by omega)]
    exact List.take_of_length_le (by rw [List.length_drop]; omega)
  unfold decryptECIES
  change (if w.format < 2 ∨ 4 < w.format then Except.ok none else
    if w.bytes.length < 1 + 64 + 16 + 1 + 32 then Except.ok none else _) = _
  rw [if_neg (by omega : ¬w.bytes.length < 1 + 64 + 16 + 1 + 32)]
  split
  · rfl
  · rw [hr]
    change (match c.agree k w.ephemeral with | none => _ | some z => _) = _
    cases hz : c.agree k w.ephemeral with
    | none => rfl
    | some z =>
      dsimp only [Option.bind_some]
      rw [hcipher]
      change (readAt w.bytes _ 32 >>= _) = _
      rw [hmac]
      change (if c.tag (z, w.body ++ macData) ≠ w.tag then Except.ok none else
        Except.ok (some (c.encryptAES128CTR _ (.ofBytes 16 (cropped w.body 0 16))
          (cropped w.body 16 _)))) = _
      rw [hiv, hrest]
      by_cases htag : c.tag (z, w.body ++ macData) = w.tag
      · rw [if_neg (not_not.mpr htag), if_pos htag]
        rfl
      · rw [if_pos htag, if_neg htag]

theorem decrypt_short (k : Secret) (macData : Bytes) {message : Bytes}
    (h : message.length < 114) : c.decryptECIES k macData message = .ok none := by
  cases message with
  | nil => rfl
  | cons format rest =>
    change (if format < 2 ∨ 4 < format then Except.ok none else
      if (format :: rest).length < 1 + 64 + 16 + 1 + 32 then Except.ok none else _) = _
    rw [if_pos h, ite_self]

/-- No read is outside the message. -/
theorem exists_decrypt (k : Secret) (macData message : Bytes) :
    ∃ result, c.decryptECIES k macData message = .ok result := by
  by_cases h : message.length < 114
  · exact ⟨_, c.decrypt_short k macData h⟩
  · obtain ⟨w, rfl⟩ := Message.exists_bytes (not_lt.mp h)
    exact ⟨_, c.decrypt_bytes k macData w⟩

theorem accepts_bytes_iff {k : Secret} {macData : Bytes} {w : Message} :
    c.Accepts k macData w.bytes ↔ (2 ≤ w.format ∧ w.format ≤ 4) ∧
      ∃ z, c.agree k w.ephemeral = some z ∧ c.tag (z, w.body ++ macData) = w.tag := by
  unfold Accepts
  simp only [decrypt_bytes, Except.ok.injEq]
  by_cases hformat : w.format < 2 ∨ 4 < w.format
  · rw [if_pos hformat]
    constructor
    · rintro ⟨plain, h⟩
      cases h
    · rintro ⟨⟨hge, hle⟩, -⟩
      rcases hformat with hlt | hlt
      · exact absurd hge (UInt8.not_le.mpr hlt)
      · exact absurd hle (UInt8.not_le.mpr hlt)
  · rw [if_neg hformat]
    obtain ⟨hge, hle⟩ := not_or.mp hformat
    constructor
    · rintro ⟨plain, h⟩
      obtain ⟨z, hz, hplain⟩ := Option.bind_eq_some_iff.mp h
      split at hplain
      case isTrue htag =>
        exact ⟨⟨UInt8.not_lt.mp hge, UInt8.not_lt.mp hle⟩, z, hz, htag⟩
      case isFalse => cases hplain
    · rintro ⟨-, z, hz, htag⟩
      exact ⟨c.plainOf z w.body, by rw [hz, Option.bind_some, if_pos htag]⟩

theorem Accepts.exists_message {c : Primitives} {k : Secret} {macData message : Bytes}
    (h : c.Accepts k macData message) : ∃ w : Message, w.bytes = message := by
  refine Message.exists_bytes (not_lt.mp fun hlt => ?_)
  obtain ⟨plain, hplain⟩ := h
  rw [c.decrypt_short k macData hlt] at hplain
  cases hplain

/-! ### Round trips -/

theorem agree_comm {s s' : Secret} (hs : c.isSecret s = true) (hs' : c.isSecret s' = true) :
    ∃ z, c.agree s (c.toPublic s') = some z ∧ c.agree s' (c.toPublic s) = some z := by
  obtain ⟨point, hpoint, hpoint'⟩ := c.ecdh_comm s s' hs hs'
  exact ⟨_, by rw [agree, hpoint']; rfl, by rw [agree, hpoint]; rfl⟩

/-- What is encrypted is a message, and its body is the ciphertext behind the vector. -/
theorem encrypt_eq {k : Public} {r z : Secret} (hz : c.agree r k = some z) (macData : Bytes)
    (iv : H128) {plain : Bytes} (hplain : plain ≠ []) :
    ∃ w : Message, c.encryptECIES k macData r iv plain = w.bytes ∧ w.format = 4 ∧
      w.ephemeral = c.toPublic r ∧ w.tag = c.tag (z, w.body ++ macData) ∧
      w.body = iv.1 ++ c.encryptAES128CTR (cropped (c.kdf z [] 64) 0 16) iv plain := by
  have hkey : (cropped (c.kdf z [] 64) 0 16).length = 16 := c.length_eKey z
  have hcipher := c.length_encryptAES128CTR hkey iv plain
  have hpos : 0 < plain.length := List.length_pos_iff.mpr hplain
  refine ⟨⟨4, c.toPublic r, iv.1 ++ c.encryptAES128CTR (cropped (c.kdf z [] 64) 0 16) iv plain,
    c.tag (z, iv.1 ++ c.encryptAES128CTR (cropped (c.kdf z [] 64) 0 16) iv plain ++ macData), ?_⟩,
    ?_, rfl, rfl, rfl, rfl⟩
  · rw [List.length_append, iv.2, hcipher]
    omega
  · have hne : c.encryptAES128CTR (cropped (c.kdf z [] 64) 0 16) iv plain ≠ [] :=
      List.length_pos_iff.mp (hcipher ▸ hpos)
    unfold encryptECIES
    rw [hz]
    dsimp only [Option.getD_some]
    rw [← c.cropped_kdf z (by omega), if_neg hne, ← macKey_kdf]
    simp [Message.bytes, tag]

theorem decrypt_encrypt {k r : Secret} (hk : c.isSecret k = true) (hr : c.isSecret r = true)
    (macData : Bytes) (iv : H128) {plain : Bytes} (hplain : plain ≠ []) :
    c.decryptECIES k macData (c.encryptECIES (c.toPublic k) macData r iv plain) =
      .ok (some plain) := by
  obtain ⟨z, hz, hz'⟩ := c.agree_comm hr hk
  obtain ⟨w, hw, hformat, hephemeral, htag, hbody⟩ := c.encrypt_eq hz macData iv hplain
  rw [hw, decrypt_bytes, hformat, hephemeral, hz', if_neg (by decide), Option.bind_some,
    if_pos htag.symm, plainOf, hbody, List.take_left' iv.2, List.drop_left' iv.2]
  have hiv : FixedHash.ofBytes 16 iv.1 = iv := dif_pos iv.2
  rw [hiv, c.encryptAES128CTR_twice (c.length_eKey z)]

/-! ### What can be changed -/

variable {c}

/-- The shared secrets are the same exactly for the same key and for its negative. -/
theorem agree_eq_iff {k : Secret} {r r' : Public} {z : Secret} (hz : c.agree k r = some z) :
    c.agree k r' = some z ↔ r' = r ∨ c.Negated k r r' := by
  obtain ⟨p, hp, rfl⟩ := Option.map_eq_some_iff.mp hz
  constructor
  · intro hz'
    obtain ⟨p', hp', heq⟩ := Option.map_eq_some_iff.mp hz'
    have hdrop : p'.1.drop 1 = p.1.drop 1 := congrArg Subtype.val heq
    by_cases hhead : p.1.head? = p'.1.head?
    · have hpoint : p' = p := by
        obtain ⟨b, hb⟩ := p
        obtain ⟨b', hb'⟩ := p'
        refine Subtype.ext ?_
        cases b with
        | nil => cases hb
        | cons x b =>
          cases b' with
          | nil => cases hb'
          | cons x' b' =>
            cases hhead
            exact congrArg (List.cons x) hdrop
      exact .inl (c.ecdh_injective k r' r p (hpoint ▸ hp') hp)
    · exact .inr ⟨p, p', hp, hp', hhead, hdrop.symm⟩
  · rintro (rfl | ⟨q, p', hq, hp', -, hdrop⟩)
    · exact hz
    · cases hp.symm.trans hq
      rw [agree, hp']
      exact congrArg some (Subtype.ext hdrop.symm)

/-- Where tags do not collide, a message whose tag is not made anew is forged. -/
theorem accepts_iff_forged {S : Set (Secret × Bytes)} (hS : Set.InjOn c.tag S) {k : Secret}
    {macData message macData' message' : Bytes} (hin : c.TagsIn S k macData message)
    (hin' : c.TagsIn S k macData' message') (h : c.Accepts k macData message) :
    c.Accepts k macData' message' ↔ c.Forged k macData message macData' message' ∨
      c.Retagged k message macData' message' := by
  obtain ⟨w, rfl⟩ := h.exists_message
  obtain ⟨-, z, hz, htag⟩ := c.accepts_bytes_iff.mp h
  constructor
  · intro h'
    obtain ⟨w', rfl⟩ := h'.exists_message
    obtain ⟨hformat, z', hz', htag'⟩ := c.accepts_bytes_iff.mp h'
    by_cases hsame : w'.tag = w.tag
    · have hdata : (z', w'.body ++ macData') = (z, w.body ++ macData) :=
        hS (hin' w' rfl z' hz') (hin w rfl z hz) (htag'.trans (hsame.trans htag.symm))
      cases (Prod.mk.inj hdata).1
      exact .inl ⟨w, w', rfl, rfl, hformat, (agree_eq_iff hz).mp hz', (Prod.mk.inj hdata).2, hsame⟩
    · exact .inr ⟨w, w', rfl, rfl, hformat, hsame, z', hz', htag'⟩
  · rintro (⟨v, w', hv, rfl, hformat, hephemeral, hbody, htag'⟩ | ⟨v, w', hv, rfl, hformat, -, hw'⟩)
    · cases Message.bytes_injective hv
      refine c.accepts_bytes_iff.mpr ⟨hformat, z, (agree_eq_iff hz).mpr hephemeral, ?_⟩
      rw [hbody, htag, htag']
    · exact c.accepts_bytes_iff.mpr ⟨hformat, hw'⟩

/-- **Decryption undoes the encryption of a plaintext that is not empty; it never reads outside the
message; and where tags do not collide it accepts besides a message exactly those whose tag is the
right one for what has been changed: made anew, or as it was with another format byte, with the
negative of the ephemeral key, or with the ciphertext and the MAC data cut in another place.** -/
theorem ecies_exact (c : Primitives) (k : Secret) {S : Set (Secret × Bytes)}
    (hS : Set.InjOn c.tag S) :
    (c.isSecret k = true → ∀ r, c.isSecret r = true → ∀ macData iv plain, plain ≠ [] →
      c.decryptECIES k macData (c.encryptECIES (c.toPublic k) macData r iv plain) =
        .ok (some plain)) ∧
    (∀ macData message, ∃ result, c.decryptECIES k macData message = .ok result) ∧
    ∀ macData message macData' message', c.TagsIn S k macData message →
      c.TagsIn S k macData' message' → c.Accepts k macData message →
      (c.Accepts k macData' message' ↔ c.Forged k macData message macData' message' ∨
        c.Retagged k message macData' message') := by
  refine ⟨fun hk r hr macData iv plain hplain => ?_, fun macData message => ?_,
    fun macData message macData' message' hin hin' h => ?_⟩
  · exact c.decrypt_encrypt hk hr macData iv hplain
  · exact c.exists_decrypt k macData message
  · exact accepts_iff_forged hS hin hin' h

/-! ### A sample -/

section Sample

/-- The secret one: its public key is the generator. -/
def one : Secret := ⟨toBigEndian 32 1, toBigEndian_length 32 1⟩

def generatorX : Bytes :=
  toBigEndian 32 0x79be667ef9dcbbac55a06295ce870b07029bfcdb2dce28d959f2815b16f81798

def generator : Public :=
  ⟨generatorX ++ toBigEndian 32 0x483ada7726a3c4655da4fbfc0e1108a8fd17b448a68554199c47d08ffb10d4b8,
    by decide⟩

def sampleVector : H128 :=
  ⟨toBigEndian 16 0x000102030405060708090a0b0c0d0e0f, toBigEndian_length 16 _⟩

def hashOf (n : ℕ) : FixedHash 32 := ⟨toBigEndian 32 n, toBigEndian_length 32 n⟩

/-- The functions on what is computed below. -/
def sample : Primitives where
  isSecret s := s = one
  toPublic _ := generator
  secp256k1_ecdh_raw r s :=
    if r = generator ∧ s = one then some ⟨0x02 :: generatorX, by decide⟩ else none
  sha256 b :=
    if b = toBigEndian 4 1 ++ generatorX then
      hashOf 0x8cb9c636e2c2d4e3345e36fcfe419f156780a25b8cf712db134a234384fbb0f1
    else if b = toBigEndian 4 2 ++ generatorX then
      hashOf 0xd2769da8e2e5ca9564ce16045d8ca9de63971bb2d83b8f24e0076f6ca21a0b7c
    else if b = toBigEndian 16 0x6780a25b8cf712db134a234384fbb0f1 then
      hashOf 0x89e892d1ac6a7f3914c14512baf1ff8be5219e82f3385a48cc5e61da59f70b40
    else hashOf 0
  hmac key data :=
    if key = (hashOf 0x89e892d1ac6a7f3914c14512baf1ff8be5219e82f3385a48cc5e61da59f70b40).1 ∧
        data = sampleVector.1 ++ [0x1e, 0xd2] then
      hashOf 0x8e8e9f9e6fe5ff0d35c9b1c75f90362d1fb74044757c8c15b0dd61359d17e3c3
    else hashOf 0
  aesCtr _ _ i := [0x76, 0xbb, 0x0f, 0x24].getD i 0
  ecdh_comm s s' hs hs' := by
    rw [of_decide_eq_true hs, of_decide_eq_true hs']
    exact ⟨_, rfl, rfl⟩
  ecdh_injective s r r' point h h' := by
    split at h
    case isFalse => cases h
    case isTrue hr =>
      split at h'
      case isFalse => cases h'
      case isTrue hr' => rw [hr.1, hr'.1]

theorem ecies_exact_sample : sample.decryptECIES one []
    (sample.encryptECIES (sample.toPublic one) [] one sampleVector [0x68, 0x69]) =
      .ok (some [0x68, 0x69]) :=
  (ecies_exact sample one (Set.injOn_singleton sample.tag (one, []))).1 rfl one rfl [] sampleVector
    [0x68, 0x69] (by decide)

/-- Of an empty plaintext nothing is encrypted, and another format byte is accepted. -/
theorem empty_notDecrypted :
    sample.decryptECIES one []
      (sample.encryptECIES (sample.toPublic one) [] one sampleVector []) ≠ .ok (some []) ∧
    sample.decryptECIES one [] (0x03 ::
      (sample.encryptECIES (sample.toPublic one) [] one sampleVector [0x68, 0x69]).tail) =
        .ok (some [0x68, 0x69]) := by
  constructor
  · nofun
  · decide +kernel

end Sample

end Primitives
end Aleth.Devcrypto
