import Aleth.Devcrypto.ECIES

/-! The key derivation of ECIES (`Common.cpp`).

A round hashes a counter of four bytes, the secret and the shared information.
The number of rounds comes from the length in bits, divided by 512, while a
round gives 256: only lengths up to 32 and from 57 to 64 are `Covered`, and for
any other length the end is filled with zeros (`kdf_iff`). -/
namespace Aleth.Devcrypto.ECIES
open Devcore

section Kdf
variable (sha256 : Bytes → FixedHash 32)

/-! ### The code -/

/-- `++ctr[3] || ++ctr[2] || ++ctr[1] || ++ctr[0]`. -/
def increment (ctr : Vector UInt8 4) : Vector UInt8 4 :=
  let ctr := ctr.set 3 (ctr[3] + 1)
  if ctr[3] ≠ 0 then ctr
  else
    let ctr := ctr.set 2 (ctr[2] + 1)
    if ctr[2] ≠ 0 then ctr
    else
      let ctr := ctr.set 1 (ctr[1] + 1)
      if ctr[1] ≠ 0 then ctr
      else ctr.set 0 (ctr[0] + 1)

def reps (kdByteLen : UInt32) : UInt32 := (kdByteLen + 7) * 8 / 512

/-- The loop: what so many rounds put into `k`. -/
def appendHashes (z : Secret) (s1 : Bytes) : (rounds : ℕ) → (ctr : Vector UInt8 4) → Bytes
  | 0, _ => []
  | rounds + 1, ctr =>
    (sha256 (ctr.toList ++ z.1 ++ s1)).1 ++ appendHashes z s1 rounds (increment ctr)

/-- `k` behind the loop, which makes one round more than `reps`. -/
def derived (z : Secret) (s1 : Bytes) (kdByteLen : UInt32) : Bytes :=
  appendHashes sha256 z s1 ((reps kdByteLen).toNat + 1) #v[0, 0, 0, 1]

/-- `ecies::kdf`. -/
def kdf (z : Secret) (s1 : Bytes) (kdByteLen : UInt32) : Bytes :=
  resize (derived sha256 z s1 kdByteLen) kdByteLen.toNat

/-! ### The concatenation -/

/-- The hash with the counter `i + 1`. -/
def block (z : Secret) (s1 : Bytes) (i : ℕ) : FixedHash 32 :=
  sha256 (toBigEndian 4 (i + 1) ++ z.1 ++ s1)

/-- A byte of all the hashes one after another. -/
def byteAt (z : Secret) (s1 : Bytes) (j : ℕ) : UInt8 :=
  (block sha256 z s1 (j / 32)).1.getD (j % 32) 0

def concatenation (z : Secret) (s1 : Bytes) (n : ℕ) : Bytes :=
  (List.range n).map (byteAt sha256 z s1)

/-- The first bytes of the concatenation, none of them filled in. -/
structure Concatenates (z : Secret) (s1 : Bytes) (kdByteLen : UInt32) : Prop where
  bytes : kdf sha256 z s1 kdByteLen = concatenation sha256 z s1 kdByteLen.toNat
  unpadded : kdByteLen.toNat ≤ (derived sha256 z s1 kdByteLen).length

/-- The lengths that there are rounds enough for. -/
def Covered (kdByteLen : UInt32) : Prop :=
  kdByteLen.toNat ≤ 32 ∨ 57 ≤ kdByteLen.toNat ∧ kdByteLen.toNat ≤ 64

/-! ### The counter -/

theorem toBigEndian_four (n : ℕ) : toBigEndian 4 n =
    [UInt8.ofNat (n / 256 / 256 / 256 % 256), UInt8.ofNat (n / 256 / 256 % 256),
      UInt8.ofNat (n / 256 % 256), UInt8.ofNat (n % 256)] := by
  simp [toBigEndian]

theorem ofNat_add_one (n : ℕ) : UInt8.ofNat (n % 256) + 1 = UInt8.ofNat ((n + 1) % 256) := by
  apply UInt8.toNat_inj.mp
  rw [UInt8.toNat_add]
  simp

theorem ofNat_add_one_eq_zero {n : ℕ} : UInt8.ofNat (n % 256) + 1 = 0 ↔ (n + 1) % 256 = 0 := by
  rw [ofNat_add_one, ← UInt8.toNat_inj]
  simp

theorem increment_eq (a b c d : UInt8) : (increment #v[a, b, c, d]).toList =
    if d + 1 ≠ 0 then [a, b, c, d + 1]
    else if c + 1 ≠ 0 then [a, b, c + 1, 0]
    else if b + 1 ≠ 0 then [a, b + 1, 0, 0]
    else [a + 1, 0, 0, 0] := by
  by_cases hd : d + 1 = 0
  · by_cases hc : c + 1 = 0
    · by_cases hb : b + 1 = 0
      · simp [increment, hd, hc, hb]
      · simp [increment, hd, hc, hb]
    · simp [increment, hd, hc]
  · simp [increment, hd]

/-- The increment carries as the addition of one does. -/
theorem increment_toList {ctr : Vector UInt8 4} {n : ℕ} (h : ctr.toList = toBigEndian 4 n) :
    (increment ctr).toList = toBigEndian 4 (n + 1) := by
  have hctr : ctr = #v[UInt8.ofNat (n / 256 / 256 / 256 % 256), UInt8.ofNat (n / 256 / 256 % 256),
      UInt8.ofNat (n / 256 % 256), UInt8.ofNat (n % 256)] := by
    apply Vector.toList_inj.mp
    rw [h, toBigEndian_four]
    rfl
  rw [hctr, increment_eq, toBigEndian_four]
  simp only [ne_eq, ite_not, ofNat_add_one_eq_zero]
  simp only [ofNat_add_one]
  split_ifs with hd hc hb
  · have h1 : (n + 1) / 256 / 256 / 256 = (n / 256 / 256 / 256 + 1) := by omega
    have h2 : (n + 1) / 256 / 256 % 256 = 0 := by omega
    have h3 : (n + 1) / 256 % 256 = 0 := by omega
    simp [h1, h2, h3, hd]
  · have h1 : (n / 256 / 256 + 1) / 256 = n / 256 / 256 / 256 := by omega
    have h2 : (n + 1) / 256 / 256 = n / 256 / 256 + 1 := by omega
    have h3 : (n + 1) / 256 % 256 = 0 := by omega
    simp [h1, h2, h3, hd]
  · have h1 : (n / 256 + 1) / 256 = n / 256 / 256 := by omega
    have h2 : (n + 1) / 256 = n / 256 + 1 := by omega
    simp [h1, h2, hd]
  · have h1 : (n + 1) / 256 = n / 256 := by omega
    simp [h1]

/-! ### The rounds -/

variable {sha256 : Bytes → FixedHash 32} {z : Secret} {s1 : Bytes}

theorem appendHashes_eq (rounds : ℕ) {ctr : Vector UInt8 4} {i : ℕ}
    (h : ctr.toList = toBigEndian 4 (i + 1)) : appendHashes sha256 z s1 rounds ctr =
      (List.range rounds).flatMap fun k => (block sha256 z s1 (i + k)).1 := by
  induction rounds generalizing ctr i with
  | zero => rfl
  | succ rounds ih =>
    rw [appendHashes, h, ih (increment_toList h), List.range_succ_eq_map, List.flatMap_cons,
      List.flatMap_map]
    simp only [Nat.succ_eq_add_one, Nat.add_assoc, Nat.add_comm 1]
    rfl

theorem derived_eq (kdByteLen : UInt32) : derived sha256 z s1 kdByteLen =
    (List.range ((reps kdByteLen).toNat + 1)).flatMap fun k => (block sha256 z s1 k).1 := by
  rw [derived, appendHashes_eq (i := 0) _ rfl]
  simp

theorem length_blocks (rounds : ℕ) :
    ((List.range rounds).flatMap fun k => (block sha256 z s1 k).1).length = 32 * rounds := by
  induction rounds with
  | zero => rfl
  | succ rounds ih =>
    rw [List.range_succ, List.flatMap_append, List.length_append, ih]
    simp [(block sha256 z s1 rounds).2]
    ring

/-- Byte for byte the hashes are the concatenation. -/
theorem blocks_eq (rounds : ℕ) : ((List.range rounds).flatMap fun k => (block sha256 z s1 k).1) =
    concatenation sha256 z s1 (32 * rounds) := by
  induction rounds with
  | zero => rfl
  | succ rounds ih =>
    have hblock : (block sha256 z s1 rounds).1 =
        (List.range 32).map fun j => byteAt sha256 z s1 (32 * rounds + j) := by
      have hsize := (block sha256 z s1 rounds).2
      apply List.ext_getElem (by simp [hsize])
      intro j hj _
      have hj32 : j < 32 := by omega
      have hdiv : (32 * rounds + j) / 32 = rounds := by omega
      have hmod : (32 * rounds + j) % 32 = j := by omega
      simp only [List.getElem_map, List.getElem_range, byteAt, hdiv, hmod]
      simp [hj]
    rw [List.range_succ, List.flatMap_append, ih, concatenation, concatenation, Nat.mul_succ,
      List.range_add, List.map_append, List.map_map, List.flatMap_singleton, hblock]
    rfl

theorem take_concatenation {n m : ℕ} (h : n ≤ m) :
    (concatenation sha256 z s1 m).take n = concatenation sha256 z s1 n := by
  rw [concatenation, ← List.map_take, List.take_range, Nat.min_eq_left h, concatenation]

theorem reps_toNat (kdByteLen : UInt32) :
    (reps kdByteLen).toNat = (kdByteLen.toNat + 7) % 2 ^ 32 * 8 % 2 ^ 32 / 512 := by
  simp [reps, UInt32.toNat_div, UInt32.toNat_mul, UInt32.toNat_add]

theorem covered_iff {kdByteLen : UInt32} :
    Covered kdByteLen ↔ kdByteLen.toNat ≤ 32 * ((reps kdByteLen).toNat + 1) := by
  have hlt := kdByteLen.toNat_lt
  rw [Covered, reps_toNat]
  omega

theorem length_derived (kdByteLen : UInt32) :
    (derived sha256 z s1 kdByteLen).length = 32 * ((reps kdByteLen).toNat + 1) := by
  rw [derived_eq, length_blocks]

theorem concatenates_iff {kdByteLen : UInt32} :
    Concatenates sha256 z s1 kdByteLen ↔ Covered kdByteLen := by
  have hlen : (derived sha256 z s1 kdByteLen).length = 32 * ((reps kdByteLen).toNat + 1) :=
    length_derived kdByteLen
  rw [covered_iff, ← hlen]
  constructor
  · intro h
    exact h.unpadded
  · intro h
    refine ⟨?_, h⟩
    rw [kdf, resize, Nat.sub_eq_zero_of_le h, List.replicate_zero, List.append_nil,
      derived_eq, blocks_eq, take_concatenation (hlen ▸ h)]

end Kdf

/-- **The key derivation is the concatenation KDF** exactly for the lengths up to 32 and from 57
to 64: its bytes are those of the hashes one after another, none is filled in, and what two
requests have in common is the same. -/
theorem kdf_iff (sha256 : Bytes → FixedHash 32) (z : Secret) (s1 : Bytes) (n m : UInt32) :
    (Concatenates sha256 z s1 n ∧ Concatenates sha256 z s1 m ∧
      (kdf sha256 z s1 n).take m.toNat = (kdf sha256 z s1 m).take n.toNat) ↔
        Covered n ∧ Covered m := by
  rw [concatenates_iff, concatenates_iff]
  constructor
  · intro h
    exact ⟨h.1, h.2.1⟩
  · intro h
    refine ⟨h.1, h.2, ?_⟩
    rw [(concatenates_iff.mpr h.1).bytes, (concatenates_iff.mpr h.2).bytes, concatenation,
      concatenation, ← List.map_take, ← List.map_take, List.take_range, List.take_range,
      Nat.min_comm]

/-- For 33 bytes there is one round, and the last byte is not one of a hash. -/
theorem kdf_padded : kdf Primitives.sample.sha256 (.ofBytes 32 Primitives.generatorX) [] 33 ≠
    concatenation Primitives.sample.sha256 (.ofBytes 32 Primitives.generatorX) [] 33 := by
  decide +kernel

/-! ### The lengths that are asked for -/

/-- The function that encryption and decryption use. -/
theorem kdf_eq (c : Primitives) (z : Secret) (s1 : Bytes) {n : UInt32}
    (h : n.toNat < 2 ^ 29 - 7) : kdf c.sha256 z s1 n = c.kdf z s1 n.toNat := by
  have hreps : (reps n).toNat = (n.toNat + 7) * 8 / 512 := by
    rw [reps_toNat]
    omega
  rw [kdf, derived_eq, hreps]
  rfl

/-- Encryption asks for 32 bytes and decryption for 64. -/
theorem kdf_of_callers (c : Primitives) (z : Secret) :
    c.kdf z [] 32 = concatenation c.sha256 z [] 32 ∧
      c.kdf z [] 64 = concatenation c.sha256 z [] 64 := by
  have hfew : Concatenates c.sha256 z [] 32 := concatenates_iff.mpr (.inl (by decide))
  have hmore : Concatenates c.sha256 z [] 64 := concatenates_iff.mpr (.inr (by decide))
  have hfewer : kdf c.sha256 z [] 32 = c.kdf z [] 32 := kdf_eq c z [] (n := 32) (by decide)
  have hlonger : kdf c.sha256 z [] 64 = c.kdf z [] 64 := kdf_eq c z [] (n := 64) (by decide)
  rw [← hfewer, ← hlonger]
  exact ⟨hfew.bytes, hmore.bytes⟩

end Aleth.Devcrypto.ECIES
