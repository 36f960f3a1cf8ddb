import Mathlib.Data.List.Basic
import Mathlib.Data.List.Induction
import Mathlib.Data.Nat.Log
import Mathlib.Tactic.Common
import Mathlib.Tactic.Ring

/-! Byte strings, 32-byte hashes and big-endian numbers (`CommonData.h`, `FixedHash.h`).

Sizes are natural numbers: `size_t` and `unsigned` are not exhausted by strings
that fit in memory. Where the code itself looks at the 64-bit bound (the length
fields of RLP) the bound is kept. -/
namespace Aleth.Devcore

abbrev Bytes := List UInt8

/-- Byte strings are compared as `std::map` compares them, lexicographically. -/
instance uint8LinearOrder : LinearOrder UInt8 where
  le_refl a := UInt8.le_refl a
  le_trans _ _ _ := UInt8.le_trans
  lt_iff_le_not_ge a b := by
    simp only [UInt8.lt_iff_toNat_lt, UInt8.le_iff_toNat_le]
    omega
  le_antisymm _ _ := UInt8.le_antisymm
  le_total := UInt8.le_total
  toDecidableLE := inferInstance

structure H256 where
  bytes : Bytes
  size : bytes.length = 32
deriving DecidableEq

@[ext] theorem H256.ext {a b : H256} (h : a.bytes = b.bytes) : a = b := by
  cases a; cases b; cases h; rfl

/-- `FixedHash(bytes, AlignRight)`: what `RLP::toHash` does with a string of at most 32 bytes. -/
def H256.alignRight (b : Bytes) : H256 where
  bytes := (List.replicate (32 - b.length) 0 ++ b).take 32
  size := by
    rw [List.length_take, List.length_append, List.length_replicate]
    omega

theorem H256.alignRight_bytes (h : H256) : H256.alignRight h.bytes = h := by
  apply H256.ext
  simp [H256.alignRight, h.size, List.take_of_length_le]

/-- `h256()`. -/
def H256.zero : H256 := H256.alignRight []

instance : Inhabited H256 := ⟨H256.zero⟩

/-- How many bytes the value needs: one for each time it can be shifted before it is zero. -/
def bytesRequired (i : Nat) : Nat := if i = 0 then 0 else Nat.log2 i / 8 + 1

/-- The `br` low bytes of a number, most significant first. -/
def toBigEndian : (br : Nat) → Nat → Bytes
  | 0, _ => []
  | br + 1, i => toBigEndian br (i / 256) ++ [UInt8.ofNat (i % 256)]

def toCompactBigEndian (i : Nat) : Bytes := toBigEndian (bytesRequired i) i

def fromBigEndian (b : Bytes) : Nat := b.foldl (fun ret i => ret * 256 + i.toNat) 0

@[simp] theorem toBigEndian_length (br i : Nat) : (toBigEndian br i).length = br := by
  induction br generalizing i with
  | zero => rfl
  | succ br ih => simp [toBigEndian, ih]

@[simp] theorem toCompactBigEndian_length (i : Nat) :
    (toCompactBigEndian i).length = bytesRequired i := toBigEndian_length ..

theorem fromBigEndian_append (b : Bytes) (x : UInt8) :
    fromBigEndian (b ++ [x]) = fromBigEndian b * 256 + x.toNat := by
  simp [fromBigEndian]

theorem fromBigEndian_toBigEndian (br i : Nat) : fromBigEndian (toBigEndian br i) = i % 256 ^ br := by
  induction br generalizing i with
  | zero => simp [toBigEndian, fromBigEndian, Nat.mod_one]
  | succ br ih =>
    have hlt : i % 256 < 256 := Nat.mod_lt _ (by decide)
    rw [toBigEndian, fromBigEndian_append, ih, UInt8.toNat_ofNat', Nat.mod_eq_of_lt hlt,
      Nat.pow_succ', Nat.mod_mul]
    ring

theorem lt_pow_bytesRequired (i : Nat) : i < 256 ^ bytesRequired i := by
  unfold bytesRequired
  split
  case isTrue h => subst h; decide
  case isFalse h =>
    have hlog : i < 2 ^ (i.log2 + 1) := Nat.lt_log2_self
    have : (256 : Nat) ^ (i.log2 / 8 + 1) = 2 ^ (8 * (i.log2 / 8 + 1)) := by
      rw [Nat.pow_mul]
    rw [this]
    exact hlog.trans_le (Nat.pow_le_pow_right (by decide) (by omega))

/-- The compact form has no leading zero: it needs every one of its bytes. -/
theorem pow_bytesRequired_le {i : Nat} (h : i ≠ 0) : 256 ^ (bytesRequired i - 1) ≤ i := by
  unfold bytesRequired
  rw [if_neg h, Nat.add_sub_cancel]
  have : (256 : Nat) ^ (i.log2 / 8) = 2 ^ (8 * (i.log2 / 8)) := by rw [Nat.pow_mul]
  rw [this]
  exact (Nat.pow_le_pow_right (by decide) (by omega)).trans (Nat.log2_self_le h)

theorem bytesRequired_le {i k : Nat} (h : i < 256 ^ k) : bytesRequired i ≤ k := by
  by_cases h0 : i = 0
  · simp [bytesRequired, h0]
  · by_contra hgt
    have hle := pow_bytesRequired_le h0
    have : (256 : Nat) ^ k ≤ 256 ^ (bytesRequired i - 1) := Nat.pow_le_pow_right (by decide) (by omega)
    omega

theorem bytesRequired_le_iff {i k : ℕ} : bytesRequired i ≤ k ↔ i < 256 ^ k := by
  refine ⟨fun h => ?_, bytesRequired_le⟩
  exact (lt_pow_bytesRequired i).trans_le (Nat.pow_le_pow_right (by norm_num) h)

theorem bytesRequired_pos {i : Nat} (h : i ≠ 0) : 0 < bytesRequired i := by
  simp [bytesRequired, h]

theorem toBigEndian_head (br i : Nat) :
    (toBigEndian (br + 1) i).head? = some (UInt8.ofNat (i / 256 ^ br % 256)) := by
  induction br generalizing i with
  | zero => simp [toBigEndian]
  | succ br ih =>
    rw [toBigEndian, List.head?_append, ih, Nat.pow_succ', Nat.div_div_eq_div_mul]
    rfl

theorem toCompactBigEndian_head {i : Nat} (h : i ≠ 0) :
    ∃ x, (toCompactBigEndian i).head? = some x ∧ x ≠ 0 := by
  have hpos := bytesRequired_pos h
  obtain ⟨br, hbr⟩ : ∃ br, bytesRequired i = br + 1 := ⟨bytesRequired i - 1, by omega⟩
  refine ⟨_, by rw [toCompactBigEndian, hbr, toBigEndian_head], ?_⟩
  have hle : 256 ^ br ≤ i := by simpa [hbr] using pow_bytesRequired_le h
  have hlt : i < 256 ^ br * 256 := by
    have := lt_pow_bytesRequired i
    rwa [hbr, Nat.pow_succ] at this
  have h1 : 0 < i / 256 ^ br := Nat.div_pos hle (Nat.pow_pos (by decide))
  have h2 : i / 256 ^ br < 256 := (Nat.div_lt_iff_lt_mul (Nat.pow_pos (by decide))).mpr (by
    rwa [Nat.mul_comm])
  intro h0
  have := congrArg UInt8.toNat h0
  rw [UInt8.toNat_ofNat', Nat.mod_mod, Nat.mod_eq_of_lt h2] at this
  simp only [UInt8.toNat_zero] at this
  omega

theorem fromBigEndian_toCompactBigEndian (i : Nat) : fromBigEndian (toCompactBigEndian i) = i := by
  rw [toCompactBigEndian, fromBigEndian_toBigEndian, Nat.mod_eq_of_lt (lt_pow_bytesRequired i)]

theorem bytesRequired_eq {i k : Nat} (hlo : 256 ^ k ≤ i) (hhi : i < 256 ^ (k + 1)) :
    bytesRequired i = k + 1 := by
  have h0 : i ≠ 0 := by
    have := Nat.pow_pos (n := k) (show 0 < 256 by decide)
    omega
  have hle := bytesRequired_le hhi
  by_contra hne
  have hlt : i < 256 ^ bytesRequired i := lt_pow_bytesRequired i
  have hmono : (256 : Nat) ^ bytesRequired i ≤ 256 ^ k :=
    Nat.pow_le_pow_right (by decide) (by omega)
  omega

theorem fromBigEndian_lt (b : Bytes) : fromBigEndian b < 256 ^ b.length := by
  induction b using List.reverseRecOn with
  | nil => decide
  | append_singleton b x ih =>
    have hx := x.toNat_lt
    rw [fromBigEndian_append, List.length_append, List.length_singleton, Nat.pow_succ]
    omega

theorem toBigEndian_fromBigEndian (b : Bytes) : toBigEndian b.length (fromBigEndian b) = b := by
  induction b using List.reverseRecOn with
  | nil => rfl
  | append_singleton b x ih =>
    have hx := x.toNat_lt
    have hdiv : (fromBigEndian b * 256 + x.toNat) / 256 = fromBigEndian b := by omega
    have hmod : (fromBigEndian b * 256 + x.toNat) % 256 = x.toNat := by omega
    rw [fromBigEndian_append, List.length_append, List.length_singleton, toBigEndian, hdiv, ih,
      hmod, UInt8.ofNat_toNat]

theorem pow_le_fromBigEndian {x : UInt8} (hx : x ≠ 0) (b : Bytes) :
    256 ^ b.length ≤ fromBigEndian (x :: b) := by
  induction b using List.reverseRecOn with
  | nil =>
    have h0 : x.toNat ≠ 0 := fun h => hx (UInt8.toNat_inj.mp h)
    show 1 ≤ 0 * 256 + x.toNat
    omega
  | append_singleton b y ih =>
    rw [← List.cons_append, fromBigEndian_append, List.length_append, List.length_singleton,
      Nat.pow_succ]
    omega

/-- Without a leading zero the bytes of a number are its compact form. -/
theorem toCompactBigEndian_fromBigEndian {x : UInt8} (hx : x ≠ 0) (b : Bytes) :
    toCompactBigEndian (fromBigEndian (x :: b)) = x :: b := by
  have hbr : bytesRequired (fromBigEndian (x :: b)) = b.length + 1 :=
    bytesRequired_eq (pow_le_fromBigEndian hx b) (fromBigEndian_lt (x :: b))
  rw [toCompactBigEndian, hbr]
  exact toBigEndian_fromBigEndian (x :: b)

/-! ### Nibbles -/

abbrev Nibble := Fin 16

instance nibbleNeZero : NeZero 16 := ⟨by decide⟩

/-- `asNibbles`: the two halves of every byte, high half first. -/
def asNibbles : Bytes → List Nibble
  | [] => []
  | b :: s =>
    ⟨b.toNat / 16, by have := b.toNat_lt; omega⟩ :: ⟨b.toNat % 16, Nat.mod_lt _ (by decide)⟩ ::
      asNibbles s

@[simp] theorem asNibbles_length (s : Bytes) : (asNibbles s).length = 2 * s.length := by
  induction s with
  | nil => rfl
  | cons b s ih => simp only [asNibbles, List.length_cons, ih]; omega

theorem asNibbles_injective : Function.Injective asNibbles := by
  intro s t h
  induction s generalizing t with
  | nil => cases t <;> first | rfl | cases h
  | cons b s ih =>
    cases t with
    | nil => cases h
    | cons c t =>
      simp only [asNibbles, List.cons.injEq, Fin.mk.injEq] at h
      obtain ⟨hq, hr, ht⟩ := h
      have hb : b.toNat = c.toNat := by omega
      rw [UInt8.toNat_inj.mp hb, ih ht]

theorem asNibbles_append (s t : Bytes) : asNibbles (s ++ t) = asNibbles s ++ asNibbles t := by
  induction s with
  | nil => rfl
  | cons b s ih => simp [asNibbles, ih]

@[simp] theorem asNibbles_prefix {s t : Bytes} : asNibbles s <+: asNibbles t ↔ s <+: t := by
  constructor
  · rintro ⟨r, hr⟩
    have hlen := congrArg List.length hr
    rw [List.length_append, asNibbles_length, asNibbles_length] at hlen
    refine ⟨t.drop s.length, ?_⟩
    have hsplit : asNibbles (t.take s.length) ++ asNibbles (t.drop s.length) = asNibbles s ++ r := by
      rw [← asNibbles_append, List.take_append_drop, hr]
    have htake := (List.append_inj hsplit (by
      rw [asNibbles_length, asNibbles_length, List.length_take]
      omega)).1
    calc s ++ t.drop s.length = t.take s.length ++ t.drop s.length := by
          rw [asNibbles_injective htake]
      _ = t := List.take_append_drop _ _
  · rintro ⟨r, rfl⟩
    rw [asNibbles_append]
    exact List.prefix_append _ _

/-- The byte with the given halves. -/
def ofNibbles (hi lo : Nibble) : UInt8 := UInt8.ofNat (hi.val * 16 + lo.val)

theorem ofNibbles_toNat (hi lo : Nibble) : (ofNibbles hi lo).toNat = hi.val * 16 + lo.val := by
  rw [ofNibbles, UInt8.toNat_ofNat', Nat.mod_eq_of_lt]
  have := hi.isLt
  have := lo.isLt
  omega

theorem asNibbles_ofNibbles (hi lo : Nibble) (s : Bytes) :
    asNibbles (ofNibbles hi lo :: s) = hi :: lo :: asNibbles s := by
  have hh := hi.isLt
  have hl := lo.isLt
  simp only [asNibbles, ofNibbles_toNat, List.cons.injEq, Fin.ext_iff, and_true]
  constructor <;> omega

end Aleth.Devcore
