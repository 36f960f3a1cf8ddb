import Aleth.Devcore.TrieCommon
import Mathlib

/-! The three forms of `hexPrefixEncode` (`TrieCommon.h`, `TrieCommon.cpp`).

Nibbles are counted with an `unsigned`, and an end that is given from behind is
found with an `int`. A call gives the hex-prefix key of the nibbles that it
selects as long as these are counted right: together they are fewer than 2^32,
and nothing overflows where the end is found (`hexPrefixEncode_roundTrips_iff`). -/
namespace Aleth.Devcore.HexPrefix

/-! ### The code -/

def nibble (data : Bytes) (i : UInt32) : UInt8 :=
  if i &&& 1 ≠ 0 then data.getD (i / 2).toNat 0 &&& 15 else data.getD (i / 2).toNat 0 >>> 4

structure NibbleSlice where
  data : Bytes
  offset : UInt32
deriving DecidableEq

namespace NibbleSlice

/-- `operator[]`. -/
def get (s : NibbleSlice) (index : UInt32) : UInt8 := nibble s.data (s.offset + index)

def size (s : NibbleSlice) : UInt32 := .ofNat (s.data.length * 2) - s.offset

end NibbleSlice

/-- `isLeaf`, for the payload of the first item. -/
def isLeaf (hpe : Bytes) : Bool := hpe.getD 0 0 &&& 0x20 ≠ 0

/-- `keyOf(bytesConstRef)`. -/
def keyOf (hpe : Bytes) : NibbleSlice :=
  if hpe.length = 0 then ⟨hpe, 0⟩
  else if hpe.getD 0 0 &&& 0x10 ≠ 0 then ⟨hpe, 1⟩
  else ⟨hpe, 2⟩

/-- An `int` as an `unsigned`. -/
def toUnsigned (x : ℤ) : UInt32 := .ofNat (x % 2 ^ 32).toNat

/-- An `unsigned` as an `int`. -/
def toSigned (x : UInt32) : ℤ := if x.toNat < 2 ^ 31 then x.toNat else x.toNat - 2 ^ 32

/-- The sum of two `int`; nothing where it overflows. -/
def addInt (x y : ℤ) : Option ℤ :=
  if -2 ^ 31 ≤ x + y ∧ x + y < 2 ^ 31 then some (x + y) else none

/-- The first byte, before a nibble is put into it. -/
def flags (leaf odd : Bool) : UInt8 := ((if leaf then 2 else 0) ||| (if odd then 1 else 0)) * 16

/-- The loop over pairs of nibbles. -/
def pairs (hexVector : Bytes) (stop : UInt32) : (fuel : ℕ) → (i : UInt32) → Bytes
  | 0, _ => []
  | fuel + 1, i =>
    if i < stop then
      (hexVector.getD i.toNat 0 * 16 + hexVector.getD (i + 1).toNat 0) ::
        pairs hexVector stop fuel (i + 2)
    else []

/-- `hexPrefixEncode(bytes)`. -/
def encodeVector (hexVector : Bytes) (leaf : Bool) (begin_ end_ : ℤ) : Bytes :=
  let begin := toUnsigned begin_
  let stop := if end_ < 0 then .ofNat hexVector.length + 1 + toUnsigned end_ else toUnsigned end_
  let odd : Bool := (stop - begin) % 2 ≠ 0
  if odd then
    (flags leaf odd ||| hexVector.getD begin.toNat 0) ::
      pairs hexVector stop stop.toNat (begin + 1)
  else flags leaf odd :: pairs hexVector stop stop.toNat begin

/-- A nibble goes into the last byte, or begins another one. -/
def put (d : UInt32) (n : UInt8) (ret : Bytes) : Bytes :=
  if d &&& 1 ≠ 0 then ret.modifyLast (· ||| n) else ret ++ [n <<< 4]

/-- The loop over nibbles: `d` and `ret` after it. -/
def nibbles (data : Bytes) (stop : UInt32) :
    (fuel : ℕ) → (i d : UInt32) → Bytes → UInt32 × Bytes
  | 0, _, d, ret => (d, ret)
  | fuel + 1, i, d, ret =>
    if i < stop then nibbles data stop fuel (i + 1) (d + 1) (put d (nibble data i) ret)
    else (d, ret)

/-- The end in a slice of `n` nibbles; nothing where an `int` overflows. -/
def sliceEnd (n : UInt32) (endNibble : ℤ) : Option ℤ :=
  if endNibble < 0 then do addInt (← addInt (toSigned n) 1) endNibble else some endNibble

/-- `hexPrefixEncode(NibbleSlice)`. -/
def encodeSlice (s : NibbleSlice) (leaf : Bool) (beginNibble endNibble : ℤ) : Option Bytes := do
  let begin := toUnsigned beginNibble + s.offset
  let end_ ← sliceEnd (.ofNat (s.data.length * 2) - s.offset) endNibble
  let stop := toUnsigned end_ + s.offset
  let odd : Bool := (stop - begin) &&& 1 ≠ 0
  let d : UInt32 := if odd then 1 else 2
  return (nibbles s.data stop stop.toNat begin d [flags leaf odd]).2

/-- `hexPrefixEncode(NibbleSlice, NibbleSlice)`. -/
def encodePair (s₁ s₂ : NibbleSlice) (leaf : Bool) : Bytes :=
  let begin1 := s₁.offset
  let end1 : UInt32 := .ofNat (s₁.data.length * 2)
  let begin2 := s₂.offset
  let end2 : UInt32 := .ofNat (s₂.data.length * 2)
  let odd : Bool := (end1 - begin1 + end2 - begin2) &&& 1 ≠ 0
  let d : UInt32 := if odd then 1 else 2
  let (d, ret) := nibbles s₁.data end1 end1.toNat begin1 d [flags leaf odd]
  (nibbles s₂.data end2 end2.toNat begin2 d ret).2

/-! ### Calls -/

/-- The nibbles of a slice, one after another. -/
def NibbleSlice.read (s : NibbleSlice) : Bytes :=
  (List.range s.size.toNat).map fun i => s.get (.ofNat i)

/-- The offset is inside the string, whose nibbles are counted with an `unsigned`. -/
def NibbleSlice.Inside (s : NibbleSlice) : Prop := s.offset.toNat ≤ s.data.length * 2 % 2 ^ 32

instance (s : NibbleSlice) : Decidable s.Inside := inferInstanceAs (Decidable (_ ≤ _))

inductive Call where
  | vector (hexVector : Bytes) (begin_ end_ : ℤ)
  | slice (s : NibbleSlice) (beginNibble endNibble : ℤ)
  | pair (s₁ s₂ : NibbleSlice)

/-- The end: a negative one counts from behind the last of `n` nibbles. -/
def lastOf (n : ℕ) (end_ : ℤ) : ℤ := if end_ < 0 then n + 1 + end_ else end_

/-- The bounds are numbers of the type `int`, and inside `n` nibbles. -/
structure Bounds (n : ℕ) (begin_ end_ : ℤ) : Prop where
  begin_int : begin_ < 2 ^ 31
  end_int : -2 ^ 31 ≤ end_ ∧ end_ < 2 ^ 31
  nonneg : 0 ≤ begin_
  ordered : begin_ ≤ lastOf n end_
  inside : lastOf n end_ ≤ n

/-- The nibbles between the bounds. -/
def select (source : Bytes) (begin_ end_ : ℤ) : Bytes :=
  (source.drop begin_.toNat).take (lastOf source.length end_ - begin_).toNat

namespace Call

def encode (leaf : Bool) : Call → Option Bytes
  | vector hexVector begin_ end_ => some (encodeVector hexVector leaf begin_ end_)
  | slice s beginNibble endNibble => encodeSlice s leaf beginNibble endNibble
  | pair s₁ s₂ => some (encodePair s₁ s₂ leaf)

/-- What is selected. -/
def selected : Call → Bytes
  | vector hexVector begin_ end_ => select hexVector begin_ end_
  | slice s beginNibble endNibble => select s.read beginNibble endNibble
  | pair s₁ s₂ => s₁.read ++ s₂.read

def WellFormed : Call → Prop
  | vector hexVector begin_ end_ =>
    (∀ n ∈ hexVector, n < 16) ∧ Bounds hexVector.length begin_ end_
  | slice s beginNibble endNibble => s.Inside ∧ Bounds s.size.toNat beginNibble endNibble
  | pair s₁ s₂ => s₁.Inside ∧ s₂.Inside

/-- The nibbles can be counted. -/
def Fits : Call → Prop
  | vector hexVector _ end_ => lastOf hexVector.length end_ < 2 ^ 32
  | slice s _ endNibble => endNibble < 0 → s.size.toNat + 1 < 2 ^ 31 ∨
      2 ^ 31 ≤ s.size.toNat ∧ 2 ^ 31 ≤ lastOf s.size.toNat endNibble
  | pair s₁ s₂ => s₁.size.toNat + s₂.size.toNat < 2 ^ 32

/-- The key and the flag are what is read back. -/
def RoundTrips (leaf : Bool) (c : Call) : Prop :=
  ∃ hpe, c.encode leaf = some hpe ∧ (keyOf hpe).read = c.selected ∧ isLeaf hpe = leaf

end Call

/-! ### Nibbles -/

/-- A nibble as a byte. -/
def toByte (x : Nibble) : UInt8 := .ofNat x.val

theorem and_one_ne_zero {i : UInt32} : i &&& 1 ≠ 0 ↔ i.toNat % 2 = 1 := by
  rw [ne_eq, ← UInt32.toNat_inj, UInt32.toNat_and, UInt32.toNat_one, UInt32.toNat_zero,
    Nat.and_one_is_mod]
  omega

theorem toByte_high (b : UInt8) (h : b.toNat / 16 < 16) : toByte ⟨b.toNat / 16, h⟩ = b >>> 4 := by
  apply UInt8.toNat_inj.mp
  have := b.toNat_lt
  simp [toByte, Nat.shiftRight_eq_div_pow]
  omega

theorem toByte_low (b : UInt8) (h : b.toNat % 16 < 16) : toByte ⟨b.toNat % 16, h⟩ = b &&& 15 := by
  apply UInt8.toNat_inj.mp
  have hand : b.toNat &&& 15 = b.toNat % 16 := Nat.and_two_pow_sub_one_eq_mod b.toNat 4
  simp [toByte, hand]
  omega

theorem asNibbles_getElem? (data : Bytes) (j : ℕ) :
    (asNibbles data)[2 * j]?.map toByte = data[j]?.map (fun b : UInt8 => b >>> 4) ∧
      (asNibbles data)[2 * j + 1]?.map toByte = data[j]?.map fun b => b &&& 15 := by
  induction data generalizing j with
  | nil => simp [asNibbles]
  | cons b data ih =>
    cases j with
    | zero => simp [asNibbles, toByte_high, toByte_low]
    | succ j =>
      rw [asNibbles, Nat.mul_succ]
      exact ih j

theorem nibble_eq {data : Bytes} {i : UInt32} (h : i.toNat < (asNibbles data).length) :
    nibble data i = toByte ((asNibbles data).get ⟨i.toNat, h⟩) := by
  have hlen := asNibbles_length data
  have hhalf : (i / 2).toNat = i.toNat / 2 := by simp
  obtain ⟨heven, hodd⟩ := asNibbles_getElem? data (i.toNat / 2)
  have hin : i.toNat / 2 < data.length := by omega
  have hget : (asNibbles data)[i.toNat]? = some ((asNibbles data).get ⟨i.toNat, h⟩) := by simp
  rw [nibble, hhalf]
  by_cases hi : i.toNat % 2 = 1
  · rw [if_pos (and_one_ne_zero.mpr hi)]
    rw [show 2 * (i.toNat / 2) + 1 = i.toNat by omega, hget] at hodd
    simpa [hin] using hodd.symm
  · rw [if_neg fun hne => hi (and_one_ne_zero.mp hne)]
    rw [show 2 * (i.toNat / 2) = i.toNat by omega, hget] at heven
    simpa [hin] using heven.symm

/-! ### The loops -/

/-- Nibbles put one after another. -/
def putAll : (d : UInt32) → Bytes → List Nibble → UInt32 × Bytes
  | d, ret, [] => (d, ret)
  | d, ret, x :: k => putAll (d + 1) (put d (toByte x) ret) k

theorem putAll_append (d : UInt32) (ret : Bytes) (k l : List Nibble) :
    putAll d ret (k ++ l) = putAll (putAll d ret k).1 (putAll d ret k).2 l := by
  induction k generalizing d ret with
  | nil => rfl
  | cons x k ih => exact ih _ _

/-- The nibbles of a string from one place to another. -/
def between (data : Bytes) (begin stop : ℕ) : List Nibble :=
  ((asNibbles data).drop begin).take (stop - begin)

theorem nibbles_eq {data : Bytes} {stop : UInt32} (hstop : stop.toNat ≤ 2 * data.length)
    {fuel : ℕ} {i : UInt32} (hi : i.toNat ≤ stop.toNat) (hf : stop.toNat ≤ i.toNat + fuel)
    (d : UInt32) (ret : Bytes) :
    nibbles data stop fuel i d ret = putAll d ret (between data i.toNat stop.toNat) := by
  have hlen := asNibbles_length data
  induction fuel generalizing i d ret with
  | zero =>
    have hnone : stop.toNat - i.toNat = 0 := by omega
    rw [nibbles, between, hnone]
    rfl
  | succ fuel ih =>
    rw [nibbles]
    by_cases hlt : i < stop
    · have hlt' : i.toNat < stop.toNat := UInt32.lt_iff_toNat_lt.mp hlt
      have hin : i.toNat < (asNibbles data).length := by omega
      have hnext : (i + 1).toNat = i.toNat + 1 := by
        have := stop.toNat_lt
        rw [UInt32.toNat_add, UInt32.toNat_one, Nat.mod_eq_of_lt (by omega)]
      have hcons : between data i.toNat stop.toNat =
          (asNibbles data).get ⟨i.toNat, hin⟩ :: between data (i.toNat + 1) stop.toNat := by
        rw [between, List.drop_eq_getElem_cons hin,
          show stop.toNat - i.toNat = stop.toNat - (i.toNat + 1) + 1 by omega,
          List.take_succ_cons]
        rfl
      rw [if_pos hlt, ih (by omega) (by omega), hcons, putAll, hnext, nibble_eq hin]
    · have hnone : stop.toNat - i.toNat = 0 := by
        have := mt UInt32.lt_iff_toNat_lt.mpr hlt
        omega
      rw [if_neg hlt, between, hnone]
      rfl

/-! ### Keys -/

theorem high_or_low (x y : Nibble) : toByte x <<< 4 ||| toByte y = ofNibbles x y := by
  revert x y
  decide +kernel

theorem flags_eq (leaf odd : Bool) : flags leaf odd = ofNibbles (hexPrefixFlags leaf odd) 0 := by
  revert leaf odd
  decide

theorem flags_or (leaf odd : Bool) (x : Nibble) :
    flags leaf odd ||| toByte x = ofNibbles (hexPrefixFlags leaf odd) x := by
  revert leaf odd x
  decide +kernel

theorem put_even {d : UInt32} (h : d.toNat % 2 = 0) (n : UInt8) (ret : Bytes) :
    put d n ret = ret ++ [n <<< 4] :=
  if_neg fun hne => by rw [and_one_ne_zero] at hne; omega

theorem put_odd {d : UInt32} (h : d.toNat % 2 = 1) (n b : UInt8) (ret : Bytes) :
    put d n (ret ++ [b]) = ret ++ [b ||| n] := by
  rw [put, if_pos (and_one_ne_zero.mpr h), List.modifyLast_concat]

theorem parity_add_one (d : UInt32) : (d + 1).toNat % 2 = (d.toNat + 1) % 2 := by
  rw [UInt32.toNat_add, UInt32.toNat_one]
  omega

/-- Pairs of nibbles are bytes. -/
theorem putAll_even {d : UInt32} (hd : d.toNat % 2 = 0) {k : List Nibble} (hk : k.length % 2 = 0)
    (ret : Bytes) : (putAll d ret k).2 = ret ++ packNibbles k := by
  induction k using packNibbles.induct generalizing d ret with
  | case1 hi lo k ih =>
    have hodd := parity_add_one d
    have heven := parity_add_one (d + 1)
    rw [List.length_cons, List.length_cons] at hk
    rw [putAll, putAll, put_even hd, put_odd (by omega), high_or_low, packNibbles,
      ih (by omega) (by omega), List.append_assoc]
    rfl
  | case2 k hshort =>
    cases k with
    | nil => simp [putAll, packNibbles]
    | cons hi k =>
      cases k with
      | nil => simp at hk
      | cons lo r => exact absurd rfl (hshort hi lo r)

/-- The nibbles behind the flags are the key. -/
theorem putAll_flags (leaf : Bool) {odd : Bool} {k : List Nibble}
    (h : odd = true ↔ k.length % 2 = 1) :
    (putAll (if odd then 1 else 2) [flags leaf odd] k).2 = hexPrefixEncode k leaf := by
  by_cases hk : k.length % 2 = 1
  · have hne : k ≠ [] := by
      rintro rfl
      cases hk
    obtain ⟨x, k, rfl⟩ := List.exists_cons_of_ne_nil hne
    have hrest : k.length % 2 = 0 := by
      rw [List.length_cons] at hk
      omega
    have hput : put 1 (toByte x) [flags leaf true] = [flags leaf true ||| toByte x] :=
      put_odd (by decide) _ _ []
    rw [h.mpr hk, if_pos rfl, putAll, hput, putAll_even (by decide) hrest, flags_or,
      hexPrefixEncode_odd hk]
    rfl
  · rw [eq_false_of_ne_true fun ho => hk (h.mp ho), if_neg Bool.false_ne_true,
      putAll_even (by decide) (by omega), flags_eq, hexPrefixEncode_even hk]
    rfl

theorem pair_eq (x y : Nibble) : toByte x * 16 + toByte y = ofNibbles x y := by
  revert x y
  decide +kernel

theorem pairs_eq {k : List Nibble} {stop : UInt32} (hstop : stop.toNat ≤ k.length) {fuel : ℕ}
    {i : UInt32} (hi : i.toNat ≤ stop.toNat) (heven : (stop.toNat - i.toNat) % 2 = 0)
    (hf : stop.toNat ≤ i.toNat + fuel) : pairs (k.map toByte) stop fuel i =
      packNibbles ((k.drop i.toNat).take (stop.toNat - i.toNat)) := by
  induction fuel generalizing i with
  | zero =>
    rw [pairs, show stop.toNat - i.toNat = 0 by omega]
    rfl
  | succ fuel ih =>
    have hlt := stop.toNat_lt
    rw [pairs]
    by_cases hin : i < stop
    · have hin' : i.toNat < stop.toNat := UInt32.lt_iff_toNat_lt.mp hin
      have hone : (i + 1).toNat = i.toNat + 1 := by
        rw [UInt32.toNat_add, UInt32.toNat_one, Nat.mod_eq_of_lt (by omega)]
      have htwo : (i + 2).toNat = i.toNat + 2 := by
        rw [UInt32.toNat_add, show (2 : UInt32).toNat = 2 from rfl, Nat.mod_eq_of_lt (by omega)]
      have hx : i.toNat < k.length := by omega
      have hy : i.toNat + 1 < k.length := by omega
      rw [if_pos hin, hone, ih (by omega) (by omega) (by omega), htwo,
        List.drop_eq_getElem_cons hx, List.drop_eq_getElem_cons hy,
        show stop.toNat - i.toNat = stop.toNat - (i.toNat + 2) + 1 + 1 by omega,
        List.take_succ_cons, List.take_succ_cons, packNibbles, ← pair_eq]
      simp [hx, hy]
    · have hdone : stop.toNat - i.toNat = 0 := by
        have := mt UInt32.lt_iff_toNat_lt.mpr hin
        omega
      rw [if_neg hin, hdone]
      rfl

/-! ### Reading -/

section Reading
variable {s : NibbleSlice}

theorem length_between {data : Bytes} {begin stop : ℕ} (h : stop ≤ 2 * data.length) :
    (between data begin stop).length = stop - begin := by
  rw [between, List.length_take, List.length_drop, asNibbles_length]
  omega

theorem between_drop_take {data : Bytes} {begin stop i n : ℕ} (h : begin + i + n ≤ stop) :
    ((between data begin stop).drop i).take n = between data (begin + i) (begin + i + n) := by
  rw [between, between, List.drop_take, List.drop_drop, List.take_take]
  congr 1
  omega

theorem length_read (s : NibbleSlice) : s.read.length = s.size.toNat := by
  simp [NibbleSlice.read]

theorem read_eq (hfit : s.offset.toNat + s.size.toNat ≤ 2 ^ 32)
    (hin : s.offset.toNat + s.size.toNat ≤ 2 * s.data.length) :
    s.read = (between s.data s.offset.toNat (s.offset.toNat + s.size.toNat)).map toByte := by
  have hlen := asNibbles_length s.data
  apply List.ext_getElem
  · rw [length_read, List.length_map, length_between hin]
    omega
  · intro i hi _
    rw [length_read] at hi
    have hindex : (s.offset + UInt32.ofNat i).toNat = s.offset.toNat + i := by
      have := s.size.toNat_lt
      rw [UInt32.toNat_add, UInt32.toNat_ofNat', Nat.mod_eq_of_lt (show i < 2 ^ 32 by omega),
        Nat.mod_eq_of_lt (by omega)]
    have hbound : (s.offset + UInt32.ofNat i).toNat < (asNibbles s.data).length := by omega
    simp [NibbleSlice.read, NibbleSlice.get, nibble_eq hbound, hindex, between]

theorem size_of_inside (h : s.Inside) :
    s.offset.toNat + s.size.toNat = s.data.length * 2 % 2 ^ 32 := by
  have hoffset := s.offset.toNat_lt
  rw [NibbleSlice.Inside] at h
  rw [NibbleSlice.size, UInt32.toNat_sub, UInt32.toNat_ofNat']
  omega

theorem read_of_inside (h : s.Inside) :
    s.read = (between s.data s.offset.toNat (s.offset.toNat + s.size.toNat)).map toByte := by
  have hsize := size_of_inside h
  have hmod := Nat.mod_lt (s.data.length * 2) (show 0 < 2 ^ 32 by decide)
  have hle := Nat.mod_le (s.data.length * 2) (2 ^ 32)
  exact read_eq (by omega) (by omega)

end Reading

section Keys
variable (k : List Nibble) (leaf : Bool)

theorem exists_flags : ∃ x hpe, hexPrefixEncode k leaf =
    ofNibbles (hexPrefixFlags leaf (k.length % 2 = 1)) x :: hpe := by
  by_cases hk : k.length % 2 = 1
  · have hne : k ≠ [] := by
      rintro rfl
      cases hk
    obtain ⟨x, k, rfl⟩ := List.exists_cons_of_ne_nil hne
    exact ⟨x, _, by rw [hexPrefixEncode_odd hk, decide_eq_true hk]⟩
  · exact ⟨0, _, by rw [hexPrefixEncode_even hk, decide_eq_false hk]⟩

theorem isLeaf_hexPrefixEncode : isLeaf (hexPrefixEncode k leaf) = leaf := by
  obtain ⟨x, hpe, heq⟩ := exists_flags k leaf
  have hflag := leaf_flag leaf (k.length % 2 = 1) x
  rw [isLeaf, heq, List.getD_cons_zero, Bool.eq_iff_iff, decide_eq_true_eq, ← bne_iff_ne, hflag]

/-- The flags tell where the nibbles of the key begin. -/
theorem keyOf_eq : keyOf (hexPrefixEncode k leaf) =
    ⟨hexPrefixEncode k leaf, if k.length % 2 = 1 then 1 else 2⟩ := by
  obtain ⟨x, hpe, heq⟩ := exists_flags k leaf
  have hflag : ofNibbles (hexPrefixFlags leaf (k.length % 2 = 1)) x &&& 0x10 ≠ 0 ↔
      k.length % 2 = 1 := by
    rw [← bne_iff_ne, odd_flag, decide_eq_true_eq]
  rw [heq, keyOf, if_neg (by simp), List.getD_cons_zero]
  by_cases hk : k.length % 2 = 1
  · rw [if_pos (hflag.mpr hk), if_pos hk]
  · rw [if_neg (mt hflag.mp hk), if_neg hk]

theorem drop_hexPrefixEncode : (asNibbles (hexPrefixEncode k leaf)).drop
    (if k.length % 2 = 1 then 1 else 2) = k := by
  obtain ⟨x, hpe, heq⟩ := exists_flags k leaf
  have hkey := keyOf_hexPrefixEncode k leaf
  have hflag := odd_flag leaf (k.length % 2 = 1) x
  rw [heq, Devcore.keyOf, hflag] at hkey
  rw [heq]
  simpa using hkey

theorem length_hexPrefixEncode : 2 * (hexPrefixEncode k leaf).length =
    k.length + if k.length % 2 = 1 then 1 else 2 := by
  obtain ⟨x, hpe, heq⟩ := exists_flags k leaf
  have hlen := congrArg List.length (drop_hexPrefixEncode k leaf)
  have hpos : 0 < (hexPrefixEncode k leaf).length := by rw [heq]; simp
  rw [List.length_drop, asNibbles_length] at hlen
  split_ifs at hlen ⊢ <;> omega

/-- The number of nibbles is taken mod 2^32. -/
theorem size_keyOf : (keyOf (hexPrefixEncode k leaf)).size.toNat = k.length % 2 ^ 32 := by
  have hlen := length_hexPrefixEncode k leaf
  rw [keyOf_eq, NibbleSlice.size, UInt32.toNat_sub, UInt32.toNat_ofNat']
  dsimp only
  split_ifs at hlen ⊢
  · rw [UInt32.toNat_one]
    omega
  · rw [show (2 : UInt32).toNat = 2 from rfl]
    omega

variable {k}

theorem read_keyOf (h : k.length < 2 ^ 32) :
    (keyOf (hexPrefixEncode k leaf)).read = k.map toByte := by
  have hlen := length_hexPrefixEncode k leaf
  have hsize := size_keyOf k leaf
  have hdrop := drop_hexPrefixEncode k leaf
  rw [Nat.mod_eq_of_lt h] at hsize
  have hoffset : (keyOf (hexPrefixEncode k leaf)).offset.toNat =
      if k.length % 2 = 1 then 1 else 2 := by
    rw [keyOf_eq]
    split_ifs <;> rfl
  have hdata : (keyOf (hexPrefixEncode k leaf)).data = hexPrefixEncode k leaf := by rw [keyOf_eq]
  have hend : (keyOf (hexPrefixEncode k leaf)).offset.toNat +
      (keyOf (hexPrefixEncode k leaf)).size.toNat = 2 * (hexPrefixEncode k leaf).length := by
    rw [hoffset, hsize, hlen, Nat.add_comm]
  rw [read_eq (by rw [hoffset, hsize]; split_ifs <;> omega) (by rw [hdata, hend]), between, hdata,
    hoffset, hdrop, hsize, Nat.add_sub_cancel_left, List.take_length]

end Keys

/-! ### The forms -/

theorem exists_nibbles {hexVector : Bytes} (h : ∀ n ∈ hexVector, n < 16) :
    ∃ k : List Nibble, hexVector = k.map toByte := by
  induction hexVector with
  | nil => exact ⟨[], rfl⟩
  | cons n hexVector ih =>
    obtain ⟨k, rfl⟩ := ih fun m hm => h m (List.mem_cons_of_mem _ hm)
    have hn : n.toNat < 16 := UInt8.lt_iff_toNat_lt.mp (h n List.mem_cons_self)
    refine ⟨⟨n.toNat, hn⟩ :: k, ?_⟩
    rw [List.map_cons, toByte, UInt8.ofNat_toNat]

theorem toByte_injective : Function.Injective toByte := by
  intro x y h
  have hval := congrArg UInt8.toNat h
  have hx := x.isLt
  have hy := y.isLt
  rw [toByte, toByte, UInt8.toNat_ofNat', UInt8.toNat_ofNat'] at hval
  exact Fin.ext (by omega)

theorem toUnsigned_toNat (x : ℤ) : ((toUnsigned x).toNat : ℤ) = x % 2 ^ 32 := by
  rw [toUnsigned, UInt32.toNat_ofNat']
  omega

theorem select_map {k : List Nibble} {begin_ end_ : ℤ} :
    select (k.map toByte) begin_ end_ = ((k.drop begin_.toNat).take
      (lastOf k.length end_ - begin_).toNat).map toByte := by
  rw [select, List.length_map, List.map_take, List.map_drop]

section Forms
variable {leaf : Bool} {begin_ end_ : ℤ}

theorem begin_toNat {n : ℕ} (h : Bounds n begin_ end_) :
    (toUnsigned begin_).toNat = begin_.toNat := by
  have hvalue := toUnsigned_toNat begin_
  have hint := h.begin_int
  have hnonneg := h.nonneg
  omega

/-- The end of the vector form, mod 2^32. -/
theorem stop_toNat (n : ℕ) (end_ : ℤ) : ((if end_ < 0 then .ofNat n + 1 + toUnsigned end_
    else toUnsigned end_ : UInt32).toNat : ℤ) = lastOf n end_ % 2 ^ 32 := by
  have hvalue := toUnsigned_toNat end_
  rw [lastOf]
  split_ifs
  · rw [UInt32.toNat_add, UInt32.toNat_add, UInt32.toNat_ofNat', UInt32.toNat_one]
    omega
  · exact hvalue

theorem encodeVector_eq {k : List Nibble} (h : Bounds k.length begin_ end_)
    (hfit : lastOf k.length end_ < 2 ^ 32) : encodeVector (k.map toByte) leaf begin_ end_ =
      hexPrefixEncode ((k.drop begin_.toNat).take (lastOf k.length end_ - begin_).toNat) leaf := by
  have hbegin := begin_toNat h
  have hend := stop_toNat k.length end_
  rw [encodeVector, List.length_map]
  generalize (if end_ < 0 then UInt32.ofNat k.length + 1 + toUnsigned end_
    else toUnsigned end_) = stop at hend ⊢
  have hordered := h.ordered
  have hinside := h.inside
  have hnonneg := h.nonneg
  have hstopNat : (stop.toNat : ℤ) = lastOf k.length end_ := by omega
  have hcount : (lastOf k.length end_ - begin_).toNat = stop.toNat - begin_.toNat := by omega
  have hlen : ((k.drop begin_.toNat).take (stop.toNat - begin_.toNat)).length =
      stop.toNat - begin_.toNat := by
    rw [List.length_take, List.length_drop]
    omega
  have hodd : (stop - toUnsigned begin_) % 2 ≠ 0 ↔ (stop.toNat - begin_.toNat) % 2 = 1 := by
    have hlt := stop.toNat_lt
    rw [ne_eq, ← UInt32.toNat_inj, UInt32.toNat_mod, UInt32.toNat_sub, hbegin,
      show (2 : UInt32).toNat = 2 from rfl, UInt32.toNat_zero]
    omega
  rw [hcount]
  by_cases hk : (stop.toNat - begin_.toNat) % 2 = 1
  · have hin : begin_.toNat < k.length := by omega
    have hnext : (toUnsigned begin_ + 1).toNat = begin_.toNat + 1 := by
      have hlt := stop.toNat_lt
      rw [UInt32.toNat_add, UInt32.toNat_one, hbegin, Nat.mod_eq_of_lt (by omega)]
    rw [decide_eq_true (hodd.mpr hk), if_pos rfl, hbegin,
      pairs_eq (by omega) (by omega) (by omega) (by omega), hnext]
    have hcons : (k.drop begin_.toNat).take (stop.toNat - begin_.toNat) = k.get ⟨_, hin⟩ ::
        (k.drop (begin_.toNat + 1)).take (stop.toNat - (begin_.toNat + 1)) := by
      rw [List.drop_eq_getElem_cons hin,
        show stop.toNat - begin_.toNat = stop.toNat - (begin_.toNat + 1) + 1 by omega,
        List.take_succ_cons]
      rfl
    rw [hcons] at hlen ⊢
    rw [hexPrefixEncode_odd (by omega), ← flags_or]
    simp [hin]
  · rw [decide_eq_false (mt hodd.mp hk), if_neg Bool.false_ne_true,
      pairs_eq (by omega) (by omega) (by omega) (by omega), flags_eq, hbegin,
      hexPrefixEncode_even (by omega)]

theorem sliceEnd_fits {n : UInt32} (h : Bounds n.toNat begin_ end_)
    (hfit : end_ < 0 → n.toNat + 1 < 2 ^ 31 ∨
      2 ^ 31 ≤ n.toNat ∧ 2 ^ 31 ≤ lastOf n.toNat end_) :
    ∃ e, sliceEnd n end_ = some e ∧ e % 2 ^ 32 = lastOf n.toNat end_ := by
  have hlt := n.toNat_lt
  have hint := h.end_int
  have hnonneg := h.nonneg
  have hordered := h.ordered
  have hinside := h.inside
  by_cases hneg : end_ < 0
  · have hcases := hfit hneg
    have hlast : lastOf n.toNat end_ = n.toNat + 1 + end_ := if_pos hneg
    have hone : -2 ^ 31 ≤ toSigned n + 1 ∧ toSigned n + 1 < 2 ^ 31 := by
      rw [toSigned]
      split_ifs <;> omega
    have htwo : -2 ^ 31 ≤ toSigned n + 1 + end_ ∧ toSigned n + 1 + end_ < 2 ^ 31 := by
      rw [toSigned]
      split_ifs <;> omega
    refine ⟨toSigned n + 1 + end_, ?_, ?_⟩
    · rw [sliceEnd, if_pos hneg, addInt, if_pos hone]
      exact if_pos htwo
    · rw [hlast, toSigned]
      split_ifs <;> omega
  · have hlast : lastOf n.toNat end_ = end_ := if_neg hneg
    exact ⟨end_, if_neg hneg, by omega⟩

theorem sliceEnd_overflows {n : UInt32} (h : Bounds n.toNat begin_ end_)
    (hfit : ¬(end_ < 0 → n.toNat + 1 < 2 ^ 31 ∨
      2 ^ 31 ≤ n.toNat ∧ 2 ^ 31 ≤ lastOf n.toNat end_)) : sliceEnd n end_ = none := by
  have hneg : end_ < 0 := by
    by_contra hneg
    exact hfit fun h => absurd h hneg
  have hcases := fun hc => hfit fun _ => hc
  have hlt := n.toNat_lt
  have hint := h.end_int
  have hlast : lastOf n.toNat end_ = n.toNat + 1 + end_ := if_pos hneg
  rw [hlast] at hcases
  rw [sliceEnd, if_pos hneg, addInt]
  by_cases hone : -2 ^ 31 ≤ toSigned n + 1 ∧ toSigned n + 1 < 2 ^ 31
  · have htwo : ¬(-2 ^ 31 ≤ toSigned n + 1 + end_ ∧ toSigned n + 1 + end_ < 2 ^ 31) := by
      rw [toSigned] at hone ⊢
      split_ifs at hone ⊢ <;> omega
    rw [if_pos hone]
    exact if_neg htwo
  · rw [if_neg hone]
    rfl

theorem encodeSlice_eq {s : NibbleSlice} (hs : s.Inside) (h : Bounds s.size.toNat begin_ end_)
    (hfit : end_ < 0 → s.size.toNat + 1 < 2 ^ 31 ∨
      2 ^ 31 ≤ s.size.toNat ∧ 2 ^ 31 ≤ lastOf s.size.toNat end_) :
    encodeSlice s leaf begin_ end_ = some (hexPrefixEncode
      (between s.data (s.offset.toNat + begin_.toNat)
        (s.offset.toNat + (lastOf s.size.toNat end_).toNat)) leaf) := by
  obtain ⟨e, he, hlast⟩ := sliceEnd_fits h hfit
  have hsize := size_of_inside hs
  have hlt := Nat.mod_lt (s.data.length * 2) (show 0 < 2 ^ 32 by decide)
  have hle := Nat.mod_le (s.data.length * 2) (2 ^ 32)
  have hnonneg := h.nonneg
  have hordered := h.ordered
  have hinside := h.inside
  have hvalue := toUnsigned_toNat e
  have hbegin : (toUnsigned begin_ + s.offset).toNat = s.offset.toNat + begin_.toNat := by
    rw [UInt32.toNat_add, begin_toNat h]
    omega
  have hstop : (toUnsigned e + s.offset).toNat =
      s.offset.toNat + (lastOf s.size.toNat end_).toNat := by
    rw [UInt32.toNat_add]
    omega
  have hodd : (toUnsigned e + s.offset - (toUnsigned begin_ + s.offset)) &&& 1 ≠ 0 ↔
      ((lastOf s.size.toNat end_).toNat - begin_.toNat) % 2 = 1 := by
    rw [and_one_ne_zero, UInt32.toNat_sub, hbegin, hstop]
    omega
  have hlen : (between s.data (s.offset.toNat + begin_.toNat)
      (s.offset.toNat + (lastOf s.size.toNat end_).toNat)).length =
        (lastOf s.size.toNat end_).toNat - begin_.toNat := by
    rw [length_between (by omega)]
    omega
  have he' : sliceEnd (.ofNat (s.data.length * 2) - s.offset) end_ = some e := he
  rw [encodeSlice, he', Option.bind_eq_bind, Option.bind_some]
  dsimp only
  rw [nibbles_eq (by omega) (by omega) (by omega), hbegin, hstop,
    putAll_flags leaf (by rw [decide_eq_true_eq, hodd, hlen])]
  rfl

theorem encodePair_eq {s₁ s₂ : NibbleSlice} (h₁ : s₁.Inside) (h₂ : s₂.Inside) :
    encodePair s₁ s₂ leaf = hexPrefixEncode
      (between s₁.data s₁.offset.toNat (s₁.offset.toNat + s₁.size.toNat) ++
        between s₂.data s₂.offset.toNat (s₂.offset.toNat + s₂.size.toNat)) leaf := by
  have hsize₁ := size_of_inside h₁
  have hsize₂ := size_of_inside h₂
  have hle₁ := Nat.mod_le (s₁.data.length * 2) (2 ^ 32)
  have hle₂ := Nat.mod_le (s₂.data.length * 2) (2 ^ 32)
  have hstop₁ : (UInt32.ofNat (s₁.data.length * 2)).toNat =
      s₁.offset.toNat + s₁.size.toNat := by rw [UInt32.toNat_ofNat', hsize₁]
  have hstop₂ : (UInt32.ofNat (s₂.data.length * 2)).toNat =
      s₂.offset.toNat + s₂.size.toNat := by rw [UInt32.toNat_ofNat', hsize₂]
  have hodd : (UInt32.ofNat (s₁.data.length * 2) - s₁.offset +
      UInt32.ofNat (s₂.data.length * 2) - s₂.offset) &&& 1 ≠ 0 ↔
        (s₁.size.toNat + s₂.size.toNat) % 2 = 1 := by
    rw [and_one_ne_zero, UInt32.toNat_sub, UInt32.toNat_add, UInt32.toNat_sub, hstop₁, hstop₂]
    have := s₁.offset.toNat_lt
    have := s₂.offset.toNat_lt
    omega
  rw [encodePair]
  dsimp only
  rw [nibbles_eq (by omega) (by omega) (by omega), nibbles_eq (by omega) (by omega) (by omega),
    ← putAll_append, hstop₁, hstop₂, putAll_flags leaf]
  rw [decide_eq_true_eq, hodd, List.length_append, length_between (by omega),
    length_between (by omega), Nat.add_sub_cancel_left, Nat.add_sub_cancel_left]

end Forms

theorem pairs_nil {hexVector : Bytes} {stop i : UInt32} (h : stop.toNat ≤ i.toNat) (fuel : ℕ) :
    pairs hexVector stop fuel i = [] := by
  have hlt : ¬i < stop := fun hlt => by
    have := UInt32.lt_iff_toNat_lt.mp hlt
    omega
  cases fuel with
  | zero => rfl
  | succ fuel => rw [pairs, if_neg hlt]

/-- An end of 2^32 and more comes out in front of the begin. -/
theorem length_encodeVector {hexVector : Bytes} {leaf : Bool} {begin_ end_ : ℤ}
    (h : Bounds hexVector.length begin_ end_) (hlast : 2 ^ 32 ≤ lastOf hexVector.length end_)
    (hcount : lastOf hexVector.length end_ < begin_ + 2 ^ 32) :
    (encodeVector hexVector leaf begin_ end_).length = 1 := by
  have hbegin := begin_toNat h
  have hend := stop_toNat hexVector.length end_
  have hint := h.begin_int
  have hnonneg := h.nonneg
  rw [encodeVector]
  generalize (if end_ < 0 then UInt32.ofNat hexVector.length + 1 + toUnsigned end_
    else toUnsigned end_) = stop at hend ⊢
  have hnext : (toUnsigned begin_ + 1).toNat = begin_.toNat + 1 := by
    rw [UInt32.toNat_add, UInt32.toNat_one, hbegin, Nat.mod_eq_of_lt (by omega)]
  rw [pairs_nil (by omega), pairs_nil (by omega)]
  split_ifs <;> rfl

theorem size_keyOf_singleton {hpe : Bytes} (h : hpe.length = 1) :
    (keyOf hpe).size.toNat ≤ 1 := by
  rw [keyOf, if_neg (by omega)]
  split_ifs <;> simp [NibbleSlice.size, h]

/-! ### What is read back -/

namespace Call
variable {c : Call} {leaf : Bool}

/-- A call whose nibbles can be counted gives their key. -/
theorem encode_eq (hc : c.WellFormed) (hf : c.Fits) (leaf : Bool) : ∃ k : List Nibble,
    k.length < 2 ^ 32 ∧ c.selected = k.map toByte ∧
      c.encode leaf = some (hexPrefixEncode k leaf) := by
  cases c with
  | vector hexVector begin_ end_ =>
    obtain ⟨hnibbles, h⟩ := hc
    obtain ⟨k, rfl⟩ := exists_nibbles hnibbles
    rw [Fits, List.length_map] at hf
    rw [List.length_map] at h
    have hnonneg := h.nonneg
    refine ⟨_, ?_, select_map, congrArg some (encodeVector_eq h hf)⟩
    rw [List.length_take]
    omega
  | slice s begin_ end_ =>
    obtain ⟨hs, h⟩ := hc
    have hlt := s.size.toNat_lt
    have hsize := size_of_inside hs
    have hle := Nat.mod_le (s.data.length * 2) (2 ^ 32)
    have hnonneg := h.nonneg
    have hordered := h.ordered
    have hinside := h.inside
    refine ⟨_, ?_, ?_, encodeSlice_eq hs h hf⟩
    · rw [length_between (by omega)]
      omega
    · have hcount : s.offset.toNat + begin_.toNat + (lastOf s.size.toNat end_ - begin_).toNat =
          s.offset.toNat + (lastOf s.size.toNat end_).toNat := by omega
      rw [selected, read_of_inside hs, select_map, length_between (by omega),
        Nat.add_sub_cancel_left, between_drop_take (by omega), hcount]
  | pair s₁ s₂ =>
    have hsize₁ := size_of_inside hc.1
    have hsize₂ := size_of_inside hc.2
    have hle₁ := Nat.mod_le (s₁.data.length * 2) (2 ^ 32)
    have hle₂ := Nat.mod_le (s₂.data.length * 2) (2 ^ 32)
    rw [Fits] at hf
    refine ⟨_, ?_, ?_, congrArg some (encodePair_eq hc.1 hc.2)⟩
    · rw [List.length_append, length_between (by omega), length_between (by omega)]
      omega
    · rw [selected, read_of_inside hc.1, read_of_inside hc.2, List.map_append]

/-- Otherwise the number of the nibbles is lost, or nothing is written. -/
theorem not_roundTrips (hc : c.WellFormed) (hf : ¬c.Fits) : ¬c.RoundTrips leaf := by
  rintro ⟨hpe, hencode, hread, -⟩
  have hlen := congrArg List.length hread
  rw [length_read] at hlen
  cases c with
  | vector hexVector begin_ end_ =>
    have hlt := (keyOf hpe).size.toNat_lt
    have hint := hc.2.begin_int
    have hnonneg := hc.2.nonneg
    have hinside := hc.2.inside
    rw [Fits] at hf
    rw [selected, select, List.length_take, List.length_drop] at hlen
    have hone : hpe.length = 1 := by
      rw [← Option.some.inj hencode]
      exact length_encodeVector hc.2 (by omega) (by omega)
    have hsize := size_keyOf_singleton hone
    omega
  | slice s begin_ end_ =>
    have hnone : encodeSlice s leaf begin_ end_ = none := by
      have he : sliceEnd (.ofNat (s.data.length * 2) - s.offset) end_ = none :=
        sliceEnd_overflows hc.2 hf
      rw [encodeSlice, he]
      rfl
    rw [encode, hnone] at hencode
    cases hencode
  | pair s₁ s₂ =>
    rw [encode, encodePair_eq hc.1 hc.2, Option.some.injEq] at hencode
    have hsize₁ := size_of_inside hc.1
    have hsize₂ := size_of_inside hc.2
    have hle₁ := Nat.mod_le (s₁.data.length * 2) (2 ^ 32)
    have hle₂ := Nat.mod_le (s₂.data.length * 2) (2 ^ 32)
    rw [← hencode, size_keyOf, List.length_append, length_between (by omega),
      length_between (by omega), selected, List.length_append, length_read, length_read] at hlen
    rw [Fits] at hf
    omega

end Call

theorem pair_overflows {data : Bytes} (h : data.length = 2 ^ 30) {leaf : Bool} :
    ¬(Call.pair ⟨data, 0⟩ ⟨data, 0⟩).RoundTrips leaf := by
  have hsize : (⟨data, 0⟩ : NibbleSlice).size.toNat = 2 ^ 31 := by
    rw [NibbleSlice.size, h]
    simp
  have hinside : (⟨data, 0⟩ : NibbleSlice).Inside := Nat.zero_le _
  have hfit : ¬(Call.pair ⟨data, 0⟩ ⟨data, 0⟩).Fits := by
    intro hf
    simp only [Call.Fits, hsize] at hf
    omega
  exact Call.not_roundTrips ⟨hinside, hinside⟩ hfit

end Aleth.Devcore.HexPrefix
