import Aleth.Devcore.Rlp

/-! Hex-prefix keys and two-item nodes (`TrieCommon.h`, `TrieCommon.cpp`).

A `NibbleSlice` is the nibbles it selects, a list; `mid` is `List.drop`. -/
namespace Aleth.Devcore

/-- Two nibbles a byte; the callers leave no odd nibble over. -/
def packNibbles : List Nibble → Bytes
  | hi :: lo :: k => ofNibbles hi lo :: packNibbles k
  | _ => []

/-- The flags of the first nibble: oddness is bit 0, termination bit 1. -/
def hexPrefixFlags (leaf odd : Bool) : Nibble :=
  match leaf, odd with
  | false, false => 0
  | false, true => 1
  | true, false => 2
  | true, true => 3

def hexPrefixEncode (k : List Nibble) (leaf : Bool) : Bytes :=
  if k.length % 2 = 1 then packNibbles (hexPrefixFlags leaf true :: k)
  else packNibbles (hexPrefixFlags leaf false :: 0 :: k)

/-- `keyOf(bytesConstRef)`: the nibbles after the flags. -/
def keyOf (hpe : Bytes) : List Nibble :=
  match hpe with
  | [] => []
  | b :: _ => (asNibbles hpe).drop (if b &&& 0x10 != 0 then 1 else 2)

/-- The termination flag of a hex-prefix key. -/
def isLeafKey (hpe : Bytes) : Bool :=
  match hpe with
  | [] => false
  | b :: _ => b &&& 0x20 != 0

theorem asNibbles_packNibbles {k : List Nibble} (h : k.length % 2 = 0) :
    asNibbles (packNibbles k) = k := by
  induction k using packNibbles.induct with
  | case1 hi lo k ih =>
    rw [List.length_cons, List.length_cons] at h
    rw [packNibbles, asNibbles_ofNibbles, ih (by omega)]
  | case2 k hk =>
    match k, hk with
    | [], _ => rfl
    | [x], _ => simp at h
    | hi :: lo :: r, hk => exact (hk hi lo r rfl).elim

theorem odd_flag (leaf odd : Bool) (lo : Nibble) :
    ((ofNibbles (hexPrefixFlags leaf odd) lo &&& 0x10) != 0) = odd := by
  revert lo
  cases leaf <;> cases odd <;> decide

theorem leaf_flag (leaf odd : Bool) (lo : Nibble) :
    ((ofNibbles (hexPrefixFlags leaf odd) lo &&& 0x20) != 0) = leaf := by
  revert lo
  cases leaf <;> cases odd <;> decide

theorem hexPrefixEncode_odd {a : Nibble} {k : List Nibble} {leaf : Bool}
    (h : (a :: k).length % 2 = 1) :
    hexPrefixEncode (a :: k) leaf = ofNibbles (hexPrefixFlags leaf true) a :: packNibbles k := by
  rw [hexPrefixEncode, if_pos h]
  rfl

theorem hexPrefixEncode_even {k : List Nibble} {leaf : Bool} (h : k.length % 2 ≠ 1) :
    hexPrefixEncode k leaf = ofNibbles (hexPrefixFlags leaf false) 0 :: packNibbles k := by
  rw [hexPrefixEncode, if_neg h]
  rfl

/-- The key read back is the key written. -/
@[simp] theorem keyOf_hexPrefixEncode (k : List Nibble) (leaf : Bool) :
    keyOf (hexPrefixEncode k leaf) = k := by
  by_cases h : k.length % 2 = 1
  · cases k with
    | nil => simp at h
    | cons a k =>
      rw [hexPrefixEncode_odd h, keyOf, odd_flag, asNibbles_ofNibbles, asNibbles_packNibbles
        (by rw [List.length_cons] at h; omega)]
      rfl
  · rw [hexPrefixEncode_even h, keyOf, odd_flag, asNibbles_ofNibbles,
      asNibbles_packNibbles (by omega)]
    rfl

@[simp] theorem isLeafKey_hexPrefixEncode (k : List Nibble) (leaf : Bool) :
    isLeafKey (hexPrefixEncode k leaf) = leaf := by
  by_cases h : k.length % 2 = 1
  · cases k with
    | nil => simp at h
    | cons a k => rw [hexPrefixEncode_odd h, isLeafKey, leaf_flag]
  · rw [hexPrefixEncode_even h, isLeafKey, leaf_flag]

end Aleth.Devcore
