import Aleth.Devcore.Bytes
import Mathlib

/-! Hex strings (`CommonData.h`, `CommonData.cpp`).

`fromHex` counts with an `unsigned`, which goes back to zero in a string of
2^32 characters and more. `fromHex_toHexPrefixed` is the way there and back, for
shorter strings. -/
namespace Aleth.Devcore

/-! ### The code -/

def hexdigit (n : UInt8) : UInt8 := if n < 10 then 0x30 + n else 0x61 + (n - 10)

def toHex (data : Bytes) : Bytes := data.flatMap fun b => [hexdigit (b / 16), hexdigit (b % 16)]

/-- `"0x"`. -/
def hexMark : Bytes := [0x30, 0x78]

def toHexPrefixed (data : Bytes) : Bytes := hexMark ++ toHex data

/-- `fromHexChar`; nothing for -1. -/
def fromHexChar (i : UInt8) : Option UInt8 :=
  if 0x30 ≤ i ∧ i ≤ 0x39 then some (i - 0x30)
  else if 0x61 ≤ i ∧ i ≤ 0x66 then some (i - 0x61 + 10)
  else if 0x41 ≤ i ∧ i ≤ 0x46 then some (i - 0x41 + 10)
  else none

inductive HexError where
  | badHexCharacter
  /-- The loop does not end. -/
  | endless
deriving DecidableEq

/-- The loop over pairs of digits. -/
def fromHexLoop (s : Bytes) : (fuel : ℕ) → (i : UInt32) → Except HexError Bytes
  | 0, _ => .error .endless
  | fuel + 1, i =>
    if i.toNat < s.length then
      match fromHexChar (s.getD i.toNat 0), fromHexChar (s.getD (i + 1).toNat 0) with
      | some h, some l => do return (h * 16 + l) :: (← fromHexLoop s fuel (i + 2))
      | _, _ => .error .badHexCharacter
    else .ok []

/-- `fromHex`, where the error is thrown. A turn for each character is enough, or the loop goes
round for ever. -/
def fromHex (s : Bytes) : Except HexError Bytes :=
  let start : UInt32 := if s.take 2 = hexMark then 2 else 0
  if s.length % 2 = 1 then
    match fromHexChar (s.getD start.toNat 0) with
    | some h => do return h :: (← fromHexLoop s (s.length + 1) (start + 1))
    | none => .error .badHexCharacter
  else fromHexLoop s (s.length + 1) start

/-- `toCompactHexPrefixed`. -/
def toCompactHexPrefixed (val min : ℕ) : Bytes :=
  toHexPrefixed (toBigEndian (max min (bytesRequired val)) val)

/-! ### There and back -/

theorem fromHexChar_hexdigit {n : UInt8} (h : n < 16) : fromHexChar (hexdigit n) = some n := by
  revert n
  decide +kernel

theorem hexdigit_ne {n : UInt8} (h : n < 16) : hexdigit n ≠ 0x22 ∧ hexdigit n ≠ 0x5C := by
  revert n
  decide +kernel

theorem uint8_halves (b : UInt8) : b / 16 < 16 ∧ b % 16 < 16 ∧ b / 16 * 16 + b % 16 = b := by
  revert b
  decide +kernel

@[simp] theorem toHex_cons (b : UInt8) (data : Bytes) :
    toHex (b :: data) = hexdigit (b / 16) :: hexdigit (b % 16) :: toHex data := rfl

@[simp] theorem length_toHex (data : Bytes) : (toHex data).length = 2 * data.length := by
  induction data with
  | nil => rfl
  | cons b data ih =>
    simp only [toHex_cons, List.length_cons, ih]
    ring

theorem length_toHexPrefixed (data : Bytes) :
    (toHexPrefixed data).length = 2 + 2 * data.length := by
  simp [toHexPrefixed, hexMark]
  omega

/-- From where the digits of the data begin. -/
theorem fromHexLoop_toHex {s : Bytes} (hs : s.length < 2 ^ 32) {data : Bytes} {i : UInt32}
    (hdrop : s.drop i.toNat = toHex data) (hle : i.toNat ≤ s.length) {fuel : ℕ}
    (hf : data.length < fuel) : fromHexLoop s fuel i = .ok data := by
  have hlen := congrArg List.length hdrop
  rw [List.length_drop, length_toHex] at hlen
  induction data generalizing i fuel with
  | nil =>
    obtain ⟨fuel, rfl⟩ := Nat.exists_eq_add_one_of_ne_zero (Nat.ne_zero_of_lt hf)
    have hend : ¬i.toNat < s.length := by
      rw [List.length_nil] at hlen
      omega
    rw [fromHexLoop, if_neg hend]
  | cons b data ih =>
    obtain ⟨fuel, rfl⟩ := Nat.exists_eq_add_one_of_ne_zero (Nat.ne_zero_of_lt hf)
    rw [List.length_cons] at hlen hf
    have hin : i.toNat < s.length := by omega
    have hone : (i + 1).toNat = i.toNat + 1 := by
      rw [UInt32.toNat_add, Nat.mod_eq_of_lt]
      · rfl
      · show i.toNat + 1 < 2 ^ 32
        omega
    have htwo : (i + 2).toNat = i.toNat + 2 := by
      rw [UInt32.toNat_add, Nat.mod_eq_of_lt]
      · rfl
      · show i.toNat + 2 < 2 ^ 32
        omega
    have hget : ∀ j, s.getD (i.toNat + j) 0 = (toHex (b :: data)).getD j 0 := by
      intro j
      rw [← hdrop, List.getD_eq_getElem?_getD, List.getD_eq_getElem?_getD, List.getElem?_drop]
    have hfirst := hget 0
    have hsecond := hget 1
    rw [toHex_cons] at hfirst hsecond
    obtain ⟨hhigh, hlow, hsum⟩ := uint8_halves b
    have hrest : s.drop (i + 2).toNat = toHex data := by
      rw [htwo, ← List.drop_drop, hdrop]
      rfl
    rw [fromHexLoop, if_pos hin, hone, hsecond]
    rw [Nat.add_zero] at hfirst
    rw [hfirst]
    show (match fromHexChar (hexdigit (b / 16)), fromHexChar (hexdigit (b % 16)) with
      | some h, some l => do return (h * 16 + l) :: (← fromHexLoop s fuel (i + 2))
      | _, _ => .error .badHexCharacter) = _
    rw [fromHexChar_hexdigit hhigh, fromHexChar_hexdigit hlow]
    dsimp only
    rw [ih hrest (by omega) (by omega) (by omega), hsum]
    rfl

theorem fromHex_toHexPrefixed {data : Bytes} (h : 2 + 2 * data.length < 2 ^ 32) :
    fromHex (toHexPrefixed data) = .ok data := by
  have hlen := length_toHexPrefixed data
  have heven : ¬(toHexPrefixed data).length % 2 = 1 := by omega
  rw [fromHex, if_neg heven, if_pos (by rfl)]
  exact fromHexLoop_toHex (by omega) rfl (by rw [hlen]; exact Nat.le_add_right 2 _) (by omega)

end Aleth.Devcore
