import Aleth.Devcore.Words

/-! The arithmetic of the virtual machine, on 256-bit words. -/
namespace Aleth.Evm
open Devcore

/-- `m_SP[1] ? divWorkaround(m_SP[0], m_SP[1]) : 0`. -/
def div (a b : U256) : U256 := if b = 0 then 0 else a / b

/-- Quotients of signed words are truncated. -/
def sdiv (a b : U256) : U256 := if b = 0 then 0 else BitVec.ofInt 256 (a.toInt.tdiv b.toInt)

def mod (a b : U256) : U256 := if b = 0 then 0 else a % b

def smod (a b : U256) : U256 := if b = 0 then 0 else BitVec.ofInt 256 (a.toInt.tmod b.toInt)

/-- The loop of `exp256`; an exponent of 256 bits is shifted to zero in 256 turns. -/
def expLoop : ℕ → U256 → U256 → U256 → U256
  | 0, result, _, _ => result
  | n + 1, result, base, exponent =>
    if exponent = 0 then result
    else expLoop n (if exponent.getLsbD 0 then result * base else result) (base * base)
      (exponent >>> 1)

/-- Exponentiation by squaring. -/
def exp256 (base exponent : U256) : U256 := expLoop 256 1 base exponent

/-- `32 - h256(expon).firstBitSet() / 8`: how many bytes the exponent has. -/
def byteCount (expon : U256) : ℕ := 32 - (256 - (if expon = 0 then 0 else expon.toNat.log2 + 1)) / 8

/-- `m_SP[0] < 32 ? (m_SP[1] >> (8 * (31 - m_SP[0]))) & 0xff : 0`. -/
def byteOf (i x : U256) : U256 := if i < 32 then (x >>> (8 * (31 - i.toNat))) &&& 0xff else 0

def shl (shift x : U256) : U256 := if 256 ≤ shift then 0 else x <<< shift.toNat

def shr (shift x : U256) : U256 := if 256 ≤ shift then 0 else x >>> shift.toNat

def hibit : U256 := 1 <<< 255

def allbits : U256 := BitVec.allOnes 256

def sar (shift shiftee : U256) : U256 :=
  if 256 ≤ shift then
    if shiftee &&& hibit ≠ 0 then allbits else 0
  else
    let shifted := shiftee >>> shift.toNat
    if shiftee &&& hibit ≠ 0 then shifted ||| allbits <<< (256 - shift.toNat) else shifted

/-- The sum is taken with 512 bits. -/
def addmod (a b m : U256) : U256 :=
  if m = 0 then 0 else BitVec.ofNat 256 ((a.toNat + b.toNat) % m.toNat)

def mulmod (a b m : U256) : U256 :=
  if m = 0 then 0 else BitVec.ofNat 256 ((a.toNat * b.toNat) % m.toNat)

/-- The number with its bits above byte `i` set to that byte's highest bit. -/
def signextend (i number : U256) : U256 :=
  if i < 31 then
    let testBit := i.toNat * 8 + 7
    let mask : U256 := (1 <<< testBit) - 1
    if number.getLsbD testBit then number ||| ~~~mask else number &&& mask
  else number

/-- `b ? 1 : 0`. -/
def ofBool (b : Bool) : U256 := if b then 1 else 0

end Aleth.Evm
