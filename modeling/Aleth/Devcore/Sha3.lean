import Aleth.Devcore.Bytes
import Aleth.Devcore.Words

/-! The hash function (`SHA3.h`) and hashes as words (`FixedHash.h`).

The hash is a parameter: nothing depends on how it is computed. -/
namespace Aleth.Devcore

class Sha3 where
  sha3 : Bytes → H256

export Sha3 (sha3)

def EmptySHA3 [Sha3] : H256 := sha3 []

/-- Hashes are compared as their bytes are. -/
instance h256LinearOrder : LinearOrder H256 := LinearOrder.lift' H256.bytes fun _ _ h => H256.ext h

theorem H256.le_def {a b : H256} : a ≤ b ↔ a.bytes ≤ b.bytes := Iff.rfl

theorem H256.lt_def {a b : H256} : a < b ↔ a.bytes < b.bytes := Iff.rfl

theorem H256.zero_le (h : H256) : H256.zero ≤ h := by
  have hzeros : ∀ b : Bytes, List.replicate b.length (0 : UInt8) ≤ b := by
    intro b
    induction b with
    | nil => exact le_rfl
    | cons x b ih =>
      rw [List.length_cons, List.replicate_succ]
      rcases eq_or_lt_of_le (UInt8.zero_le : 0 ≤ x) with rfl | hx
      · exact not_lt.mp fun hlt => not_lt.mpr ih (by simpa [List.cons_lt_cons_iff] using hlt)
      · exact (List.cons_lt_cons_iff.mpr (.inl hx)).le
  have hbytes := hzeros h.bytes
  rw [h.size] at hbytes
  exact hbytes

/-- `h256(u256)`. -/
def H256.ofU256 (x : U256) : H256 := H256.alignRight (toBigEndian 32 x.toNat)

/-- `u256(h256)`. -/
def H256.toU256 (h : H256) : U256 := BitVec.ofNat 256 (fromBigEndian h.bytes)

/-- `asAddress`: the low 160 bits. -/
def asAddress (item : U256) : Address := item.setWidth 160

def fromAddress (a : Address) : U256 := a.setWidth 256

end Aleth.Devcore
