import Mathlib

/-! Machine words of fixed size (`Common.h`, `Address.h`): `uint64_t`, `u256` and `Address`. -/
namespace Aleth.Devcore

abbrev U64 := BitVec 64

abbrev U256 := BitVec 256

abbrev Address := BitVec 160

/-- Words are ordered as the numbers they stand for. -/
instance bitVecLinearOrder (w : ℕ) : LinearOrder (BitVec w) where
  le_refl := BitVec.le_refl
  le_trans _ _ _ := BitVec.le_trans
  lt_iff_le_not_ge a b := by
    simp only [BitVec.lt_def, BitVec.le_def]
    omega
  le_antisymm _ _ := BitVec.le_antisymm
  le_total := BitVec.le_total
  toDecidableLE := inferInstance
  toDecidableLT := inferInstance
  toDecidableEq := inferInstance

instance addressLawfulBEq : LawfulBEq Address := inferInstance

def ZeroAddress : Address := 0

def MaxAddress : Address := BitVec.allOnes 160

end Aleth.Devcore
