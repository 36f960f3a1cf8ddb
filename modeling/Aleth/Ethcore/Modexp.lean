import Aleth.Devcore.RlpTiles
import Aleth.Devcore.Words
import Mathlib

/-! The precompiled contract for modular powers (`Precompiled.cpp`).

The operands and their lengths are read from the input as if zeros followed it.
The executor asserts that the lengths are sizes and leaves it to the price to
keep larger ones away: that works for the base and the modulus, but the price
grows with the length of the exponent only linearly (`modexp_exact_iff`). -/
namespace Aleth.Ethcore
open Devcore RLPView

/-! ### The code -/

namespace Precompiled

/-- What stops the process, and what would go wrong without notice. -/
inductive Fault where
  | assertion (text : String)
  /-- A number that is no `size_t` is made one. -/
  | truncated
deriving DecidableEq

/-- `numeric_limits<size_t>::max()`. -/
def sizeMax : ℕ := 2 ^ 64 - 1

def assert (c : Prop) [Decidable c] (text : String) : Except Fault Unit :=
  if c then .ok () else .error (.assertion text)

/-- `size_t const s{i}`. -/
def toSize (i : ℕ) : Except Fault ℕ := if i ≤ sizeMax then .ok i else .error .truncated

/-- Parse `count` bytes from `begin` on; what is not there counts as zeros. -/
def parseBigEndianRightPadded (input : Bytes) (begin count : ℕ) : Except Fault ℕ :=
  if input.length < begin then .ok 0
  else do
    assert (count ≤ sizeMax / 8) "_count <= numeric_limits<size_t>::max() / 8"
    let begin ← toSize begin
    let count ← toSize count
    let cropped := (input.drop begin).take (min count (input.length - begin))
    let ret := fromBigEndian cropped
    assert (count - cropped.length ≤ sizeMax / 8)
      "count - cropped.count() <= numeric_limits<size_t>::max() / 8"
    return ret <<< (8 * (count - cropped.length))

/-- The executor of `modexp`; `powm` is the one of `boost::multiprecision`. -/
def modexp (powm : ℕ → ℕ → ℕ → ℕ) (input : Bytes) : Except Fault (Bool × Bytes) := do
  let baseLength ← parseBigEndianRightPadded input 0 32
  let expLength ← parseBigEndianRightPadded input 32 32
  let modLength ← parseBigEndianRightPadded input 64 32
  assert (modLength ≤ sizeMax / 8) "modLength <= numeric_limits<size_t>::max() / 8"
  assert (baseLength ≤ sizeMax / 8) "baseLength <= numeric_limits<size_t>::max() / 8"
  if modLength = 0 ∧ baseLength = 0 then return (true, [])
  assert (expLength ≤ sizeMax / 8) "expLength <= numeric_limits<size_t>::max() / 8"
  let base ← parseBigEndianRightPadded input 96 baseLength
  let exp ← parseBigEndianRightPadded input (96 + baseLength) expLength
  let mod ← parseBigEndianRightPadded input (96 + baseLength + expLength) modLength
  let result := if mod ≠ 0 then powm base exp mod else 0
  let retLength ← toSize modLength
  return (true, toBigEndian retLength result)

/-- `msb`, or zero. -/
def highestBit (i : ℕ) : ℕ := if i ≠ 0 then i.log2 else 0

def expLengthAdjust (expOffset expLength : ℕ) (input : Bytes) : Except Fault ℕ :=
  if expLength ≤ 32 then do
    let exp ← parseBigEndianRightPadded input expOffset expLength
    return highestBit exp
  else do
    let expFirstWord ← parseBigEndianRightPadded input expOffset 32
    let bit ← toSize (highestBit expFirstWord)
    return 8 * (expLength - 32) + bit

def multComplexity (x : ℤ) : ℤ :=
  if x ≤ 64 then x * x
  else if x ≤ 1024 then (x * x).tdiv 4 + 96 * x - 3072
  else (x * x).tdiv 16 + 480 * x - 199680

/-- The pricer of `modexp`. -/
def modexpPrice (input : Bytes) : Except Fault ℤ := do
  let baseLength ← parseBigEndianRightPadded input 0 32
  let expLength ← parseBigEndianRightPadded input 32 32
  let modLength ← parseBigEndianRightPadded input 64 32
  let maxLength := max modLength baseLength
  let adjustedExpLength ← expLengthAdjust (baseLength + 96) expLength input
  return (multComplexity maxLength * max adjustedExpLength 1).tdiv 20

/-- How a call of a precompiled contract ends. -/
inductive Called where
  | outOfGasBase
  | outOfGas (output : Bytes)
  | finished (m_gas : U256) (output : Bytes)

/-- The branch of `Executive::call` for a precompiled contract. -/
def callPrecompiled (cost : Bytes → Except Fault ℤ) (execute : Bytes → Except Fault (Bool × Bytes))
    (gas : U256) (data : Bytes) : Except Fault Called := do
  let g ← cost data
  if gas.toNat < g then return .outOfGasBase
  let (success, output) ← execute data
  return if success then .finished (BitVec.ofInt 256 (gas.toNat - g)) output else .outOfGas output

end Precompiled

/-! ### What the contract is for -/

namespace EIP198
variable (input : Bytes)

/-- The number in `count` bytes from `begin` on, of the input with zeros behind it. -/
def operand (begin count : ℕ) : ℕ :=
  fromBigEndian ((List.range count).map fun i => input.getD (begin + i) 0)

def baseLength : ℕ := operand input 0 32

def expLength : ℕ := operand input 32 32

def modLength : ℕ := operand input 64 32

def base : ℕ := operand input 96 (baseLength input)

def exponent : ℕ := operand input (96 + baseLength input) (expLength input)

def modulus : ℕ := operand input (96 + baseLength input + expLength input) (modLength input)

/-- The index of the highest bit in the first 32 bytes of the exponent, and the bits after these. -/
def adjustedExpLength : ℕ :=
  8 * (expLength input - 32) +
    Nat.log 2 (operand input (96 + baseLength input) (min 32 (expLength input)))

def multComplexity (x : ℤ) : ℤ :=
  if x ≤ 64 then x ^ 2
  else if x ≤ 1024 then x ^ 2 / 4 + 96 * x - 3072
  else x ^ 2 / 16 + 480 * x - 199680

def price : ℤ :=
  multComplexity (max (baseLength input) (modLength input)) * max (adjustedExpLength input) 1 / 20

/-- The power, in as many bytes as the modulus has. -/
structure Output (out : Bytes) : Prop where
  length : out.length = modLength input
  value : fromBigEndian out =
    if modulus input = 0 then 0 else base input ^ exponent input % modulus input

end EIP198

open EIP198 Precompiled

/-! ### Reading an operand -/

theorem fromBigEndian_zeros (b : Bytes) (n : ℕ) :
    fromBigEndian (b ++ List.replicate n 0) = fromBigEndian b * 256 ^ n := by
  induction n with
  | zero => simp
  | succ n ih =>
    rw [List.replicate_succ', ← List.append_assoc, fromBigEndian_append, ih, pow_succ]
    simp [mul_assoc]

/-- The bytes of an operand: what is there, and zeros. -/
theorem operand_bytes (input : Bytes) (begin count : ℕ) :
    ((List.range count).map fun i => input.getD (begin + i) 0) =
      (input.drop begin).take (min count (input.length - begin)) ++
        List.replicate (count - min count (input.length - begin)) 0 := by
  apply List.ext_getElem
  · simp
  · intro i h1 h2
    rw [List.getElem_map, List.getElem_range, List.getElem_append]
    split
    case isTrue hlt =>
      have hin : begin + i < input.length := by
        simp at hlt
        omega
      rw [List.getElem_take, List.getElem_drop, List.getD_eq_getElem _ _ hin]
    case isFalse hge =>
      have hout : input.length ≤ begin + i := by
        simp at hge h1
        omega
      rw [List.getElem_replicate, List.getD_eq_default _ _ hout]

theorem operand_eq (input : Bytes) (begin count : ℕ) :
    operand input begin count =
      fromBigEndian ((input.drop begin).take (min count (input.length - begin))) *
        256 ^ (count - min count (input.length - begin)) := by
  rw [operand, operand_bytes, fromBigEndian_zeros]

theorem operand_lt (input : Bytes) (begin count : ℕ) : operand input begin count < 256 ^ count := by
  have hlt := fromBigEndian_lt ((List.range count).map fun i => input.getD (begin + i) 0)
  rwa [List.length_map, List.length_range] at hlt

theorem operand_beyond {input : Bytes} {begin : ℕ} (h : input.length < begin) (count : ℕ) :
    operand input begin count = 0 := by
  rw [operand_eq, List.drop_eq_nil_of_le h.le]
  simp [fromBigEndian]

/-- Reading with a length that passes the assertion. -/
theorem parse_eq {input : Bytes} {count : ℕ} (hin : input.length ≤ sizeMax) (begin : ℕ)
    (hcount : count ≤ sizeMax / 8) :
    parseBigEndianRightPadded input begin count = .ok (operand input begin count) := by
  unfold parseBigEndianRightPadded
  split
  case isTrue hlt => rw [operand_beyond hlt]
  case isFalse hle =>
    have hlen : ((input.drop begin).take (min count (input.length - begin))).length =
        min count (input.length - begin) := by
      rw [List.length_take, List.length_drop]
      omega
    have hsize : sizeMax / 8 ≤ sizeMax := Nat.div_le_self _ _
    rw [assert, if_pos hcount, ok_bind, toSize, if_pos (by omega), ok_bind, toSize,
      if_pos (hcount.trans hsize), ok_bind]
    dsimp only
    rw [hlen, assert, if_pos (by omega), ok_bind, operand_eq,
      Nat.shiftLeft_eq, pow_mul]
    rfl

theorem parse_short {input : Bytes} {count : ℕ} (hin : input.length ≤ sizeMax) (begin : ℕ)
    (hcount : count ≤ 32) :
    parseBigEndianRightPadded input begin count = .ok (operand input begin count) :=
  parse_eq hin begin (hcount.trans (by decide))

/-! ### The price -/

theorem highestBit_eq (i : ℕ) : highestBit i = Nat.log 2 i := by
  unfold highestBit
  split
  case isTrue h => exact Nat.log2_eq_log_two
  case isFalse h => rw [not_not.mp h, Nat.log_zero_right]

theorem log_operand_lt {input : Bytes} {begin count : ℕ} (hcount : count ≤ 32) :
    Nat.log 2 (operand input begin count) < 256 := by
  have hlt : operand input begin count < 2 ^ 256 :=
    (operand_lt input begin count).trans_le (by
      rw [show (256 : ℕ) = 2 ^ 8 from rfl, ← pow_mul]
      exact Nat.pow_le_pow_right (by decide) (by omega))
  exact Nat.log_lt_of_lt_pow' (by decide) hlt

theorem expLengthAdjust_eq {input : Bytes} (hin : input.length ≤ sizeMax) :
    expLengthAdjust (baseLength input + 96) (expLength input) input =
      .ok (adjustedExpLength input) := by
  rw [Nat.add_comm (baseLength input) 96]
  unfold expLengthAdjust adjustedExpLength
  split
  case isTrue hle =>
    rw [parse_short hin _ hle, ok_bind, highestBit_eq, min_eq_right hle, Nat.sub_eq_zero_of_le hle,
      Nat.mul_zero, Nat.zero_add]
    rfl
  case isFalse hgt =>
    have hlog : Nat.log 2 (operand input (96 + baseLength input) 32) < 256 :=
      log_operand_lt (le_refl 32)
    have hsize : Nat.log 2 (operand input (96 + baseLength input) 32) ≤ sizeMax :=
      hlog.le.trans (by decide)
    rw [parse_short hin _ le_rfl, ok_bind, highestBit_eq, toSize, if_pos hsize, ok_bind,
      min_eq_left (by omega)]
    rfl

theorem multComplexity_eq {x : ℤ} (hx : 0 ≤ x) :
    Precompiled.multComplexity x = EIP198.multComplexity x := by
  have hsq : 0 ≤ x * x := mul_nonneg hx hx
  unfold Precompiled.multComplexity EIP198.multComplexity
  rw [Int.tdiv_eq_ediv_of_nonneg hsq, Int.tdiv_eq_ediv_of_nonneg hsq, pow_two]

theorem multComplexity_nonneg (x : ℤ) : 0 ≤ EIP198.multComplexity x := by
  have hsq : 0 ≤ x ^ 2 := by positivity
  unfold EIP198.multComplexity
  split_ifs <;> omega

/-- The pricer computes the price of the EIP, whatever the input. -/
theorem modexpPrice_eq {input : Bytes} (hin : input.length ≤ sizeMax) :
    modexpPrice input = .ok (price input) := by
  have hcomplexity : (0 : ℤ) ≤ max (baseLength input : ℤ) (modLength input) :=
    (Int.natCast_nonneg _).trans (le_max_left _ _)
  have hprod := mul_nonneg (multComplexity_nonneg (max (baseLength input : ℤ) (modLength input)))
    (Int.natCast_nonneg (max (adjustedExpLength input) 1))
  rw [modexpPrice, parse_short hin _ le_rfl, ok_bind, parse_short hin _ le_rfl, ok_bind,
    parse_short hin _ le_rfl, ok_bind]
  change (expLengthAdjust (baseLength input + 96) (expLength input) input >>= _) = _
  rw [expLengthAdjust_eq hin, ok_bind, price, ← Int.tdiv_eq_ediv_of_nonneg hprod,
    ← multComplexity_eq hcomplexity, max_comm (baseLength input : ℤ), ← Nat.cast_max]
  rfl

/-- A length that is no size costs more than any gas. -/
theorem multComplexity_large {x : ℤ} (hx : 2 ^ 61 ≤ x) : 2 ^ 118 ≤ EIP198.multComplexity x := by
  have hsq : (2 ^ 61) ^ 2 ≤ x ^ 2 := pow_le_pow_left₀ (by norm_num) hx 2
  unfold EIP198.multComplexity
  rw [if_neg (by omega), if_neg (by omega)]
  omega

/-- The price keeps the lengths of the base and the modulus below a size. -/
theorem lengths_le_of_price {input : Bytes} (hprice : price input ≤ 2 ^ 63 - 1) :
    baseLength input ≤ sizeMax / 8 ∧ modLength input ≤ sizeMax / 8 := by
  by_contra hlarge
  have hmax : (2 : ℤ) ^ 61 ≤ max (baseLength input : ℤ) (modLength input) := by
    simp only [sizeMax] at hlarge
    omega
  have hcomplexity := multComplexity_large hmax
  have hone : (1 : ℤ) ≤ (max (adjustedExpLength input) 1 : ℕ) := by
    exact_mod_cast le_max_right _ _
  have hprod : 2 ^ 118 * 1 ≤
      EIP198.multComplexity (max (baseLength input : ℤ) (modLength input)) *
        (max (adjustedExpLength input) 1 : ℕ) :=
    mul_le_mul hcomplexity hone (by norm_num) (multComplexity_nonneg _)
  unfold price at hprice
  omega

/-! ### The executor -/

/-- The lengths that the assertions let pass. -/
def Sized (input : Bytes) : Prop :=
  expLength input ≤ sizeMax / 8 ∨ modLength input = 0 ∧ baseLength input = 0

/-- The result fits in the bytes of the modulus. -/
theorem output_toBigEndian {input : Bytes} {result : ℕ}
    (hresult : result =
      if modulus input = 0 then 0 else base input ^ exponent input % modulus input) :
    Output input (toBigEndian (modLength input) result) where
  length := toBigEndian_length _ _
  value := by
    have hmod : modulus input < 256 ^ modLength input := operand_lt _ _ _
    have hlt : result < 256 ^ modLength input := by
      rw [hresult]
      split
      · positivity
      · exact (Nat.mod_lt _ (by omega)).trans hmod
    rw [fromBigEndian_toBigEndian, Nat.mod_eq_of_lt hlt, hresult]

theorem output_nil {input : Bytes} (h0 : modLength input = 0) : Output input [] where
  length := h0.symm
  value := by
    have hmod : modulus input < 256 ^ modLength input := operand_lt _ _ _
    rw [h0] at hmod
    rw [if_pos (by omega)]
    rfl

section Executor
variable {powm : ℕ → ℕ → ℕ → ℕ} {input : Bytes} (hin : input.length ≤ sizeMax)
  (hbase : baseLength input ≤ sizeMax / 8) (hmod : modLength input ≤ sizeMax / 8)
include hin hbase hmod

/-- What the executor does with sizes. -/
theorem modexp_eq :
    modexp powm input =
      if modLength input = 0 ∧ baseLength input = 0 then .ok (true, [])
      else if expLength input ≤ sizeMax / 8 then
        .ok (true, toBigEndian (modLength input)
          (if modulus input ≠ 0 then powm (base input) (exponent input) (modulus input) else 0))
      else .error (.assertion "expLength <= numeric_limits<size_t>::max() / 8") := by
  have hbaseLength : parseBigEndianRightPadded input 0 32 = .ok (baseLength input) :=
    parse_short hin _ le_rfl
  have hexpLength : parseBigEndianRightPadded input 32 32 = .ok (expLength input) :=
    parse_short hin _ le_rfl
  have hmodLength : parseBigEndianRightPadded input 64 32 = .ok (modLength input) :=
    parse_short hin _ le_rfl
  have hsize : modLength input ≤ sizeMax := hmod.trans (Nat.div_le_self _ _)
  rw [modexp, hbaseLength, ok_bind, hexpLength, ok_bind, hmodLength, ok_bind, assert, if_pos hmod,
    ok_bind, assert, if_pos hbase, ok_bind]
  split
  case isTrue hzero => rfl
  case isFalse hzero =>
    rw [assert]
    split
    case isTrue hexp =>
      rw [ok_bind, parse_eq hin _ hbase, ok_bind, parse_eq hin _ hexp, ok_bind,
        parse_eq hin _ hmod, ok_bind]
      dsimp only
      rw [toSize, if_pos hsize, ok_bind]
      rfl
    case isFalse hexp => rfl

/-- The executor gives the power exactly when the length of the exponent passes. -/
theorem executes_iff (hpowm : ∀ b e m, m ≠ 0 → powm b e m = b ^ e % m) :
    (∃ out, modexp powm input = .ok (true, out) ∧ Output input out) ↔ Sized input := by
  rw [modexp_eq hin hbase hmod]
  unfold Sized
  by_cases hzero : modLength input = 0 ∧ baseLength input = 0
  · rw [if_pos hzero]
    exact ⟨fun _ => .inr hzero, fun _ => ⟨[], rfl, output_nil hzero.1⟩⟩
  · rw [if_neg hzero]
    by_cases hexp : expLength input ≤ sizeMax / 8
    · rw [if_pos hexp]
      refine ⟨fun _ => .inl hexp, fun _ => ⟨_, rfl, output_toBigEndian ?_⟩⟩
      by_cases h0 : modulus input = 0
      · rw [if_neg (not_not_intro h0), if_pos h0]
      · rw [if_pos h0, if_neg h0, hpowm _ _ _ h0]
    · rw [if_neg hexp]
      refine ⟨fun hok => ?_, fun hs => absurd hs (not_or_intro hexp hzero)⟩
      obtain ⟨_, hok, -⟩ := hok
      cases hok

end Executor

/-- The contract is priced as the EIP says, and does what it says. -/
def Exact (powm : ℕ → ℕ → ℕ → ℕ) (input : Bytes) : Prop :=
  modexpPrice input = .ok (price input) ∧
    ∃ out, modexp powm input = .ok (true, out) ∧ Output input out

/-- **Below a price of 2^63 the executor gives the power, and no assertion fails, exactly when the
length of the exponent is a size too, or there is neither base nor modulus.** -/
theorem modexp_exact_iff {powm : ℕ → ℕ → ℕ → ℕ} {input : Bytes}
    (hpowm : ∀ b e m, m ≠ 0 → powm b e m = b ^ e % m) (hin : input.length ≤ sizeMax) {g : ℤ}
    (hprice : modexpPrice input = .ok g) (hg : g ≤ 2 ^ 63 - 1) :
    Exact powm input ↔ Sized input := by
  have hexact := modexpPrice_eq hin
  cases hprice.symm.trans hexact
  obtain ⟨hbase, hmod⟩ := lengths_le_of_price hg
  rw [Exact, and_iff_right hexact]
  exact executes_iff hin hbase hmod hpowm

/-- `3 ^ 5` modulo `7`, in one byte each. -/
def smallPower : Bytes :=
  toBigEndian 32 1 ++ toBigEndian 32 1 ++ toBigEndian 32 1 ++ [3, 5, 7]

theorem modexp_exact_iff_smallPower : Exact (fun b e m => b ^ e % m) smallPower :=
  (modexp_exact_iff (fun _ _ _ _ => rfl) (by decide) (g := 0) (by decide +kernel) (by decide)).mpr
    (.inl (by decide +kernel))

/-- One byte of base and of modulus, and `2 ^ 61` bytes of exponent. -/
def longExponent : Bytes := toBigEndian 32 1 ++ toBigEndian 32 (2 ^ 61) ++ toBigEndian 32 1

/-- The price of an exponent that is too long is payable. -/
theorem longExponent_asserts :
    modexpPrice longExponent = .ok 922337203685477568 ∧ (922337203685477568 : ℤ) ≤ 2 ^ 63 - 1 ∧
      modexp (fun b e m => b ^ e % m) longExponent =
        .error (.assertion "expLength <= numeric_limits<size_t>::max() / 8") := by
  decide +kernel

/-- **A call that no block can pay more gas for runs out of gas or gives the power.** -/
theorem callPrecompiled_of_sized {powm : ℕ → ℕ → ℕ → ℕ} {data : Bytes} {gas : U256}
    (hpowm : ∀ b e m, m ≠ 0 → powm b e m = b ^ e % m) (hdata : data.length ≤ sizeMax)
    (hgas : gas.toNat ≤ 2 ^ 63 - 1) (hs : Sized data) :
    callPrecompiled modexpPrice (modexp powm) gas data = .ok .outOfGasBase ∧
        gas.toNat < price data ∨
      ∃ out, Output data out ∧ callPrecompiled modexpPrice (modexp powm) gas data =
        .ok (.finished (BitVec.ofInt 256 (gas.toNat - price data)) out) := by
  unfold callPrecompiled
  rw [modexpPrice_eq hdata, ok_bind]
  by_cases hlow : gas.toNat < price data
  · rw [if_pos hlow]
    exact .inl ⟨rfl, hlow⟩
  · have hprice : price data ≤ 2 ^ 63 - 1 := by omega
    obtain ⟨hbase, hmod⟩ := lengths_le_of_price hprice
    obtain ⟨out, hout, hpower⟩ := (executes_iff hdata hbase hmod hpowm).mpr hs
    rw [if_neg hlow, hout, ok_bind]
    exact .inr ⟨out, hpower, rfl⟩

end Aleth.Ethcore
