import Aleth.Ethcore.HeaderCodec
import Aleth.Ethcore.SealEngine

/-! A header that is derived from its parent, against the checks of `verify`.

The gas limit passes whenever the one of the parent was checked. The difficulty
passes its check as it is computed twice by one function; it is the formula of
the fork, as unbounded integers, unless a sum before Homestead leaves a word or
the child is the first block whose number leaves 32 bits (`Fits`). -/
namespace Aleth.Ethcore
open Devcore

/-! ### The formulas, unbounded -/

namespace Formula
variable (p : ChainOperationParams) (h parent : BlockHeader)

def number : ℤ := parent.m_number.toInt + 1

def elapsed : ℤ := h.m_timestamp.toInt - parent.m_timestamp.toInt

def step : ℤ := parent.m_difficulty.toNat / p.difficultyBoundDivisor.toNat

/-- The adjustment of the fork. -/
def adjusted [Sha3] : ℤ :=
  if number parent < p.homesteadForkBlock.toNat then
    if p.durationLimit.toNat ≤ elapsed h parent then parent.m_difficulty.toNat - step p parent
    else parent.m_difficulty.toNat + step p parent
  else if number parent < p.byzantiumForkBlock.toNat then
    parent.m_difficulty.toNat +
      parent.m_difficulty.toNat / 2048 * max (1 - elapsed h parent / 10) (-99)
  else
    parent.m_difficulty.toNat + parent.m_difficulty.toNat / 2048 *
      max ((if parent.hasUncles then 2 else 1) - elapsed h parent / 9) (-99)

/-- The number that the ice age goes by, after the delay of the fork. -/
def iceAge : ℤ :=
  if p.constantinopleForkBlock.toNat ≤ number parent then max 0 (number parent - 5000000)
  else if p.byzantiumForkBlock.toNat ≤ number parent then max 0 (number parent - 3000000)
  else number parent

def bomb : ℤ :=
  if 1 < iceAge p parent / 100000 then 2 ^ (iceAge p parent / 100000 - 2).toNat else 0

/-- What a difficulty is clipped to. -/
def clip (x : ℤ) : ℤ := min (max p.minimumDifficulty.toNat x) (2 ^ 256 - 1)

def difficulty [Sha3] : ℤ := clip p (adjusted p h parent + bomb p parent)

/-- The gas floor. -/
def floor : ℤ := 3141562

def gasStep : ℤ := parent.m_gasLimit.toNat / p.gasLimitBoundDivisor.toNat

end Formula

open Formula

/-- The bounds of a chain, around the gas floor. -/
structure ChainOperationParams.Usual (p : ChainOperationParams) : Prop where
  min_le : (p.minGasLimit.toNat : ℤ) ≤ floor
  le_max : floor ≤ p.maxGasLimit.toNat
  max_lt : p.maxGasLimit.toNat ≤ 2 ^ 63 - 1
  one_le : 1 ≤ p.minGasLimit.toNat / p.gasLimitBoundDivisor.toNat

/-- No signed number of a header is negative. -/
structure BlockHeader.Signless (h : BlockHeader) : Prop where
  number : 0 ≤ h.m_number.toInt
  timestamp : 0 ≤ h.m_timestamp.toInt

/-- The checks of `verify` on gas limit and difficulty, and the formula. -/
structure Derived [Sha3] (p : ChainOperationParams) (parent h : BlockHeader) : Prop where
  minimum : checkMinimumDifficulty p h = .ok ()
  gasLimit : checkGasLimit p h = .ok ()
  gasLimitOfParent : checkGasLimitOfParent p h parent = .ok ()
  difficulty : checkDifficulty p h parent = .ok ()
  formula : (h.m_difficulty.toNat : ℤ) = Formula.difficulty p h parent

/-- The engine fills in a header, and that one passes. -/
def Derives [Sha3] (populate : ChainOperationParams → BlockHeader → BlockHeader →
    Except SealException BlockHeader) (p : ChainOperationParams) (h parent : BlockHeader) : Prop :=
  ∃ h', populate p h parent = .ok h' ∧ Derived p parent h'

/-! ### The condition -/

variable (p : ChainOperationParams) (h parent : BlockHeader)

/-- The gas limit of the parent is near enough to the bounds. -/
def GasFits : Prop :=
  parent.m_gasLimit.toNat < floor ∧
      p.minGasLimit.toNat < parent.m_gasLimit.toNat + gasStep p parent ∨
    floor ≤ parent.m_gasLimit.toNat ∧
      parent.m_gasLimit.toNat - gasStep p parent < p.maxGasLimit.toNat ∧
      floor < (parent.m_gasLimit.toNat + gasStep p parent) % 2 ^ 256

/-- The comparison of the timestamps as words. -/
def Slow : Prop :=
  (parent.m_timestamp.toInt + p.durationLimit.toNat) % 2 ^ 256 ≤ h.m_timestamp.toInt

instance : Decidable (Slow p h parent) := inferInstanceAs (Decidable (_ ≤ _))

/-- Before Homestead the sums stay words, or what is lost does not show after clipping. -/
def FrontierFits : Prop :=
  p.difficultyBoundDivisor ≠ 0 ∧ (p.minimumDifficulty.toNat = 2 ^ 256 - 1 ∨
    if number parent = 2 ^ 32 then
      if Slow p h parent then 2 ^ 256 - 1 ≤ parent.m_difficulty.toNat - step p parent
      else parent.m_difficulty.toNat + step p parent = 2 ^ 256 - 1
    else if Slow p h parent then
      p.durationLimit.toNat ≤ elapsed h parent ∨ step p parent = 0 ∨
        2 ^ 256 - 1 ≤ parent.m_difficulty.toNat - step p parent + bomb p parent ∨
        parent.m_difficulty.toNat + step p parent + bomb p parent ≤ p.minimumDifficulty.toNat
    else
      parent.m_difficulty.toNat + step p parent < 2 ^ 256 ∨
        2 * 2 ^ 256 - 1 ≤ parent.m_difficulty.toNat + step p parent + bomb p parent)

/-- From Homestead on only the number of the ice age is cut, at `2 ^ 32`. -/
def DifficultyFits [Sha3] : Prop :=
  if number parent < p.homesteadForkBlock.toNat then FrontierFits p h parent
  else number parent < 2 ^ 32 ∨ p.minimumDifficulty.toNat = 2 ^ 256 - 1 ∨
    2 ^ 256 - 1 ≤ adjusted p h parent

def Fits [Sha3] : Prop := GasFits p parent ∧ DifficultyFits p h parent

/-! ### Words and integers -/

/-- The Frontier adjustment, as it is computed. -/
def wordTarget : ℤ :=
  if Slow p h parent then parent.m_difficulty.toNat - step p parent
  else (parent.m_difficulty.toNat + step p parent) % 2 ^ 256

/-- What the ice age adds, with a number of 32 bits. -/
def wordBomb : ℤ := if number parent = 2 ^ 32 then 0 else bomb p parent

variable {p} {h} {parent}

/-- A header that was read is so. -/
theorem BlockHeader.Populated.signless {v : RLPView} (hp : BlockHeader.Populated v h) :
    h.Signless := by
  have hread : ∀ {i : ℕ} {x : I64}, (RLPView.item v i >>= toPositiveInt64) = .ok x →
      0 ≤ x.toInt := by
    intro i x hx
    obtain ⟨w, -, hw⟩ := bind_eq_ok.mp hx
    obtain ⟨n, -, hn⟩ := bind_eq_ok.mp hw
    split at hn
    · cases hn
    · cases hn
      omega
  exact ⟨hread hp.number, hread hp.timestamp⟩

theorem wide_toNat {i : I64} (hi : 0 ≤ i.toInt) : ((wide i).toNat : ℤ) = i.toInt := by
  have hmsb : i.msb = false := by
    rw [BitVec.msb_eq_toInt]
    simpa using hi
  rw [wide, BitVec.signExtend_eq_setWidth_of_msb_false hmsb, BitVec.toInt_eq_toNat_of_msb hmsb,
    BitVec.toNat_setWidth_of_le (by decide)]

theorem toNat_min (a b : U256) : (min a b).toNat = min a.toNat b.toNat := by
  change (if a ≤ b then a else b).toNat = _
  simp only [BitVec.le_def]
  split <;> omega

theorem toNat_max (a b : U256) : (max a b).toNat = max a.toNat b.toNat := by
  change (if a ≤ b then b else a).toNat = _
  simp only [BitVec.le_def]
  split <;> omega

theorem divide_eq {a b : U256} (hb : b ≠ 0) : divide a b = .ok (a / b) := if_neg hb

/-- What `verify` says of the number of a header. -/
theorem number_of_verify [Sha3] {s : Strictness} {grandparent : BlockHeader}
    (hv : SealEngineFace.verify p s parent grandparent = .ok ()) :
    parent.m_number.toInt ≤ 2 ^ 32 - 1 := by
  by_contra hlt
  rw [SealEngineFace.verify, BlockHeader.verify, if_pos (by omega)] at hv
  cases hv

theorem toInt_number_succ (hs : parent.Signless) (hn : parent.m_number.toInt ≤ 2 ^ 32 - 1) :
    (parent.m_number + 1).toInt = number parent := by
  have h0 := hs.number
  rw [number, BitVec.toInt_add]
  simp only [BitVec.reduceToInt, Int.bmod_def]
  omega

theorem toNat_number_succ (hs : parent.Signless) (hn : parent.m_number.toInt ≤ 2 ^ 32 - 1) :
    ((parent.m_number + 1).toNat : ℤ) = number parent := by
  have h0 := hs.number
  have hsucc := toInt_number_succ hs hn
  rw [number] at *
  rw [BitVec.toInt_eq_toNat_cond] at hsucc
  split at hsucc <;> omega

/-! ### The difficulty -/

theorem iceAge_eq_zero (hs : parent.Signless) (hn : parent.m_number.toInt ≤ 2 ^ 32 - 1)
    (heq : number parent = 2 ^ 32) : exponentialIceAgeBlockNumber p h parent = 0 := by
  have hsucc := toNat_number_succ hs hn
  have hcut : (parent.m_number + 1).toNat % 2 ^ 32 = 0 := by omega
  unfold exponentialIceAgeBlockNumber
  rw [hcut]
  simp

section Difficulty
variable (hs : parent.Signless) (hn : parent.m_number.toInt ≤ 2 ^ 32 - 1)
  (hh : h.m_number = parent.m_number + 1)

include hs hn hh

theorem toNat_wide_number : ((wide h.m_number).toNat : ℤ) = number parent := by
  have h0 := hs.number
  have hsucc := toInt_number_succ hs hn
  rw [hh, wide_toNat, hsucc]
  rw [hsucc, number]
  omega

theorem wide_number_lt {fork : U256} :
    wide h.m_number < fork ↔ number parent < fork.toNat := by
  have hwide := toNat_wide_number hs hn hh
  rw [BitVec.lt_def]
  omega

theorem le_wide_number {fork : U256} :
    fork ≤ wide h.m_number ↔ (fork.toNat : ℤ) ≤ number parent := by
  have hwide := toNat_wide_number hs hn hh
  rw [BitVec.le_def]
  omega

theorem iceAge_eq (hlt : number parent < 2 ^ 32) :
    (exponentialIceAgeBlockNumber p h parent : ℤ) = iceAge p parent := by
  have h0 := hs.number
  have hsucc := toNat_number_succ hs hn
  unfold exponentialIceAgeBlockNumber iceAge
  simp only [le_wide_number hs hn hh]
  rw [Nat.mod_eq_of_lt (by omega)]
  split_ifs <;> omega

end Difficulty

/-- The first block whose number leaves 32 bits is far in the ice age. -/
theorem bomb_huge (heq : number parent = 2 ^ 32) : 2 ^ 256 ≤ bomb p parent := by
  have hage : 4200000000 ≤ iceAge p parent := by
    unfold iceAge
    split_ifs <;> omega
  rw [bomb, if_pos (by omega)]
  have hpow : 2 ^ 256 ≤ 2 ^ (iceAge p parent / 100000 - 2).toNat :=
    Nat.pow_le_pow_right (by decide) (by omega)
  exact_mod_cast hpow

theorem bomb_nonneg : 0 ≤ bomb p parent := by
  unfold bomb
  split_ifs
  · positivity
  · exact le_refl 0

theorem step_nonneg : 0 ≤ step p parent := by
  unfold step
  positivity

theorem step_le : step p parent ≤ parent.m_difficulty.toNat := by
  unfold step
  exact_mod_cast Nat.div_le_self _ _

theorem adjusted_nonneg [Sha3] : 0 ≤ adjusted p h parent := by
  have hstep := @step_nonneg p parent
  have hle := @step_le p parent
  have hscale : ∀ f : ℤ, -99 ≤ f →
      0 ≤ (parent.m_difficulty.toNat : ℤ) + parent.m_difficulty.toNat / 2048 * f := by
    intro f hf
    have hmul : (parent.m_difficulty.toNat / 2048 : ℤ) * (-99) ≤
        parent.m_difficulty.toNat / 2048 * f := mul_le_mul_of_nonneg_left hf (by positivity)
    omega
  unfold adjusted
  split_ifs
  · omega
  · omega
  · exact hscale _ (le_max_right _ _)
  · exact hscale _ (le_max_right _ _)
  · exact hscale _ (le_max_right _ _)

theorem frontierTarget_eq (hs : parent.Signless)
    (ht : parent.m_timestamp.toInt < h.m_timestamp.toInt) (hdiv : p.difficultyBoundDivisor ≠ 0) :
    frontierTarget p h parent = .ok (wordTarget p h parent) := by
  have hslow : wide parent.m_timestamp + p.durationLimit ≤ wide h.m_timestamp ↔
      Slow p h parent := by
    have h0 := hs.timestamp
    have hp := wide_toNat h0
    have hc := wide_toNat (h0.trans ht.le)
    rw [Slow, BitVec.le_def, BitVec.toNat_add]
    omega
  have hq : ((parent.m_difficulty / p.difficultyBoundDivisor).toNat : ℤ) = step p parent := by
    rw [BitVec.toNat_udiv, step, Int.natCast_div]
  have hle := @step_le p parent
  rw [frontierTarget, divide_eq hdiv, RLPView.ok_bind, wordTarget]
  simp only [hslow]
  split
  · rw [BitVec.toNat_sub_of_le (by rw [BitVec.le_def]; omega)]
    exact congrArg Except.ok (by omega)
  · rw [BitVec.toNat_add]
    exact congrArg Except.ok (by omega)

theorem homesteadTarget_eq [Sha3] (hs : parent.Signless)
    (hn : parent.m_number.toInt ≤ 2 ^ 32 - 1) (hh : h.m_number = parent.m_number + 1)
    (ht : parent.m_timestamp.toInt < h.m_timestamp.toInt)
    (hfork : ¬number parent < p.homesteadForkBlock.toNat) :
    homesteadTarget p h parent = adjusted p h parent := by
  have helapsed : 0 ≤ h.m_timestamp.toInt - parent.m_timestamp.toInt := by omega
  rw [homesteadTarget, adjusted, if_neg hfork, BitVec.toNat_udiv, Int.natCast_div]
  simp only [wide_number_lt hs hn hh, elapsed, Int.tdiv_eq_ediv_of_nonneg helapsed]
  split_ifs <;> rfl

theorem bomb_word (hs : parent.Signless) (hn : parent.m_number.toInt ≤ 2 ^ 32 - 1)
    (hh : h.m_number = parent.m_number + 1) (t : ℤ) :
    (if 1 < exponentialIceAgeBlockNumber p h parent / c_expDiffPeriod then
      t + 2 ^ (exponentialIceAgeBlockNumber p h parent / c_expDiffPeriod - 2) else t) =
      t + wordBomb p parent := by
  unfold wordBomb c_expDiffPeriod
  by_cases heq : number parent = 2 ^ 32
  · rw [if_pos heq, iceAge_eq_zero hs hn heq]
    simp
  · have hlt : number parent < 2 ^ 32 := by
      unfold number at *
      omega
    have hage := iceAge_eq hs hn hh (p := p) hlt
    rw [if_neg heq, bomb, ← hage]
    split_ifs with h1 h2 h2
    · congr 2
      omega
    · omega
    · omega
    · rw [add_zero]

theorem toNat_clip (x : ℤ) :
    ((BitVec.ofInt 256 (clip p x)).toNat : ℤ) = clip p x := by
  have hmin := p.minimumDifficulty.isLt
  rw [BitVec.toNat_ofInt]
  unfold clip
  omega

theorem number_ne_zero (hs : parent.Signless) (hn : parent.m_number.toInt ≤ 2 ^ 32 - 1)
    (hh : h.m_number = parent.m_number + 1) : h.m_number ≠ 0 := by
  intro h0
  have hsucc := toInt_number_succ hs hn
  have hs := hs.number
  rw [← hh, h0, number] at hsucc
  simp at hsucc
  omega

/-- What is computed: the target and the ice age, clipped. -/
theorem calculate_eq [Sha3] {t : ℤ} (hs : parent.Signless)
    (hn : parent.m_number.toInt ≤ 2 ^ 32 - 1) (hh : h.m_number = parent.m_number + 1)
    (ht : (if wide h.m_number < p.homesteadForkBlock then frontierTarget p h parent
      else .ok (homesteadTarget p h parent)) = .ok t) :
    calculateEthashDifficulty p h parent =
      .ok (BitVec.ofInt 256 (clip p (t + wordBomb p parent))) := by
  have hclip := congrArg
    (fun x => (Except.ok (BitVec.ofInt 256 (clip p x)) : Except SealException U256))
    (bomb_word hs hn hh (p := p) t)
  unfold calculateEthashDifficulty
  rw [if_neg (number_ne_zero hs hn hh)]
  split at ht
  case isTrue hfork =>
    rw [if_pos hfork, ht]
    exact hclip
  case isFalse hfork =>
    rw [if_neg hfork, ht]
    exact hclip

/-- Slow as integers, slow as words. -/
theorem slow_of_elapsed (hs : parent.Signless)
    (ht : parent.m_timestamp.toInt < h.m_timestamp.toInt)
    (hdl : p.durationLimit.toNat ≤ elapsed h parent) : Slow p h parent := by
  have h0 := hs.timestamp
  have hlt := h.m_timestamp.toInt_lt
  unfold elapsed at hdl
  unfold Slow
  omega

theorem clip_eq_max {x : ℤ} :
    clip p x = 2 ^ 256 - 1 ↔ p.minimumDifficulty.toNat = 2 ^ 256 - 1 ∨ 2 ^ 256 - 1 ≤ x := by
  have hmin := p.minimumDifficulty.isLt
  unfold clip
  omega

/-- The formula at the first number that leaves 32 bits. -/
theorem difficulty_of_leaves [Sha3] (heq : number parent = 2 ^ 32) :
    difficulty p h parent = 2 ^ 256 - 1 := by
  have hbomb := bomb_huge (p := p) heq
  have hadj := @adjusted_nonneg p h parent _
  exact clip_eq_max.mpr (.inr (by omega))

theorem frontier_iff [Sha3] (hs : parent.Signless)
    (ht : parent.m_timestamp.toInt < h.m_timestamp.toInt)
    (hfork : number parent < p.homesteadForkBlock.toNat) (hdiv : p.difficultyBoundDivisor ≠ 0) :
    clip p (wordTarget p h parent + wordBomb p parent) = difficulty p h parent ↔
      FrontierFits p h parent := by
  have hd := parent.m_difficulty.isLt
  have hstep := @step_nonneg p parent
  have hle := @step_le p parent
  rw [FrontierFits, and_iff_right hdiv, wordBomb]
  by_cases heq : number parent = 2 ^ 32
  · rw [if_pos heq, if_pos heq, add_zero, difficulty_of_leaves heq, clip_eq_max, wordTarget]
    split_ifs <;> omega
  · have hbomb := @bomb_nonneg p parent
    have hslow := slow_of_elapsed (p := p) hs ht
    have hmin := p.minimumDifficulty.isLt
    rw [if_neg heq, if_neg heq, difficulty, adjusted, if_pos hfork, wordTarget]
    unfold clip
    by_cases hw : Slow p h parent
    · simp only [if_pos hw]
      split_ifs <;> omega
    · rw [if_neg hw, if_neg hw, if_neg (mt hslow hw)]
      omega

/-- The difficulty that is computed is the formula. -/
theorem calculate_iff [Sha3] (hs : parent.Signless) (hn : parent.m_number.toInt ≤ 2 ^ 32 - 1)
    (hh : h.m_number = parent.m_number + 1)
    (ht : parent.m_timestamp.toInt < h.m_timestamp.toInt) :
    (∃ v, calculateEthashDifficulty p h parent = .ok v ∧
      (v.toNat : ℤ) = difficulty p h parent) ↔ DifficultyFits p h parent := by
  have hfork : wide h.m_number < p.homesteadForkBlock ↔
      number parent < p.homesteadForkBlock.toNat := wide_number_lt hs hn hh
  unfold DifficultyFits
  by_cases hf : number parent < p.homesteadForkBlock.toNat
  · rw [if_pos hf]
    by_cases hdiv : p.difficultyBoundDivisor = 0
    · have hthrow : calculateEthashDifficulty p h parent = .error .divisionByZero := by
        rw [calculateEthashDifficulty, if_neg (number_ne_zero hs hn hh), if_pos (hfork.mpr hf),
          frontierTarget, hdiv]
        rfl
      refine ⟨fun hv => ?_, fun hfits => absurd hdiv hfits.1⟩
      obtain ⟨v, hv, -⟩ := hv
      rw [hthrow] at hv
      cases hv
    · rw [calculate_eq hs hn hh (by rw [if_pos (hfork.mpr hf), frontierTarget_eq hs ht hdiv]),
        ← frontier_iff hs ht hf hdiv]
      simp only [Except.ok.injEq, exists_eq_left', toNat_clip]
  · rw [if_neg hf, calculate_eq hs hn hh (by rw [if_neg (mt hfork.mp hf)]),
      homesteadTarget_eq hs hn hh ht hf]
    have hadj := @adjusted_nonneg p h parent _
    simp only [Except.ok.injEq, exists_eq_left', toNat_clip]
    by_cases heq : number parent = 2 ^ 32
    · rw [difficulty_of_leaves heq, wordBomb, if_pos heq, add_zero, clip_eq_max]
      omega
    · have hlt : number parent < 2 ^ 32 := by
        unfold number at *
        omega
      rw [wordBomb, if_neg heq]
      exact ⟨fun _ => .inl hlt, fun _ => rfl⟩

/-! ### The gas limit -/

/-- The gas limit that is computed for a block without gas used. -/
def childGasLimit (p : ChainOperationParams) (parent : BlockHeader) : ℤ :=
  if parent.m_gasLimit.toNat < floor then
    min floor ((parent.m_gasLimit.toNat + gasStep p parent - 1) % 2 ^ 256)
  else max floor (parent.m_gasLimit.toNat - gasStep p parent + 1)

/-- The bounds that `verify` checks a gas limit against. -/
structure Bounded (p : ChainOperationParams) (parent : BlockHeader) (g : ℤ) : Prop where
  min_le : p.minGasLimit.toNat ≤ g
  le_max : g ≤ p.maxGasLimit.toNat
  lower : parent.m_gasLimit.toNat - gasStep p parent < g
  upper : g < (parent.m_gasLimit.toNat + gasStep p parent) % 2 ^ 256

theorem toNat_gasStep :
    ((parent.m_gasLimit / p.gasLimitBoundDivisor).toNat : ℤ) = gasStep p parent := by
  rw [BitVec.toNat_udiv, gasStep, Int.natCast_div]

theorem gasStep_nonneg : 0 ≤ gasStep p parent := by
  unfold gasStep
  positivity

theorem gasStep_le : gasStep p parent ≤ parent.m_gasLimit.toNat := by
  unfold gasStep
  exact_mod_cast Nat.div_le_self _ _

section Usual
variable (hp : p.Usual)
include hp

theorem ChainOperationParams.Usual.divisor_pos : 0 < p.gasLimitBoundDivisor.toNat := by
  by_contra hz
  have hone := hp.one_le
  rw [Nat.eq_zero_of_not_pos hz, Nat.div_zero] at hone
  omega

theorem ChainOperationParams.Usual.divisor_le :
    p.gasLimitBoundDivisor.toNat ≤ p.minGasLimit.toNat :=
  le_of_not_gt fun hlt => by
    have hone := hp.one_le
    rw [Nat.div_eq_of_lt hlt] at hone
    omega

theorem ChainOperationParams.Usual.divisor_ne_zero : p.gasLimitBoundDivisor ≠ 0 := fun h0 => by
  have hpos := hp.divisor_pos
  rw [h0] at hpos
  exact absurd hpos (by decide)

/-- A gas limit as large as the divisor moves. -/
theorem one_le_gasStep (hle : p.gasLimitBoundDivisor.toNat ≤ parent.m_gasLimit.toNat) :
    1 ≤ gasStep p parent := by
  have hdiv := Nat.div_pos hle hp.divisor_pos
  unfold gasStep
  exact_mod_cast hdiv

/-- The step is all of the gas limit, or at most half of it. -/
theorem gasStep_cases :
    gasStep p parent = parent.m_gasLimit.toNat ∨
      2 * gasStep p parent ≤ parent.m_gasLimit.toNat := by
  have hpos := hp.divisor_pos
  rcases Nat.lt_or_ge 1 p.gasLimitBoundDivisor.toNat with htwo | hone
  · right
    have hmul := Nat.div_mul_le_self parent.m_gasLimit.toNat p.gasLimitBoundDivisor.toNat
    have hscale := Nat.mul_le_mul_left
      (parent.m_gasLimit.toNat / p.gasLimitBoundDivisor.toNat) htwo
    unfold gasStep
    omega
  · left
    have heq : p.gasLimitBoundDivisor.toNat = 1 := by omega
    unfold gasStep
    rw [heq]
    simp

theorem calculateGasLimit_eq (hused : h.m_gasUsed = 0) (hg : h.m_gasLimit = parent.m_gasLimit) :
    ∃ v, calculateGasLimit p h Invalid256 = .ok v ∧ (v.toNat : ℤ) = childGasLimit p parent := by
  have hq := @toNat_gasStep p parent
  have hle := @gasStep_le p parent
  have hstep : p.gasLimitBoundDivisor.toNat ≤ parent.m_gasLimit.toNat → 1 ≤ gasStep p parent :=
    one_le_gasStep hp
  have hmin := hp.min_le
  have hdiv := hp.divisor_le
  have hfloor : floor = 3141562 := rfl
  have hw := parent.m_gasLimit.isLt
  have hlt : parent.m_gasLimit < (3141562 : U256) ↔ (parent.m_gasLimit.toNat : ℤ) < floor := by
    rw [BitVec.lt_def, hfloor]
    simp only [BitVec.reduceToNat]
    omega
  have hzero : (0 : U256) * 6 / 5 / p.gasLimitBoundDivisor = 0 := by simp
  unfold calculateGasLimit childGasLimit
  rw [if_pos rfl, hg, hused, divide_eq hp.divisor_ne_zero]
  by_cases hlow : parent.m_gasLimit < (3141562 : U256)
  · rw [if_pos (hlt.mp hlow)]
    refine ⟨min 3141562 (parent.m_gasLimit + parent.m_gasLimit / p.gasLimitBoundDivisor - 1),
      if_pos hlow, ?_⟩
    have hsum : ((parent.m_gasLimit + parent.m_gasLimit / p.gasLimitBoundDivisor - 1).toNat : ℤ) =
        (parent.m_gasLimit.toNat + gasStep p parent - 1) % 2 ^ 256 := by
      rw [BitVec.toNat_sub, BitVec.toNat_add]
      simp only [BitVec.reduceToNat]
      omega
    rw [toNat_min, ← hsum, hfloor]
    simp
  · rw [if_neg (mt hlt.mpr hlow)]
    rw [divide_eq hp.divisor_ne_zero, hzero]
    refine ⟨max 3141562 (parent.m_gasLimit - parent.m_gasLimit / p.gasLimitBoundDivisor + 1 + 0),
      if_neg hlow, ?_⟩
    have hsum : ((parent.m_gasLimit - parent.m_gasLimit / p.gasLimitBoundDivisor + 1 + 0).toNat
        : ℤ) = parent.m_gasLimit.toNat - gasStep p parent + 1 := by
      have hlow := mt hlt.mpr hlow
      rw [BitVec.toNat_add, BitVec.toNat_add, BitVec.toNat_sub]
      simp only [BitVec.reduceToNat]
      omega
    rw [toNat_max, ← hsum, hfloor]
    simp

/-- The computed gas limit is within the bounds. -/
theorem bounded_iff : Bounded p parent (childGasLimit p parent) ↔ GasFits p parent := by
  have hmin := hp.min_le
  have hmax := hp.le_max
  have hlt := hp.max_lt
  have hdiv := hp.divisor_le
  have hstep : p.gasLimitBoundDivisor.toNat ≤ parent.m_gasLimit.toNat → 1 ≤ gasStep p parent :=
    one_le_gasStep hp
  have h0 := @gasStep_nonneg p parent
  have hle := @gasStep_le p parent
  have hcases : gasStep p parent = parent.m_gasLimit.toNat ∨
      2 * gasStep p parent ≤ parent.m_gasLimit.toNat := gasStep_cases hp
  have hw := parent.m_gasLimit.isLt
  have hfloor : floor = 3141562 := rfl
  unfold GasFits childGasLimit
  by_cases hlow : parent.m_gasLimit.toNat < floor
  · rw [if_pos hlow]
    refine ⟨fun hb => ?_, fun hfits => ⟨?_, ?_, ?_, ?_⟩⟩
    · have h1 := hb.min_le
      have h2 := hb.upper
      omega
    all_goals omega
  · rw [if_neg hlow]
    refine ⟨fun hb => ?_, fun hfits => ⟨?_, ?_, ?_, ?_⟩⟩
    · have h1 := hb.le_max
      have h2 := hb.upper
      omega
    all_goals omega

end Usual

/-! ### The checks -/

theorem checkMinimumDifficulty_ok :
    checkMinimumDifficulty p h = .ok () ↔ p.minimumDifficulty.toNat ≤ h.m_difficulty.toNat := by
  unfold checkMinimumDifficulty
  rw [← not_lt, ← BitVec.lt_def]
  split <;> simp_all

theorem checkGasLimit_ok :
    checkGasLimit p h = .ok () ↔ p.minGasLimit.toNat ≤ h.m_gasLimit.toNat ∧
      h.m_gasLimit.toNat ≤ p.maxGasLimit.toNat := by
  unfold checkGasLimit
  rw [← not_lt, ← not_lt, ← BitVec.lt_def, ← BitVec.lt_def]
  split_ifs <;> simp_all

theorem checkGasLimitOfParent_ok (hp : p.Usual) :
    checkGasLimitOfParent p h parent = .ok () ↔ Bounded p parent h.m_gasLimit.toNat := by
  have hq := @toNat_gasStep p parent
  have hle := @gasStep_le p parent
  have hsub : ((parent.m_gasLimit - parent.m_gasLimit / p.gasLimitBoundDivisor).toNat : ℤ) =
      parent.m_gasLimit.toNat - gasStep p parent := by
    rw [BitVec.toNat_sub]
    omega
  have hadd : ((parent.m_gasLimit + parent.m_gasLimit / p.gasLimitBoundDivisor).toNat : ℤ) =
      (parent.m_gasLimit.toNat + gasStep p parent) % 2 ^ 256 := by
    rw [BitVec.toNat_add]
    omega
  have hbad : (h.m_gasLimit < p.minGasLimit ∨ p.maxGasLimit < h.m_gasLimit ∨
      h.m_gasLimit ≤ parent.m_gasLimit - parent.m_gasLimit / p.gasLimitBoundDivisor ∨
      parent.m_gasLimit + parent.m_gasLimit / p.gasLimitBoundDivisor ≤ h.m_gasLimit) ↔
      ¬Bounded p parent h.m_gasLimit.toNat := by
    rw [BitVec.lt_def, BitVec.lt_def, BitVec.le_def, BitVec.le_def]
    refine ⟨fun hb hok => ?_, fun hnot => ?_⟩
    · obtain ⟨h1, h2, h3, h4⟩ := hok
      omega
    · by_contra hb
      exact hnot ⟨by omega, by omega, by omega, by omega⟩
  rw [checkGasLimitOfParent, divide_eq hp.divisor_ne_zero, RLPView.ok_bind]
  by_cases hok : Bounded p parent h.m_gasLimit.toNat
  · rw [if_neg (mt hbad.mp (not_not_intro hok))]
    exact ⟨fun _ => hok, fun _ => rfl⟩
  · rw [if_pos (hbad.mpr hok)]
    exact ⟨fun herr => (nomatch herr), fun hb => absurd hb hok⟩

/-- What was checked of a header that passed. -/
theorem SealEngineFace.verify_ok [Sha3] {s : Strictness}
    (hv : SealEngineFace.verify p s h parent = .ok ()) :
    (s ≠ .checkNothingNew → checkGasLimit p h = .ok ()) ∧
      (parent.isHeader → checkGasLimitOfParent p h parent = .ok ()) := by
  unfold SealEngineFace.verify at hv
  obtain ⟨_, -, hv⟩ := bind_eq_ok.mp hv
  by_cases hs : s = .checkNothingNew
  · rw [if_neg (not_not_intro hs)] at hv
    refine ⟨fun hne => absurd hs hne, fun hheader => ?_⟩
    rw [if_pos hheader] at hv
    exact hv
  · rw [if_pos hs] at hv
    obtain ⟨_, -, hv⟩ := bind_eq_ok.mp hv
    obtain ⟨_, hgas, hv⟩ := bind_eq_ok.mp hv
    obtain ⟨_, -, hv⟩ := bind_eq_ok.mp hv
    refine ⟨fun _ => hgas, fun hheader => ?_⟩
    rw [if_pos hheader] at hv
    exact hv

/-- A gas limit within the bounds of the chain is near enough. -/
theorem gasFits_of_bounds (hp : p.Usual)
    (hmin : p.minGasLimit.toNat ≤ parent.m_gasLimit.toNat)
    (hmax : parent.m_gasLimit.toNat ≤ p.maxGasLimit.toNat) : GasFits p parent := by
  have hlt := hp.max_lt
  have hstep := one_le_gasStep hp (hp.divisor_le.trans hmin)
  have hle := @gasStep_le p parent
  unfold GasFits
  omega

/-- A gas limit that was checked, against the bounds or against a parent, is near enough. -/
theorem gasFits_of_verify [Sha3] {s : Strictness} {grandparent : BlockHeader} (hp : p.Usual)
    (hchecked : s ≠ .checkNothingNew ∨ grandparent.isHeader = true)
    (hv : SealEngineFace.verify p s parent grandparent = .ok ()) : GasFits p parent := by
  obtain ⟨hgas, hofParent⟩ := SealEngineFace.verify_ok hv
  cases hchecked with
  | inl hs =>
    have hbounds := checkGasLimit_ok.mp (hgas hs)
    exact gasFits_of_bounds hp hbounds.1 hbounds.2
  | inr hheader =>
    have hbounds := (checkGasLimitOfParent_ok hp).mp (hofParent hheader)
    have hmin := hbounds.min_le
    have hmax := hbounds.le_max
    exact gasFits_of_bounds hp (by omega) (by omega)

/-! ### Deriving -/

section Deriving
variable [Sha3]

/-- The header that the engines fill in. -/
def filled (h parent : BlockHeader) (v g : U256) : BlockHeader :=
  ((h.populateFromParent parent).setDifficulty v).setGasLimit g

/-- The difficulty looks at the number and the timestamp of the child. -/
theorem calculate_filled (v g : U256) : calculateEthashDifficulty p (filled h parent v g) parent =
    calculateEthashDifficulty p (h.populateFromParent parent) parent := rfl

theorem difficulty_filled (v g : U256) :
    difficulty p (filled h parent v g) parent = difficulty p h parent := rfl

theorem populateFromParent_ok {h' : BlockHeader} :
    populateFromParent p h parent = .ok h' ↔
      ∃ v g, calculateEthashDifficulty p (h.populateFromParent parent) parent = .ok v ∧
        calculateGasLimit p ((h.populateFromParent parent).setDifficulty v) Invalid256 = .ok g ∧
        h' = filled h parent v g := by
  unfold populateFromParent
  refine ⟨fun hok => ?_, ?_⟩
  · obtain ⟨v, hv, hok⟩ := bind_eq_ok.mp hok
    obtain ⟨g, hg, hok⟩ := bind_eq_ok.mp hok
    cases hok
    exact ⟨v, g, hv, hg, rfl⟩
  · rintro ⟨v, g, hv, hg, rfl⟩
    exact bind_eq_ok.mpr ⟨v, hv, bind_eq_ok.mpr ⟨g, hg, rfl⟩⟩

/-- The check of the difficulty is the same computation again. -/
theorem checkDifficulty_filled {v : U256} (g : U256)
    (hv : calculateEthashDifficulty p (h.populateFromParent parent) parent = .ok v) :
    checkDifficulty p (filled h parent v g) parent = .ok () := by
  rw [checkDifficulty, calculate_filled, hv, RLPView.ok_bind]
  exact if_neg (not_not_intro rfl)

theorem derived_filled {v g : U256} (hp : p.Usual)
    (hv : calculateEthashDifficulty p (h.populateFromParent parent) parent = .ok v) :
    Derived p parent (filled h parent v g) ↔
      Bounded p parent g.toNat ∧ (v.toNat : ℤ) = difficulty p h parent := by
  refine ⟨fun hd => ⟨(checkGasLimitOfParent_ok hp).mp hd.gasLimitOfParent, hd.formula⟩, ?_⟩
  rintro ⟨hb, hformula⟩
  have hmin := hb.min_le
  have hmax := hb.le_max
  exact {
    minimum := by
      have hw := p.minimumDifficulty.isLt
      have hclip : (p.minimumDifficulty.toNat : ℤ) ≤ difficulty p h parent := by
        unfold difficulty clip
        omega
      exact checkMinimumDifficulty_ok.mpr (by change _ ≤ v.toNat; omega)
    gasLimit := checkGasLimit_ok.mpr ⟨Int.ofNat_le.mp hmin, Int.ofNat_le.mp hmax⟩
    gasLimitOfParent := (checkGasLimitOfParent_ok hp).mpr hb
    difficulty := checkDifficulty_filled g hv
    formula := hformula }

/-- One engine. -/
theorem derives_iff_fits (hp : p.Usual) (hs : parent.Signless)
    (hn : parent.m_number.toInt ≤ 2 ^ 32 - 1)
    (ht : parent.m_timestamp.toInt < h.m_timestamp.toInt) :
    Derives populateFromParent p h parent ↔ Fits p h parent := by
  have hdifficulty := calculate_iff (p := p) (h := h.populateFromParent parent) hs hn rfl ht
  unfold Fits
  rw [← bounded_iff hp]
  constructor
  · rintro ⟨h', hok, hd⟩
    obtain ⟨v, g, hv, hg, rfl⟩ := populateFromParent_ok.mp hok
    obtain ⟨hb, hformula⟩ := (derived_filled hp hv).mp hd
    obtain ⟨g', hg', hval⟩ : ∃ g, calculateGasLimit p
        ((h.populateFromParent parent).setDifficulty v) Invalid256 = .ok g ∧
          (g.toNat : ℤ) = childGasLimit p parent :=
      calculateGasLimit_eq hp rfl rfl
    cases hg.symm.trans hg'
    rw [hval] at hb
    exact ⟨hb, hdifficulty.mp ⟨v, hv, hformula⟩⟩
  · rintro ⟨hb, hfits⟩
    obtain ⟨v, hv, hformula⟩ := hdifficulty.mpr hfits
    obtain ⟨g, hg, hval⟩ : ∃ g, calculateGasLimit p ((h.populateFromParent parent).setDifficulty v)
        Invalid256 = .ok g ∧ (g.toNat : ℤ) = childGasLimit p parent :=
      calculateGasLimit_eq hp rfl rfl
    rw [← hval] at hb
    exact ⟨_, populateFromParent_ok.mpr ⟨v, g, hv, hg, rfl⟩,
      (derived_filled hp hv).mpr ⟨hb, hformula⟩⟩

/-- **The header derived from a verified parent passes the checks, and its difficulty is the
formula of the fork, exactly when nothing that shows was cut to a word.** -/
theorem derives_iff {s : Strictness} {grandparent : BlockHeader} (hp : p.Usual)
    (hs : parent.Signless) (hv : SealEngineFace.verify p s parent grandparent = .ok ())
    (ht : parent.m_timestamp.toInt < h.m_timestamp.toInt) :
    Derives Ethash.populateFromParent p h parent ∧ Derives NoProof.populateFromParent p h parent ↔
      Fits p h parent :=
  have hiff := derives_iff_fits hp hs (number_of_verify hv) ht
  ⟨fun hd => hiff.mp hd.1, fun hfits => ⟨hiff.mpr hfits, hiff.mpr hfits⟩⟩

end Deriving

/-- The parameters of a chain before Homestead. -/
def frontierParams : ChainOperationParams where
  maximumExtraDataSize := 32
  minGasLimit := 5000
  maxGasLimit := 0x7fffffffffffffff
  gasLimitBoundDivisor := 1024
  homesteadForkBlock := 1150000
  byzantiumForkBlock := 4370000
  constantinopleForkBlock := 0x7fffffffffffffff
  daoHardforkBlock := 0
  minimumDifficulty := 131072
  difficultyBoundDivisor := 2048
  durationLimit := 13

/-- A parent of any difficulty. -/
def parentOf (d : U256) : BlockHeader :=
  {BlockHeader.empty with
    m_number := 1, m_timestamp := 1, m_gasLimit := 3141562, m_difficulty := d}

/-- A child a second later. -/
def childHeader : BlockHeader := {BlockHeader.empty with m_timestamp := 2}

theorem usual_frontierParams : frontierParams.Usual where
  min_le := by decide
  le_max := by decide
  max_lt := by decide
  one_le := by decide

theorem signless_parentOf (d : U256) : (parentOf d).Signless :=
  ⟨show 0 ≤ (1 : I64).toInt by decide, show 0 ≤ (1 : I64).toInt by decide⟩

theorem derives_iff_sample :
    @Derives BlockHeader.blankSha3 (@Ethash.populateFromParent BlockHeader.blankSha3)
      frontierParams childHeader (parentOf 131072) := by
  have hfits : @Fits frontierParams childHeader (parentOf 131072) BlockHeader.blankSha3 := by
    refine ⟨by unfold GasFits; decide, ?_⟩
    unfold DifficultyFits FrontierFits
    decide
  exact ((@derives_iff frontierParams childHeader (parentOf 131072) BlockHeader.blankSha3
    .checkEverything .empty usual_frontierParams (signless_parentOf _) (by decide +kernel)
    (by decide)).mpr hfits).1

/-- The sum of words starts again. -/
theorem difficulty_wraps :
    frontierParams.Usual ∧ (parentOf Invalid256).Signless ∧
      @SealEngineFace.verify BlockHeader.blankSha3 frontierParams .checkEverything
        (parentOf Invalid256) .empty = .ok () ∧
      (parentOf Invalid256).m_timestamp.toInt < childHeader.m_timestamp.toInt ∧
      ¬@Derives BlockHeader.blankSha3 (@Ethash.populateFromParent BlockHeader.blankSha3)
        frontierParams childHeader (parentOf Invalid256) := by
  refine ⟨usual_frontierParams, signless_parentOf _, by decide +kernel, by decide, fun hd => ?_⟩
  have hfits := (@derives_iff_fits frontierParams childHeader (parentOf Invalid256)
    BlockHeader.blankSha3 usual_frontierParams (signless_parentOf _) (by decide) (by decide)).mp hd
  have hbad :
      ¬@DifficultyFits frontierParams childHeader (parentOf Invalid256) BlockHeader.blankSha3 := by
    unfold DifficultyFits FrontierFits
    decide
  exact hbad hfits.2

end Aleth.Ethcore
