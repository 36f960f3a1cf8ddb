import Aleth.Devcore.Bytes
import Aleth.Devcore.Words
import Aleth.Structure.Loops

/-! The search of `ClientBase::estimateGas`.

The transaction is executed with the gas in the middle of two bounds, which are
moved to it until they meet. What is executed is a parameter: `execute gas` is
the result of `State::execute` with this gas. The bound that is given is never
tried itself, so that its result is not there when no smaller amount of gas is
enough (`search_least_iff`). -/
namespace Aleth.Ethereum
open Devcore

inductive TransactionException where
  | None
  | Unknown
  | BadRLP
  | InvalidFormat
  | OutOfGasIntrinsic
  | InvalidSignature
  | InvalidNonce
  | NotEnoughCash
  | OutOfGasBase
  | BlockGasLimitReached
  | BadInstruction
  | BadJumpDestination
  | OutOfGas
  | OutOfStack
  | StackUnderflow
  | RevertInstruction
  | InvalidZeroSignatureFormat
  | AddressAlreadyUsed
deriving DecidableEq

inductive CodeDeposit where
  | None
  | Failed
  | Success
deriving DecidableEq

structure ExecutionResult where
  gasUsed : U256 := 0
  excepted : TransactionException := .Unknown
  newAddress : Address := 0
  output : Bytes := []
  codeDeposit : CodeDeposit := .None
  gasRefunded : U256 := 0
  depositSize : ℕ := 0
  gasForDeposit : U256 := 0
deriving DecidableEq

namespace ExecutionResult

/-- The results after which the search tries more gas. -/
def lacksGas (er : ExecutionResult) : Bool :=
  er.excepted = .OutOfGas || er.excepted = .OutOfGasBase || er.excepted = .OutOfGasIntrinsic ||
    er.codeDeposit = .Failed || er.excepted = .BadJumpDestination

/-- The result of an execution that did not go through. -/
def failed (er : ExecutionResult) : Bool := er.excepted ≠ .None || er.codeDeposit = .Failed

theorem failed_of_lacksGas {er : ExecutionResult} (h : er.lacksGas = true) : er.failed = true := by
  simp only [lacksGas, Bool.or_eq_true, decide_eq_true_eq] at h
  unfold failed
  rcases h with (((h | h) | h) | h) | h <;> simp [h]

end ExecutionResult

namespace GasEstimate

/-- The variables of the loop. -/
structure Search where
  lowerBound : ℤ
  upperBound : ℤ
  er : ExecutionResult := {}
  lastGood : ExecutionResult := {}
  good : Bool := false
deriving DecidableEq

/-- `(lowerBound + upperBound) / 2`, to zero. -/
def Search.mid (s : Search) : ℤ := (s.lowerBound + s.upperBound).tdiv 2

def Search.open (s : Search) : Bool := s.upperBound ≠ s.lowerBound

section Model
variable (execute : ℤ → ExecutionResult)

/-- The body of the loop. -/
def probe (s : Search) : Search :=
  let er := execute s.mid
  if er.lacksGas then
    {s with er, lowerBound := if s.lowerBound = s.mid then s.upperBound else s.mid}
  else
    {s with
      er
      lastGood := er
      upperBound := if s.upperBound = s.mid then s.lowerBound else s.mid
      good := true}

/-- What is returned after the loop. -/
def Search.result (s : Search) : ℤ × ExecutionResult :=
  (s.upperBound, if s.good then s.lastGood else s.er)

def search (fuel : ℕ) (lowerBound upperBound : ℤ) : Option (ℤ × ExecutionResult) :=
  (Loops.run Search.open (probe execute) fuel {lowerBound, upperBound}).map Search.result

end Model

def c_maxGasEstimate : ℤ := 50000000

/-- `TransactionBase::baseGasRequired` for `EVMSchedule()`. -/
def baseGasRequired (contractCreation : Bool) (data : Bytes) : ℤ :=
  data.foldl (fun g i => g + if i ≠ 0 then 68 else 4) (if contractCreation then 53000 else 21000)

/-- `-1` is what `Invalid256` becomes as an `int64_t`. -/
def upperBoundOf (maxGas : ℤ) : ℤ :=
  if maxGas = -1 ∨ c_maxGasEstimate < maxGas then c_maxGasEstimate else maxGas

def estimateGas (execute : ℤ → ExecutionResult) (fuel : ℕ) (contractCreation : Bool)
    (data : Bytes) (maxGas : ℤ) : Option (ℤ × ExecutionResult) :=
  search execute fuel (baseGasRequired contractCreation data) (upperBoundOf maxGas)

theorem baseGasRequired_nonneg (contractCreation : Bool) (data : Bytes) :
    0 ≤ baseGasRequired contractCreation data := by
  have hfold : ∀ g : ℤ, 0 ≤ g → 0 ≤ data.foldl (fun g i => g + if i ≠ 0 then 68 else 4) g := by
    induction data with
    | nil => exact fun g hg => hg
    | cons i data ih =>
      intro g hg
      refine ih _ ?_
      show 0 ≤ g + if i ≠ 0 then 68 else 4
      split <;> omega
  refine hfold _ ?_
  split <;> decide

/-! ### The middle -/

theorem mid_bounds (s : Search) :
    2 * s.mid ≤ s.lowerBound + s.upperBound + 1 ∧ s.lowerBound + s.upperBound - 1 ≤ 2 * s.mid ∧
      (0 ≤ s.lowerBound + s.upperBound → 2 * s.mid ≤ s.lowerBound + s.upperBound) := by
  have hdiv := Int.mul_tdiv_add_tmod (s.lowerBound + s.upperBound) 2
  have habs := Int.tmod_lt_of_pos (s.lowerBound + s.upperBound) (show (0 : ℤ) < 2 by decide)
  have hlow := Int.lt_tmod_of_pos (s.lowerBound + s.upperBound) (show (0 : ℤ) < 2 by decide)
  have hnonneg : 0 ≤ s.lowerBound + s.upperBound →
      0 ≤ (s.lowerBound + s.upperBound).tmod 2 := fun h => Int.tmod_nonneg 2 h
  unfold Search.mid
  omega

/-! ### The loop -/

section Loop
variable {execute : ℤ → ExecutionResult} {base upper : ℤ} {s : Search}

theorem probe_of_lacks (h : (execute s.mid).lacksGas = true) : probe execute s = {s with
    er := execute s.mid
    lowerBound := if s.lowerBound = s.mid then s.upperBound else s.mid} := by
  rw [probe, if_pos h]

theorem probe_of_enough (h : (execute s.mid).lacksGas = false) : probe execute s = {s with
    er := execute s.mid
    lastGood := execute s.mid
    upperBound := if s.upperBound = s.mid then s.lowerBound else s.mid
    good := true} := by
  rw [probe, if_neg (Bool.eq_false_iff.mp h)]

/-- The distance of the bounds. -/
def Search.variant (s : Search) : ℕ := (s.upperBound - s.lowerBound).natAbs

theorem variant_probe (h : s.open = true) : (probe execute s).variant < s.variant := by
  have hne : s.upperBound ≠ s.lowerBound := of_decide_eq_true h
  have hmid := mid_bounds s
  cases hl : (execute s.mid).lacksGas with
  | true =>
    rw [probe_of_lacks hl]
    unfold Search.variant
    dsimp only
    split <;> omega
  | false =>
    rw [probe_of_enough hl]
    unfold Search.variant
    dsimp only
    split <;> omega

/-- The loop ends, and keeps what a turn keeps. -/
theorem ends {I : Search → Prop} (hprobe : ∀ s, I s → s.open = true → I (probe execute s))
    (h : I s) : ∃ s', Loops.Ends Search.open (probe execute) s s' ∧ I s' ∧
      s'.upperBound = s'.lowerBound := by
  obtain ⟨s', hends, hI, hc⟩ :=
    Loops.ends_of_variant Search.variant (fun s hI hc => ⟨hprobe s hI hc, variant_probe hc⟩) h
  exact ⟨s', hends, hI, not_not.mp (of_decide_eq_false hc)⟩

/-- More gas is never too little when less is enough. -/
def Monotone (execute : ℤ → ExecutionResult) : Prop :=
  ∀ g g', g ≤ g' → (execute g').lacksGas = true → (execute g).lacksGas = true

/-- What holds while the bounds come together from both sides. -/
structure Narrows (execute : ℤ → ExecutionResult) (base upper : ℤ) (s : Search) : Prop where
  base_le : base ≤ s.lowerBound
  le : s.lowerBound ≤ s.upperBound
  le_upper : s.upperBound ≤ upper
  below : ∀ g, base ≤ g → g < s.lowerBound → (execute g).lacksGas = true
  good : s.good = true → s.upperBound < upper ∧ s.lastGood = execute s.upperBound ∧
    (execute s.upperBound).lacksGas = false
  /-- The bound that was given has not been tried. -/
  untried : s.good = false → s.upperBound = upper ∧
    (s.lowerBound = upper → s.er = execute (upper - 1) ∧ s.er.lacksGas = true)

theorem Narrows.probe (hmono : Monotone execute) (hbase : 0 ≤ base) (h : Narrows execute base upper s)
    (hopen : s.open = true) : Narrows execute base upper (probe execute s) := by
  obtain ⟨h1, h2, h3, h4, h5, h6⟩ := h
  have hne : s.upperBound ≠ s.lowerBound := of_decide_eq_true hopen
  have hmid := mid_bounds s
  cases hl : (execute s.mid).lacksGas with
  | true =>
    have hbelow : ∀ g, g ≤ s.mid → (execute g).lacksGas = true := fun g hg => hmono g _ hg hl
    rw [probe_of_lacks hl]
    by_cases hlow : s.lowerBound = s.mid
    · -- the bounds are next to each other
      have hnext : s.upperBound = s.mid + 1 := by omega
      rw [if_pos hlow]
      refine ⟨h1.trans h2, le_rfl, h3, fun g _ hg => hbelow g ?_, h5, fun hgood => ?_⟩
      · exact Int.le_of_lt_add_one (hnext ▸ hg)
      · obtain ⟨hu, -⟩ := h6 hgood
        refine ⟨hu, fun _ => ?_⟩
        rw [show upper - 1 = s.mid by omega]
        exact ⟨rfl, hl⟩
    · have hfrom : s.lowerBound < s.mid := by omega
      have hto : s.mid < s.upperBound := by omega
      rw [if_neg hlow]
      refine ⟨h1.trans hfrom.le, hto.le, h3, fun g _ hg => hbelow g (le_of_lt hg), h5,
        fun hgood => ?_⟩
      obtain ⟨hu, -⟩ := h6 hgood
      exact ⟨hu, fun heq => absurd heq (hu ▸ hto.ne)⟩
  | false =>
    have hfrom : s.lowerBound ≤ s.mid := by omega
    have hto : s.mid < s.upperBound := by omega
    rw [probe_of_enough hl, if_neg hto.ne']
    exact ⟨h1, hfrom, hto.le.trans h3, h4, fun _ => ⟨hto.trans_le h3, rfl, hl⟩,
      fun hgood => by cases hgood⟩

/-- The bound is below the base cost, and all that is tried lacks gas. -/
def Falls (execute : ℤ → ExecutionResult) (upper : ℤ) (s : Search) : Prop :=
  s.upperBound = upper ∧ s.good = false ∧ upper ≤ s.lowerBound ∧ s.er.lacksGas = true ∧
    (upper < s.lowerBound → (execute s.lowerBound).lacksGas = true)

theorem falls_probe (hu : s.upperBound = upper) (hgood : s.good = false)
    (hlow : upper < s.lowerBound) (hl : (execute s.mid).lacksGas = true) :
    Falls execute upper (probe execute s) := by
  have hmid := mid_bounds s
  rw [probe_of_lacks hl]
  by_cases heq : s.lowerBound = s.mid
  · rw [if_pos heq]
    exact ⟨hu, hgood, hu.ge, hl, fun hlt => absurd hlt (by dsimp only; omega)⟩
  · rw [if_neg heq]
    exact ⟨hu, hgood, by dsimp only; omega, hl, fun _ => hl⟩

theorem Falls.probe (hmono : Monotone execute) (h : Falls execute upper s)
    (hopen : s.open = true) : Falls execute upper (probe execute s) := by
  obtain ⟨hu, hgood, hle, -, hl⟩ := h
  have hne : s.upperBound ≠ s.lowerBound := of_decide_eq_true hopen
  have hmid := mid_bounds s
  have hlt : upper < s.lowerBound := by omega
  exact falls_probe hu hgood hlt (hmono _ _ (by omega) (hl hlt))

/-- Both bounds are above the one that was given. -/
def Exceeds (upper : ℤ) (s : Search) : Prop := upper < s.lowerBound ∧ upper < s.upperBound

theorem Exceeds.probe (h : Exceeds upper s) (hopen : s.open = true) :
    Exceeds upper (probe execute s) := by
  obtain ⟨h1, h2⟩ := h
  have hne : s.upperBound ≠ s.lowerBound := of_decide_eq_true hopen
  have hmid := mid_bounds s
  cases hl : (execute s.mid).lacksGas with
  | true =>
    rw [probe_of_lacks hl]
    refine ⟨?_, h2⟩
    dsimp only
    split <;> omega
  | false =>
    rw [probe_of_enough hl]
    refine ⟨h1, ?_⟩
    dsimp only
    split <;> omega

theorem exceeds_probe (hlow : upper < s.lowerBound) (hu : s.upperBound = upper)
    (hl : (execute s.mid).lacksGas = false) : Exceeds upper (probe execute s) := by
  have hmid := mid_bounds s
  rw [probe_of_enough hl]
  refine ⟨hlow, ?_⟩
  dsimp only
  split <;> omega

end Loop

/-! ### The estimate -/

section Estimate
variable (execute : ℤ → ExecutionResult) (base upper : ℤ)

/-- The search gives a result with enough fuel. -/
def Returns (r : ℤ × ExecutionResult) : Prop :=
  ∃ n, ∀ fuel, n ≤ fuel → search execute fuel base upper = some r

/-- The least gas that is enough and its result, or the upper bound and a failure. -/
def Least (r : ℤ × ExecutionResult) : Prop :=
  (∃ g, base ≤ g ∧ g ≤ upper ∧ (execute g).lacksGas = false ∧
      (∀ g', base ≤ g' → g' < g → (execute g').lacksGas = true) ∧ r = (g, execute g)) ∨
    (∀ g, base ≤ g → g ≤ upper → (execute g).lacksGas = true) ∧ r.1 = upper ∧ r.2.failed = true

/-- The upper bound is not the least gas that is enough. If it is the base cost, nothing is
executed; if it is below it, the search begins halfway between. -/
structure Tried : Prop where
  above : base < upper → (execute (upper - 1)).lacksGas = true → (execute upper).lacksGas = true
  same : base = upper → (execute upper).lacksGas = true ∨ execute upper = {}
  below : upper < base → (execute ((base + upper).tdiv 2)).lacksGas = true

variable {execute base upper} {r : ℤ × ExecutionResult}

theorem returns_iff {s : Search}
    (h : Loops.Ends Search.open (probe execute) {lowerBound := base, upperBound := upper} s) :
    Returns execute base upper r ↔ r = s.result := by
  obtain ⟨n, hn⟩ := h
  have hsearch : ∀ fuel, n ≤ fuel → search execute fuel base upper = some s.result := by
    intro fuel hle
    rw [search, hn fuel hle]
    rfl
  constructor
  · rintro ⟨n', hn'⟩
    have hboth := (hn' (n + n') (Nat.le_add_left _ _)).symm.trans
      (hsearch (n + n') (Nat.le_add_right _ _))
    exact Option.some.inj hboth
  · rintro rfl
    exact ⟨n, hsearch⟩

theorem least_iff_of_lt (hmono : Monotone execute) (hbase : 0 ≤ base) (hlt : base < upper) :
    (∃ r, Returns execute base upper r ∧ Least execute base upper r) ↔
      ((execute (upper - 1)).lacksGas = true → (execute upper).lacksGas = true) := by
  have hstart : Narrows execute base upper {lowerBound := base, upperBound := upper} :=
    ⟨le_rfl, hlt.le, le_rfl, fun g h1 h2 => absurd h2 (not_lt.mpr h1), (fun h => by cases h),
      fun _ => ⟨rfl, fun h => absurd h hlt.ne⟩⟩
  obtain ⟨s, hends, hs, hclosed⟩ := ends (fun s hI hc => Narrows.probe hmono hbase hI hc) hstart
  simp only [returns_iff hends, exists_eq_left]
  cases hgood : s.good with
  | true =>
    obtain ⟨hlow, hlast, henough⟩ := hs.good hgood
    have hresult : s.result = (s.upperBound, execute s.upperBound) := by
      rw [Search.result, hgood, if_pos rfl, hlast]
    refine iff_of_true (.inl ⟨s.upperBound, ?_, hs.le_upper, henough, ?_, hresult⟩) fun hbefore => ?_
    · rw [hclosed]
      exact hs.base_le
    · intro g h1 h2
      exact hs.below g h1 (by omega)
    · rw [hmono _ _ (Int.le_sub_one_of_lt hlow) hbefore] at henough
      cases henough
  | false =>
    obtain ⟨hu, hrest⟩ := hs.untried hgood
    obtain ⟨her, hlacks⟩ := hrest (hclosed.symm.trans hu)
    have hresult : s.result = (upper, s.er) := by
      rw [Search.result, hgood, hu]
      rfl
    have hall : ∀ g, base ≤ g → g < upper → (execute g).lacksGas = true := by
      intro g h1 h2
      exact hs.below g h1 (by omega)
    rw [hresult]
    constructor
    · rintro (⟨g, h1, h2, h3, -, heq⟩ | ⟨h, -⟩) -
      · obtain ⟨rfl, heq⟩ := Prod.mk.inj heq
        rw [← heq, hlacks] at h3
        cases h3
      · exact h upper hlt.le le_rfl
    · intro h
      refine .inr ⟨fun g h1 h2 => ?_, rfl, ExecutionResult.failed_of_lacksGas hlacks⟩
      rcases h2.lt_or_eq with h2 | rfl
      · exact hall g h1 h2
      · exact h (her ▸ hlacks)

theorem least_iff_of_eq (heq : base = upper) :
    (∃ r, Returns execute base upper r ∧ Least execute base upper r) ↔
      (execute upper).lacksGas = true ∨ execute upper = {} := by
  subst heq
  have hends : Loops.Ends Search.open (probe execute) {lowerBound := base, upperBound := base}
      {lowerBound := base, upperBound := base} := .refl (by simp [Search.open])
  have hresult : Search.result {lowerBound := base, upperBound := base} = (base, {}) := rfl
  simp only [returns_iff hends, exists_eq_left, hresult]
  constructor
  · rintro (⟨g, -, -, -, -, heq⟩ | ⟨h, -⟩)
    · obtain ⟨rfl, heq⟩ := Prod.mk.inj heq
      exact .inr heq.symm
    · exact .inl (h base le_rfl le_rfl)
  · intro h
    cases hl : (execute base).lacksGas with
    | true =>
      refine .inr ⟨fun g h1 h2 => ?_, rfl, rfl⟩
      rwa [le_antisymm h2 h1]
    | false =>
      have hdefault : execute base = {} := h.resolve_left (by simp [hl])
      refine .inl ⟨base, le_rfl, le_rfl, hl, fun g h1 h2 => absurd h2 (not_lt.mpr h1), ?_⟩
      rw [hdefault]

theorem least_iff_of_gt (hmono : Monotone execute) (hlt : upper < base) :
    (∃ r, Returns execute base upper r ∧ Least execute base upper r) ↔
      (execute ((base + upper).tdiv 2)).lacksGas = true := by
  let start : Search := {lowerBound := base, upperBound := upper}
  have hopen : start.open = true := decide_eq_true hlt.ne
  cases hl : (execute ((base + upper).tdiv 2)).lacksGas with
  | true =>
    have hfalls : Falls execute upper (probe execute start) := falls_probe rfl rfl hlt hl
    obtain ⟨s, hends, ⟨hu, hgood, -, hlacks, -⟩, -⟩ :=
      ends (fun s hI hc => Falls.probe hmono hI hc) hfalls
    have hresult : s.result = (upper, s.er) := by
      rw [Search.result, hgood, hu]
      rfl
    simp only [returns_iff (hends.turn hopen), exists_eq_left, hresult]
    refine iff_of_true (.inr ⟨fun g h1 h2 => ?_, rfl, ?_⟩) trivial
    · exact absurd (h1.trans h2) (not_le.mpr hlt)
    · exact ExecutionResult.failed_of_lacksGas hlacks
  | false =>
    have hexceeds : Exceeds upper (probe execute start) := exceeds_probe hlt rfl hl
    obtain ⟨s, hends, ⟨-, hu⟩, -⟩ := @ends execute _ _ (fun s hI hc => Exceeds.probe hI hc) hexceeds
    simp only [returns_iff (hends.turn hopen), exists_eq_left]
    refine iff_of_false ?_ Bool.false_ne_true
    rintro (⟨g, h1, h2, -⟩ | ⟨-, h, -⟩)
    · exact absurd (h1.trans h2) (not_le.mpr hlt)
    · exact hu.ne' h

theorem least_iff (hmono : Monotone execute) (base : ℕ) (upper : ℤ) :
    (∃ r, Returns execute base upper r ∧ Least execute base upper r) ↔
      Tried execute base upper := by
  rcases lt_trichotomy (base : ℤ) upper with h | h | h
  · rw [least_iff_of_lt hmono (Int.natCast_nonneg base) h]
    exact ⟨fun hx => ⟨fun _ => hx, fun he => absurd he h.ne, fun hg => absurd hg h.not_gt⟩,
      fun hx => hx.above h⟩
  · rw [least_iff_of_eq h]
    exact ⟨fun hx => ⟨fun hl => absurd h hl.ne, fun _ => hx, fun hg => absurd h hg.ne'⟩,
      fun hx => hx.same h⟩
  · rw [least_iff_of_gt hmono h]
    exact ⟨fun hx => ⟨fun hl => absurd hl h.not_gt, fun he => absurd he h.ne', fun _ => hx⟩,
      fun hx => hx.below h⟩

/-- The estimate for a transaction. -/
theorem estimateGas_least_iff (hmono : Monotone execute) (contractCreation : Bool) (data : Bytes)
    (maxGas : ℤ) :
    (∃ r, (∃ n, ∀ fuel, n ≤ fuel → estimateGas execute fuel contractCreation data maxGas = some r) ∧
        Least execute (baseGasRequired contractCreation data) (upperBoundOf maxGas) r) ↔
      Tried execute (baseGasRequired contractCreation data) (upperBoundOf maxGas) := by
  obtain ⟨base, hbase⟩ := Int.eq_ofNat_of_zero_le (baseGasRequired_nonneg contractCreation data)
  unfold estimateGas
  rw [hbase]
  exact least_iff hmono base (upperBoundOf maxGas)

/-- A transfer needs 21000. -/
def transfer (gas : ℤ) : ExecutionResult :=
  if gas < 21000 then {excepted := .OutOfGasBase} else {excepted := .None, gasUsed := 21000}

theorem monotone_transfer : Monotone transfer := by
  intro g g' hle h
  unfold transfer at h ⊢
  by_cases hg : g' < 21000
  · rw [if_pos (lt_of_le_of_lt hle hg)]
    rfl
  · rw [if_neg hg] at h
    cases h

end Estimate

end GasEstimate
end Aleth.Ethereum
