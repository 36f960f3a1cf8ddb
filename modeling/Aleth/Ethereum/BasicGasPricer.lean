import Aleth.Devcore.Sha3
import Aleth.Structure.SortedMap
import Mathlib

/-! Statistics of gas prices (`BasicGasPricer::update`).

Each gas price of the last thousand blocks is weighed by gas. What is taken for
the gas of a transaction is what its receipt says, and receipts count the gas of
a block up to and with the transaction. The weights are right where no block has
a second transaction (`weighs_iff`); what is computed from the weights is right
as long as the sums fit. -/
namespace Aleth.Ethereum
open Devcore

/-! ### The code -/

/-- A transaction of a block, with the gas its execution used. -/
structure Executed where
  gasPrice : U256
  gasUsed : U256

/-- The receipts that `State::execute` makes, one after the other: `startGasUsed + e.gasUsed()`. -/
def cumulativeGasUsed (startGasUsed : U256) : List Executed → List U256
  | [] => []
  | t :: ts => (startGasUsed + t.gasUsed) :: cumulativeGasUsed (startGasUsed + t.gasUsed) ts

/-- `Block::gasUsed`, which the header has to agree with. -/
def blockGasUsed (receipts : List U256) : U256 := receipts.getLastD 0

structure PricedHeader where
  hash : H256
  parentHash : H256
  gasLimit : U256
  gasUsed : U256
  transactionsRoot : H256

/-- What is read of a chain, by hash: headers, the gas prices of the transactions, and the
cumulative gas of the receipts. -/
structure PricedChain where
  currentHash : H256
  info : H256 → PricedHeader
  block : H256 → List U256
  receipts : H256 → List U256

namespace BasicGasPricer

/-- The distribution of gas over prices, and its total. -/
structure Distribution where
  dist : SortedMap U256 U256
  total : U256

def Distribution.empty : Distribution := ⟨.empty, 0⟩

/-- `dist[tx.gasPrice()]`. -/
def Distribution.weight (d : Distribution) (gasPrice : U256) : U256 := (d.dist.find gasPrice).getD 0

/-- `dist[tx.gasPrice()] += gu; total += gu;`. -/
def Distribution.note (d : Distribution) (gasPrice gu : U256) : Distribution :=
  ⟨d.dist.insert gasPrice (d.weight gasPrice + gu), d.total + gu⟩

/-- The transactions of a block along with its receipts; to run out of receipts is undefined. -/
def Distribution.noteBlock : Distribution → (block receipts : List U256) → Option Distribution
  | d, [], _ => some d
  | d, gasPrice :: block, gu :: receipts => (d.note gasPrice gu).noteBlock block receipts
  | _, _ :: _, [] => none

variable (EmptyTrie : H256) (bc : PricedChain)

/-- A block without transactions is not read. -/
def Distribution.noteHeader (d : Distribution) (p : H256) : Option Distribution :=
  let bi := bc.info p
  if bi.transactionsRoot = EmptyTrie then some d
  else d.noteBlock (bc.block p) (bc.receipts bi.hash)

/-- The loop over the blocks, from the one with the hash `p`. -/
def distribution : (turns : ℕ) → (p : H256) → Distribution → Option Distribution
  | 0, _, d => some d
  | turns + 1, p, d =>
    if p = H256.zero then some d
    else do
      let d ← d.noteHeader EmptyTrie bc p
      distribution turns (bc.info p).parentHash d

def mean (d : Distribution) : U256 :=
  d.dist.entries.foldl (fun mean i => mean + i.1 * i.2) 0 / d.total

def sdSquared (d : Distribution) : U256 :=
  d.dist.entries.foldl (fun s i => s + i.2 * (i.1 - mean d) * (i.1 - mean d)) 0 / d.total

end BasicGasPricer

/-- The prices are not set before there is something to weigh. -/
structure BasicGasPricer where
  m_gasPerBlock : U256
  m_octiles : List U256

namespace BasicGasPricer

/-- `quantile` stands for `u256(mean * quantile(gauss, i / 8.0))`, in floating point. -/
def update (EmptyTrie : H256) (quantile : (mean sdSquared : U256) → ℕ → U256) (g : BasicGasPricer)
    (bc : PricedChain) : Option BasicGasPricer := do
  let p := bc.currentHash
  let m_gasPerBlock := (bc.info p).gasLimit
  let d ← distribution EmptyTrie bc 1000 p .empty
  let prices := d.dist.entries.map Prod.fst
  if 0 < d.total then
    if sdSquared d ≠ 0 then
      some ⟨m_gasPerBlock, prices.headD 0 ::
        (List.range 7).map (fun i => quantile (mean d) (sdSquared d) (i + 1)) ++
          [prices.getLastD 0]⟩
    else some ⟨m_gasPerBlock, (List.range 9).map fun i => (i + 1 : ℕ) * mean d / 5⟩
  else some {g with m_gasPerBlock}

end BasicGasPricer

/-! ### The specification -/

/-- A block of the chain: every transaction pays for its own data, and a block keeps to the limit
on gas. -/
structure MinedBlock (EmptyTrie : H256) where
  hash : H256
  gasLimit : U256
  transactionsRoot : H256
  executed : List Executed
  hash_ne : hash ≠ H256.zero
  root : transactionsRoot = EmptyTrie ↔ executed = []
  gas_pos : ∀ t ∈ executed, 0 < t.gasUsed.toNat
  gas_le : (executed.map (·.gasUsed.toNat)).sum ≤ 2 ^ 63 - 1

def MinedBlock.header {EmptyTrie : H256} (b : MinedBlock EmptyTrie) (parentHash : H256) :
    PricedHeader where
  hash := b.hash
  parentHash := parentHash
  gasLimit := b.gasLimit
  gasUsed := blockGasUsed (cumulativeGasUsed 0 b.executed)
  transactionsRoot := b.transactionsRoot

/-- From the hash `p` down to the genesis the chain has these blocks. -/
def PricedChain.Has {EmptyTrie : H256} (bc : PricedChain) : (p : H256) →
    List (MinedBlock EmptyTrie) → Prop
  | p, [] => p = H256.zero
  | p, b :: blocks => p = b.hash ∧ bc.block p = b.executed.map (·.gasPrice) ∧
    bc.receipts p = cumulativeGasUsed 0 b.executed ∧
    ∃ parentHash, bc.info p = b.header parentHash ∧ bc.Has parentHash blocks

/-- A chain with its blocks, the newest first. -/
structure MinedChain (EmptyTrie : H256) extends PricedChain where
  blocks : List (MinedBlock EmptyTrie)
  has : toPricedChain.Has currentHash blocks

/-- The last `min(1000, height + 1)` blocks. -/
def MinedChain.window {EmptyTrie : H256} (c : MinedChain EmptyTrie) : List (MinedBlock EmptyTrie) :=
  c.blocks.take 1000

/-- The mean of the prices by weight, in unbounded integers. -/
def weightedMean (weights : List (U256 × U256)) : ℕ :=
  (weights.map fun i => i.1.toNat * i.2.toNat).sum / (weights.map fun i => i.2.toNat).sum

def squares (weights : List (U256 × U256)) (mean : ℕ) : ℤ :=
  (weights.map fun i => (i.2.toNat : ℤ) * ((i.1.toNat : ℤ) - mean) ^ 2).sum

/-- As far as the sums fit, mean and variance are those of unbounded integers. -/
structure Statistics (d : BasicGasPricer.Distribution) : Prop where
  mean : (d.dist.entries.map fun i => i.2.toNat).sum < 2 ^ 256 →
    (d.dist.entries.map fun i => i.1.toNat * i.2.toNat).sum < 2 ^ 256 →
    (BasicGasPricer.mean d).toNat = weightedMean d.dist.entries
  variance : (d.dist.entries.map fun i => i.2.toNat).sum < 2 ^ 256 →
    (d.dist.entries.map fun i => i.1.toNat * i.2.toNat).sum < 2 ^ 256 →
    squares d.dist.entries (weightedMean d.dist.entries) < 2 ^ 256 →
    ((BasicGasPricer.sdSquared d).toNat : ℤ) =
      squares d.dist.entries (weightedMean d.dist.entries) /
        (d.dist.entries.map fun i => i.2.toNat).sum

/-- Every transaction of the window is weighed by its own gas. -/
structure Weighs {EmptyTrie : H256} (c : MinedChain EmptyTrie)
    (d : BasicGasPricer.Distribution) : Prop where
  weight : ∀ gasPrice, (d.weight gasPrice).toNat =
    (((c.window.flatMap (·.executed)).filter (·.gasPrice = gasPrice)).map (·.gasUsed.toNat)).sum
  total : d.total.toNat =
    (c.window.map fun b => (blockGasUsed (cumulativeGasUsed 0 b.executed)).toNat).sum
  statistics : Statistics d

/-! ### Sums of words -/

theorem toNat_sum (l : List U256) : l.sum.toNat = (l.map BitVec.toNat).sum % 2 ^ 256 := by
  induction l with
  | nil => rfl
  | cons x l ih =>
    rw [List.sum_cons, BitVec.toNat_add, ih, List.map_cons, List.sum_cons, Nat.add_mod_mod]

theorem foldl_add {α : Type} (f : α → U256) (l : List α) (s : U256) :
    l.foldl (fun s e => s + f e) s = s + (l.map f).sum := by
  induction l generalizing s with
  | nil => simp
  | cons e l ih => rw [List.foldl_cons, ih, List.map_cons, List.sum_cons, add_assoc]

theorem toNat_intCast {z : ℤ} (h0 : 0 ≤ z) (h : z < 2 ^ 256) : (((z : U256)).toNat : ℤ) = z := by
  have hcast : (z : U256) = BitVec.ofInt 256 z := rfl
  rw [hcast, BitVec.toNat_ofInt]
  omega

theorem intCast_toNat (x : U256) : ((x.toNat : ℤ) : U256) = x := by
  have hcast : ((x.toNat : ℤ) : U256) = BitVec.ofInt 256 x.toNat := rfl
  rw [hcast]
  simp

/-- A sum of words is the sum of the integers they stand for, if it fits. -/
theorem toNat_sum_map {α : Type} {f : α → ℤ} {g : α → U256} (hg : ∀ e, g e = (f e : U256))
    {l : List α} (h0 : 0 ≤ (l.map f).sum) (h : (l.map f).sum < 2 ^ 256) :
    ((l.map g).sum.toNat : ℤ) = (l.map f).sum := by
  have hsum : (l.map g).sum = (((l.map f).sum : ℤ) : U256) := by
    rw [Int.cast_list_sum, List.map_map]
    exact congrArg List.sum (List.map_congr_left fun e _ => hg e)
  rw [hsum, toNat_intCast h0 h]

/-! ### What is computed from the weights -/

namespace BasicGasPricer

/-- The weights add up to the total. -/
def Balanced (d : Distribution) : Prop := (d.dist.entries.map Prod.snd).sum = d.total

theorem Balanced.note {d : Distribution} (h : Balanced d) (gasPrice gu : U256) :
    Balanced (d.note gasPrice gu) := by
  have hsum : (d.dist.entries.map Prod.snd).sum = d.weight gasPrice +
      ((d.dist.erase gasPrice).entries.map Prod.snd).sum := by
    cases hf : d.dist.find gasPrice with
    | none =>
      rw [SortedMap.erase_of_find_none hf, Distribution.weight, hf, Option.getD_none, zero_add]
    | some w =>
      rw [((SortedMap.erase_perm hf).map Prod.snd).sum_eq, Distribution.weight, hf]
      rfl
  have hinsert : d.dist.insert gasPrice (d.weight gasPrice + gu) =
      (d.dist.erase gasPrice).insert gasPrice (d.weight gasPrice + gu) := by
    refine SortedMap.ext_find fun k => ?_
    rw [SortedMap.find_insert, SortedMap.find_insert, SortedMap.find_erase]
    by_cases hk : k = gasPrice
    · rw [if_pos hk, if_pos hk]
    · rw [if_neg hk, if_neg hk, if_neg hk]
  have hnone : (d.dist.erase gasPrice).find gasPrice = none := by
    rw [SortedMap.find_erase, if_pos rfl]
  unfold Balanced at h ⊢
  simp only [Distribution.note]
  rw [hinsert, ((SortedMap.insert_perm hnone _).map Prod.snd).sum_eq, List.map_cons,
    List.sum_cons, ← h, hsum]
  ring

theorem Balanced.toNat_total {d : Distribution} (h : Balanced d)
    (hfits : (d.dist.entries.map fun i => i.2.toNat).sum < 2 ^ 256) :
    d.total.toNat = (d.dist.entries.map fun i => i.2.toNat).sum := by
  rw [← h, toNat_sum, List.map_map]
  exact Nat.mod_eq_of_lt hfits

theorem mean_eq {d : Distribution} (h : Balanced d)
    (hfits : (d.dist.entries.map fun i => i.2.toNat).sum < 2 ^ 256)
    (hsum : (d.dist.entries.map fun i => i.1.toNat * i.2.toNat).sum < 2 ^ 256) :
    (mean d).toNat = weightedMean d.dist.entries := by
  have hcast : (((d.dist.entries.map fun i => i.1.toNat * i.2.toNat).sum : ℕ) : ℤ) =
      (d.dist.entries.map fun i => (i.1.toNat : ℤ) * i.2.toNat).sum := by
    rw [Nat.cast_list_sum, List.map_map]
    rfl
  have hwords := @toNat_sum_map _ (fun i : U256 × U256 => (i.1.toNat : ℤ) * i.2.toNat)
    (fun i => i.1 * i.2) (fun i => by rw [Int.cast_mul, intCast_toNat, intCast_toNat])
    d.dist.entries (by rw [← hcast]; omega) (by rw [← hcast]; exact_mod_cast hsum)
  rw [← hcast] at hwords
  rw [mean, foldl_add, zero_add, BitVec.toNat_udiv, h.toNat_total hfits, weightedMean]
  congr 1
  exact_mod_cast hwords

theorem squares_nonneg (weights : List (U256 × U256)) (m : ℕ) : 0 ≤ squares weights m := by
  refine List.sum_nonneg fun x hx => ?_
  obtain ⟨i, -, rfl⟩ := List.mem_map.mp hx
  positivity

theorem sdSquared_eq {d : Distribution} (h : Balanced d)
    (hfits : (d.dist.entries.map fun i => i.2.toNat).sum < 2 ^ 256)
    (hsum : (d.dist.entries.map fun i => i.1.toNat * i.2.toNat).sum < 2 ^ 256)
    (hsquares : squares d.dist.entries (weightedMean d.dist.entries) < 2 ^ 256) :
    ((sdSquared d).toNat : ℤ) = squares d.dist.entries (weightedMean d.dist.entries) /
      (d.dist.entries.map fun i => i.2.toNat).sum := by
  have hmean : ((weightedMean d.dist.entries : ℤ) : U256) = mean d := by
    rw [← mean_eq h hfits hsum, intCast_toNat]
  have hwords := @toNat_sum_map _
    (fun i : U256 × U256 => (i.2.toNat : ℤ) * ((i.1.toNat : ℤ) - weightedMean d.dist.entries) ^ 2)
    (fun i => i.2 * (i.1 - mean d) * (i.1 - mean d))
    (fun i => by
      rw [Int.cast_mul, Int.cast_pow, Int.cast_sub, intCast_toNat, intCast_toNat, hmean]
      ring)
    d.dist.entries (squares_nonneg _ _) hsquares
  rw [sdSquared, foldl_add, zero_add, BitVec.toNat_udiv, h.toNat_total hfits, Int.natCast_ediv,
    hwords]
  rfl

theorem statistics_of_balanced {d : Distribution} (h : Balanced d) : Statistics d where
  mean := mean_eq h
  variance := sdSquared_eq h

/-! ### The loops -/

/-- The transactions of a block with what their receipts count. -/
def counted : (startGasUsed : U256) → List Executed → List (U256 × U256)
  | _, [] => []
  | s, t :: ts => (t.gasPrice, s + t.gasUsed) :: counted (s + t.gasUsed) ts

def noteAll (d : Distribution) (l : List (U256 × U256)) : Distribution :=
  l.foldl (fun d i => d.note i.1 i.2) d

theorem noteBlock_eq (d : Distribution) (s : U256) (ts : List Executed) :
    d.noteBlock (ts.map (·.gasPrice)) (cumulativeGasUsed s ts) =
      some (noteAll d (counted s ts)) := by
  induction ts generalizing d s with
  | nil => rfl
  | cons t ts ih => exact ih (d.note t.gasPrice (s + t.gasUsed)) (s + t.gasUsed)

variable {EmptyTrie : H256}

/-- The loop notes the transactions of the last blocks. -/
theorem distribution_eq {bc : PricedChain} {blocks : List (MinedBlock EmptyTrie)} {p : H256}
    (h : bc.Has p blocks) (turns : ℕ) (d : Distribution) :
    distribution EmptyTrie bc turns p d =
      some (noteAll d ((blocks.take turns).flatMap fun b => counted 0 b.executed)) := by
  induction turns generalizing blocks p d with
  | zero => rfl
  | succ turns ih =>
    cases blocks with
    | nil =>
      have hzero : p = H256.zero := h
      rw [distribution, if_pos hzero]
      rfl
    | cons b blocks =>
      obtain ⟨rfl, hblock, hreceipts, parentHash, hinfo, hrest⟩ := h
      have hhash : (b.header parentHash).hash = b.hash := rfl
      have hroot : (b.header parentHash).transactionsRoot = b.transactionsRoot := rfl
      have hnoted : d.noteHeader EmptyTrie bc b.hash = some (noteAll d (counted 0 b.executed)) := by
        rw [Distribution.noteHeader, hinfo, hblock, hhash, hreceipts, noteBlock_eq, hroot]
        by_cases hempty : b.transactionsRoot = EmptyTrie
        · rw [if_pos hempty, b.root.mp hempty]
          rfl
        · rw [if_neg hempty]
      rw [distribution, if_neg b.hash_ne, hnoted]
      simp only [Option.bind_eq_bind, Option.bind_some]
      rw [hinfo, MinedBlock.header, ih hrest, List.take_succ_cons, List.flatMap_cons, noteAll,
        noteAll, noteAll, List.foldl_append]

theorem weight_note (d : Distribution) (gasPrice gu price : U256) :
    (d.note gasPrice gu).weight price =
      if gasPrice = price then d.weight price + gu else d.weight price := by
  simp only [Distribution.weight, Distribution.note, SortedMap.find_insert]
  by_cases h : gasPrice = price
  · subst h
    rw [if_pos rfl, if_pos rfl, Option.getD_some]
  · rw [if_neg h, if_neg (Ne.symm h)]

theorem weight_noteAll (d : Distribution) (l : List (U256 × U256)) (price : U256) :
    (noteAll d l).weight price =
      d.weight price + ((l.filter (·.1 = price)).map Prod.snd).sum := by
  induction l generalizing d with
  | nil => simp [noteAll]
  | cons i l ih =>
    have hcons : noteAll d (i :: l) = noteAll (d.note i.1 i.2) l := rfl
    rw [hcons, ih, weight_note]
    by_cases h : i.1 = price
    · rw [if_pos h, List.filter_cons_of_pos (by simpa using h), List.map_cons, List.sum_cons,
        add_assoc]
    · rw [if_neg h, List.filter_cons_of_neg (by simpa using h)]

theorem total_noteAll (d : Distribution) (l : List (U256 × U256)) :
    (noteAll d l).total = d.total + (l.map Prod.snd).sum := by
  induction l generalizing d with
  | nil => simp [noteAll]
  | cons i l ih =>
    have hcons : noteAll d (i :: l) = noteAll (d.note i.1 i.2) l := rfl
    rw [hcons, ih, List.map_cons, List.sum_cons, ← add_assoc]
    rfl

theorem Balanced.noteAll {d : Distribution} (h : Balanced d) (l : List (U256 × U256)) :
    Balanced (noteAll d l) := by
  induction l generalizing d with
  | nil => exact h
  | cons i l ih => exact ih (h.note i.1 i.2)

end BasicGasPricer

/-! ### The gas of a block -/

namespace MinedBlock
open BasicGasPricer
variable {EmptyTrie : H256}

def gas (ts : List Executed) : ℕ := (ts.map (·.gasUsed.toNat)).sum

/-- What the receipts of a block count, all together. -/
def countedGas (s : U256) (ts : List Executed) : ℕ := ((counted s ts).map (·.2.toNat)).sum

theorem toNat_add_gas {s : U256} {t : Executed} {ts : List Executed}
    (h : s.toNat + gas (t :: ts) ≤ 2 ^ 63 - 1) : (s + t.gasUsed).toNat = s.toNat + t.gasUsed.toNat ∧
      (s + t.gasUsed).toNat + gas ts = s.toNat + gas (t :: ts) := by
  have hcons : gas (t :: ts) = t.gasUsed.toNat + gas ts := rfl
  have hadd : (s + t.gasUsed).toNat = s.toNat + t.gasUsed.toNat := by
    rw [BitVec.toNat_add]
    omega
  exact ⟨hadd, by omega⟩

/-- The last receipt counts all. -/
theorem toNat_getLastD {s : U256} {ts : List Executed} (h : s.toNat + gas ts ≤ 2 ^ 63 - 1) :
    ((cumulativeGasUsed s ts).getLastD s).toNat = s.toNat + gas ts := by
  induction ts generalizing s with
  | nil => rfl
  | cons t ts ih =>
    obtain ⟨hadd, hgas⟩ := toNat_add_gas h
    rw [cumulativeGasUsed, List.getLastD_cons, ih (by omega), hgas]

theorem le_countedGas {s : U256} {ts : List Executed} (h : s.toNat + gas ts ≤ 2 ^ 63 - 1)
    (hne : ts ≠ []) : s.toNat + gas ts ≤ countedGas s ts := by
  induction ts generalizing s with
  | nil => exact absurd rfl hne
  | cons t ts ih =>
    obtain ⟨hadd, hgas⟩ := toNat_add_gas h
    have hcons : countedGas s (t :: ts) =
      (s + t.gasUsed).toNat + countedGas (s + t.gasUsed) ts := rfl
    by_cases hnil : ts = []
    · subst hnil
      have hzero : gas [] = 0 := rfl
      omega
    · have hle := ih (s := s + t.gasUsed) (by omega) hnil
      omega

theorem countedGas_le {s : U256} {ts : List Executed} (h : s.toNat + gas ts ≤ 2 ^ 63 - 1) :
    countedGas s ts ≤ ts.length * (2 ^ 63 - 1) := by
  induction ts generalizing s with
  | nil => exact Nat.zero_le _
  | cons t ts ih =>
    obtain ⟨hadd, hgas⟩ := toNat_add_gas h
    have hcons : countedGas s (t :: ts) =
      (s + t.gasUsed).toNat + countedGas (s + t.gasUsed) ts := rfl
    have hle := ih (s := s + t.gasUsed) (by omega)
    rw [hcons, List.length_cons, Nat.succ_mul]
    omega

theorem countedGas_zero {ts : List Executed} (hfits : gas ts ≤ 2 ^ 63 - 1)
    (hpos : ∀ t ∈ ts, 0 < t.gasUsed.toNat) :
    gas ts ≤ countedGas 0 ts ∧ (gas ts = countedGas 0 ts ↔ ts.length ≤ 1) := by
  have hzero : (0 : U256).toNat = 0 := rfl
  match ts with
  | [] => exact ⟨le_rfl, iff_of_true rfl (by decide)⟩
  | [t] =>
    have heq : gas [t] = countedGas 0 [t] := by simp [gas, countedGas, counted]
    exact ⟨heq.le, iff_of_true heq (by simp)⟩
  | t :: u :: ts =>
    obtain ⟨hadd, hgas⟩ := @toNat_add_gas 0 t (u :: ts) (by omega)
    have hcons : countedGas 0 (t :: u :: ts) =
      (0 + t.gasUsed).toNat + countedGas (0 + t.gasUsed) (u :: ts) := rfl
    have hrest := @le_countedGas (0 + t.gasUsed) (u :: ts) (by omega) (List.cons_ne_nil u ts)
    have ht := hpos t List.mem_cons_self
    exact ⟨by omega, iff_of_false (by omega) (by simp)⟩

theorem length_le_gas {ts : List Executed} (hpos : ∀ t ∈ ts, 0 < t.gasUsed.toNat) :
    ts.length ≤ gas ts := by
  have hle := List.length_le_sum_of_one_le (ts.map (·.gasUsed.toNat)) fun x hx => by
    obtain ⟨t, ht, rfl⟩ := List.mem_map.mp hx
    exact hpos t ht
  rwa [List.length_map] at hle

variable (b : MinedBlock EmptyTrie)

theorem toNat_gasUsed : (blockGasUsed (cumulativeGasUsed 0 b.executed)).toNat = gas b.executed := by
  have hfits : (0 : U256).toNat + gas b.executed ≤ 2 ^ 63 - 1 := by
    have hle := b.gas_le
    simpa [gas] using hle
  have hlast := toNat_getLastD hfits
  rw [blockGasUsed, hlast]
  simp

theorem countedGas_fits : countedGas 0 b.executed ≤ (2 ^ 63 - 1) * (2 ^ 63 - 1) := by
  have hfits : (0 : U256).toNat + gas b.executed ≤ 2 ^ 63 - 1 := by
    have hle := b.gas_le
    simpa [gas] using hle
  refine (countedGas_le hfits).trans (Nat.mul_le_mul_right _ ?_)
  exact (length_le_gas b.gas_pos).trans b.gas_le

end MinedBlock

namespace MinedChain
open BasicGasPricer MinedBlock
variable {EmptyTrie : H256} (c : MinedChain EmptyTrie)

/-- What the update comes to. -/
def dist : Distribution :=
  noteAll .empty (c.window.flatMap fun b => counted 0 b.executed)

theorem distribution_eq : distribution EmptyTrie c.toPricedChain 1000 c.currentHash .empty =
    some c.dist := BasicGasPricer.distribution_eq c.has 1000 .empty

theorem length_window : c.window.length ≤ 1000 := List.length_take_le ..

theorem sum_window_le {f : MinedBlock EmptyTrie → ℕ} {n : ℕ} (h : ∀ b, f b ≤ n) :
    (c.window.map f).sum ≤ 1000 * n := by
  have hle := List.sum_le_card_nsmul (c.window.map f) n fun x hx => by
    obtain ⟨b, -, rfl⟩ := List.mem_map.mp hx
    exact h b
  rw [List.length_map, smul_eq_mul] at hle
  exact hle.trans (Nat.mul_le_mul_right n c.length_window)

theorem toNat_total : c.dist.total.toNat =
    (c.window.map fun b => countedGas 0 b.executed).sum := by
  have hle := c.sum_window_le fun b => b.countedGas_fits
  rw [dist, total_noteAll, Distribution.empty, zero_add, toNat_sum, List.map_map,
    List.map_flatMap, List.flatMap_def, List.sum_flatten, List.map_map]
  exact Nat.mod_eq_of_lt (lt_of_le_of_lt hle (by decide))

theorem total_iff : c.dist.total.toNat =
    (c.window.map fun b => (blockGasUsed (cumulativeGasUsed 0 b.executed)).toNat).sum ↔
      ∀ b ∈ c.window, b.executed.length ≤ 1 := by
  have hle : ∀ b ∈ c.window, gas b.executed ≤ countedGas 0 b.executed :=
    fun b _ => (countedGas_zero b.gas_le b.gas_pos).1
  simp only [toNat_total, toNat_gasUsed]
  constructor
  · intro heq b hb
    by_contra hmany
    have hlt := List.sum_lt_sum (fun b => gas b.executed) (fun b => countedGas 0 b.executed) hle
      ⟨b, hb, lt_of_le_of_ne (hle b hb) fun h =>
        hmany ((countedGas_zero b.gas_le b.gas_pos).2.mp h)⟩
    omega
  · intro hone
    refine congrArg List.sum (List.map_congr_left fun b hb => ?_)
    exact ((countedGas_zero b.gas_le b.gas_pos).2.mpr (hone b hb)).symm

/-- A single transaction is counted with its own gas. -/
theorem counted_of_length_le {ts : List Executed} (h : ts.length ≤ 1) :
    counted 0 ts = ts.map fun t => (t.gasPrice, t.gasUsed) := by
  match ts with
  | [] => rfl
  | [t] => simp [counted]
  | _ :: _ :: _ => exact absurd h (by simp)

theorem toNat_weight (hone : ∀ b ∈ c.window, b.executed.length ≤ 1) (gasPrice : U256) :
    (c.dist.weight gasPrice).toNat =
      (((c.window.flatMap (·.executed)).filter (·.gasPrice = gasPrice)).map
        (·.gasUsed.toNat)).sum := by
  have hcounted : (c.window.flatMap fun b => counted 0 b.executed) =
      (c.window.flatMap (·.executed)).map fun t => (t.gasPrice, t.gasUsed) := by
    rw [List.map_flatMap]
    exact List.flatMap_congr fun b hb => counted_of_length_le (hone b hb)
  have hempty : Distribution.empty.weight gasPrice = 0 := rfl
  have hall : ((c.window.flatMap (·.executed)).map (·.gasUsed.toNat)).sum ≤
      1000 * (2 ^ 63 - 1) := by
    rw [List.map_flatMap, List.flatMap_def, List.sum_flatten, List.map_map]
    exact c.sum_window_le fun b => b.gas_le
  have hsub := (List.filter_sublist (l := c.window.flatMap (·.executed))
    (p := (·.gasPrice = gasPrice))).map (·.gasUsed.toNat)
  have hle := (hsub.sum_le_sum fun _ _ => Nat.zero_le _).trans hall
  rw [dist, weight_noteAll, hempty, zero_add, hcounted, List.filter_map, toNat_sum, List.map_map,
    List.map_map]
  exact Nat.mod_eq_of_lt (lt_of_le_of_lt hle (by decide))

end MinedChain

/-- **The update weighs every transaction of the last thousand blocks by its own gas exactly when
none of them has a second transaction.** -/
theorem weighs_iff {EmptyTrie : H256} (c : MinedChain EmptyTrie) :
    (∃ d, BasicGasPricer.distribution EmptyTrie c.toPricedChain 1000 c.currentHash .empty = some d ∧
      Weighs c d) ↔ ∀ b ∈ c.window, b.executed.length ≤ 1 := by
  have hbalanced : BasicGasPricer.Balanced c.dist :=
    BasicGasPricer.Balanced.noteAll (d := .empty) rfl _
  constructor
  · rintro ⟨d, hd, hw⟩
    cases c.distribution_eq.symm.trans hd
    exact c.total_iff.mp hw.total
  · intro hone
    exact ⟨c.dist, c.distribution_eq, c.toNat_weight hone, c.total_iff.mpr hone,
      BasicGasPricer.statistics_of_balanced hbalanced⟩

/-- A block with two transfers, at prices of 10 and 20. -/
def twoTransfers : MinedBlock (H256.alignRight [2]) where
  hash := H256.alignRight [1]
  gasLimit := 4712388
  transactionsRoot := H256.alignRight [3]
  executed := [⟨10, 21000⟩, ⟨20, 21000⟩]
  hash_ne := by decide
  root := by decide
  gas_pos := by decide
  gas_le := by decide

/-- The chain of that block. -/
def twoTransfersChain : MinedChain (H256.alignRight [2]) where
  currentHash := H256.alignRight [1]
  info _ := twoTransfers.header H256.zero
  block _ := [10, 20]
  receipts _ := cumulativeGasUsed 0 twoTransfers.executed
  blocks := [twoTransfers]
  has := ⟨rfl, rfl, rfl, H256.zero, rfl, rfl⟩

theorem twoTransfers_overweighed :
    ¬∃ d, BasicGasPricer.distribution (H256.alignRight [2]) twoTransfersChain.toPricedChain 1000
      twoTransfersChain.currentHash .empty = some d ∧ Weighs twoTransfersChain d := by
  rintro ⟨d, hd, hw⟩
  cases twoTransfersChain.distribution_eq.symm.trans hd
  exact absurd hw.total (by decide)

end Aleth.Ethereum
