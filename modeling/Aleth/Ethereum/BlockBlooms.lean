import Aleth.Ethereum.BlockChain

/-! Searching the chain by bloom filters (`BlockChain::withBlockBloom`).

Level 0 of the index has the bloom of every block, sixteen to a chunk; level 1
has sixteen unions of such chunks. The search clips the first and the last chunk
of each level. At the top it goes one chunk too far: `ceilDiv` counts chunks,
and the loop takes the count for the last of them. -/
namespace Aleth.Ethereum

/-- `FixedHash<256>`. -/
abbrev LogBloom := BitVec 2048

namespace LogBloom

def contains (a b : LogBloom) : Bool := a &&& b = b

theorem contains_or_left {a a' b : LogBloom} (h : a.contains b = true) :
    LogBloom.contains (a ||| a') b = true := by
  have hab : a &&& b = b := of_decide_eq_true h
  refine decide_eq_true ?_
  ext i hi
  have hbit := congrArg (fun x : LogBloom => x[i]) hab
  simp only [BitVec.getElem_and, BitVec.getElem_or] at hbit ⊢
  cases ha : a[i] with
  | false =>
    rw [ha] at hbit
    rw [← hbit]
    exact Bool.and_false _
  | true => exact Bool.true_and _

theorem contains_or_right {a a' b : LogBloom} (h : a'.contains b = true) :
    LogBloom.contains (a ||| a') b = true := by
  rw [BitVec.or_comm]
  exact contains_or_left h

end LogBloom

namespace BlockChain

def c_bloomIndexSize : ℕ := 16
def c_bloomIndexLevels : ℕ := 2

theorem bloomIndexSize_pos : 0 < c_bloomIndexSize := Nat.succ_pos 15

/-! ### The code -/

/-- `BlocksBlooms`. -/
abbrev BlocksBlooms := Vector LogBloom c_bloomIndexSize

/-- What the extras have under each chunk id; all zero where there is nothing. -/
abbrev BloomIndex := ℕ → BlocksBlooms

def chunkId (level index : ℕ) : ℕ := (index * 0xff + level) % 2 ^ 32

def blocksBlooms (x : BloomIndex) (level index : ℕ) : BlocksBlooms := x (chunkId level index)

/-- An entry of a chunk; `o` is below the size of it in all that follows. -/
def bloomAt (x : BloomIndex) (level index o : ℕ) : LogBloom :=
  (blocksBlooms x level index).get ⟨o % c_bloomIndexSize, Nat.mod_lt o bloomIndexSize_pos⟩

def blockBloom (x : BloomIndex) (number : ℕ) : LogBloom :=
  bloomAt x 0 (number / c_bloomIndexSize) (number % c_bloomIndexSize)

def upow (a b : ℕ) : ℕ := if b = 0 then 1 else (fun a => a * a % 2 ^ 32)^[b - 1] a

/-- The sum is one of `unsigned` numbers. -/
def ceilDiv (n d : ℕ) : ℕ := (n + d - 1) % 2 ^ 32 / d

def obegin (earliest level index : ℕ) : ℕ :=
  if index = earliest / upow c_bloomIndexSize (level + 1) then
    earliest / upow c_bloomIndexSize level % c_bloomIndexSize
  else 0

def oend (latest level index : ℕ) : ℕ :=
  if index = latest / upow c_bloomIndexSize (level + 1) then
    latest / upow c_bloomIndexSize level % c_bloomIndexSize + 1
  else c_bloomIndexSize

/-- The search of one chunk. -/
def withBlockBloomIn (x : BloomIndex) (b : LogBloom) (earliest latest : ℕ) :
    (level index : ℕ) → List ℕ
  | 0, index =>
    let first := obegin earliest 0 index
    (List.range' first (oend latest 0 index - first)).flatMap fun o =>
      if (bloomAt x 0 index o).contains b then [o + index * c_bloomIndexSize] else []
  | level + 1, index =>
    let first := obegin earliest (level + 1) index
    (List.range' first (oend latest (level + 1) index - first)).flatMap fun o =>
      if (bloomAt x (level + 1) index o).contains b then
        withBlockBloomIn x b earliest latest level (o + index * c_bloomIndexSize)
      else []

def withBlockBloom (x : BloomIndex) (b : LogBloom) (earliest latest : ℕ) : List ℕ :=
  let u := upow c_bloomIndexSize c_bloomIndexLevels
  (List.range' (earliest / u) (ceilDiv latest u + 1 - earliest / u)).flatMap fun index =>
    withBlockBloomIn x b earliest latest (c_bloomIndexLevels - 1) index

/-! ### Blocks of a range -/

/-- Increasing lists that follow on each other. -/
theorem pairwise_flatMap_range' {a c : ℕ} {f : ℕ → List ℕ} (hf : ∀ i, (f i).Pairwise (· < ·))
    (hlt : ∀ {i j}, i < j → ∀ n ∈ f i, ∀ m ∈ f j, n < m) :
    ((List.range' a c).flatMap f).Pairwise (· < ·) :=
  List.pairwise_flatMap.mpr ⟨fun i _ => hf i, (List.pairwise_lt_range' (s := a) (n := c)).imp hlt⟩

/-! ### The blocks that are found -/

variable {x : BloomIndex} {b : LogBloom} {earliest latest n i : ℕ}

/-- Every entry of level 1 is the union of sixteen entries of level 0. -/
def Unions (x : BloomIndex) : Prop :=
  ∀ index < 2 ^ 24, ∀ o < c_bloomIndexSize, bloomAt x 1 index o =
    (List.range c_bloomIndexSize).foldr
      (fun i union => bloomAt x 0 (o + index * c_bloomIndexSize) i ||| union) 0

theorem contains_foldr {f : ℕ → LogBloom} {l : List ℕ} (hi : i ∈ l) (h : (f i).contains b = true) :
    LogBloom.contains (l.foldr (fun i union => f i ||| union) 0) b = true := by
  induction l with
  | nil => cases hi
  | cons j l ih =>
    rw [List.foldr_cons]
    cases List.mem_cons.mp hi with
    | inl he =>
      subst he
      exact LogBloom.contains_or_left h
    | inr hi => exact LogBloom.contains_or_right (ih hi)

theorem upow_zero : upow c_bloomIndexSize 0 = 1 := rfl

theorem upow_one : upow c_bloomIndexSize 1 = 16 := rfl

theorem upow_two : upow c_bloomIndexSize 2 = 256 := rfl

/-- The blocks of a chunk of level 0. -/
theorem mem_level_zero :
    n ∈ withBlockBloomIn x b earliest latest 0 i ↔ n / 16 = i ∧
      (i = earliest / 16 → earliest ≤ n) ∧ (i = latest / 16 → n ≤ latest) ∧
        (blockBloom x n).contains b = true := by
  unfold withBlockBloomIn obegin oend
  rw [upow_zero, upow_one, Nat.div_one, Nat.div_one]
  unfold c_bloomIndexSize
  rw [List.mem_flatMap]
  constructor
  · rintro ⟨o, ho, hn⟩
    rw [List.mem_range'_1] at ho
    by_cases hb : (bloomAt x 0 i o).contains b = true
    · rw [if_pos hb, List.mem_singleton] at hn
      have hlt : o < 16 := by
        split at ho <;> split at ho <;> omega
      have hbloom : blockBloom x n = bloomAt x 0 i o := by
        unfold blockBloom c_bloomIndexSize
        rw [show n / 16 = i by omega, show n % 16 = o by omega]
      rw [hbloom]
      refine ⟨by omega, fun he => ?_, fun he => ?_, hb⟩
      · rw [if_pos he] at ho
        omega
      · rw [if_pos he] at ho
        omega
    · rw [if_neg hb] at hn
      cases hn
  · rintro ⟨hi, hlow, hhigh, hb⟩
    refine ⟨n % 16, ?_, ?_⟩
    · rw [List.mem_range'_1]
      split <;> split <;> omega
    · have hbloom : bloomAt x 0 i (n % 16) = blockBloom x n := by
        unfold blockBloom c_bloomIndexSize
        rw [hi]
      rw [hbloom, if_pos hb, List.mem_singleton]
      omega

/-- The entry of level 1 for a block contains what the block's own does. -/
theorem contains_level_one (hu : Unions x) (hi : i < 2 ^ 24) (hn : n / 256 = i)
    (hb : (blockBloom x n).contains b = true) :
    (bloomAt x 1 i (n / 16 % 16)).contains b = true := by
  have hunion := hu i hi (n / 16 % 16) (Nat.mod_lt _ bloomIndexSize_pos)
  rw [hunion]
  have hindex : n / 16 % 16 + i * c_bloomIndexSize = n / 16 := by
    unfold c_bloomIndexSize
    omega
  rw [hindex]
  have hmem : n % 16 ∈ List.range c_bloomIndexSize :=
    List.mem_range.mpr (Nat.mod_lt _ bloomIndexSize_pos)
  exact contains_foldr (f := bloomAt x 0 (n / 16)) hmem hb

/-- What is found in a chunk of level 1 is in it, and in the range where the chunk is clipped. -/
theorem of_mem_level_one (hle : earliest ≤ latest)
    (h : n ∈ withBlockBloomIn x b earliest latest 1 i) : n / 256 = i ∧
      (i = earliest / 256 → earliest ≤ n) ∧ (i = latest / 256 → n ≤ latest) ∧
        (blockBloom x n).contains b = true := by
  unfold withBlockBloomIn obegin oend at h
  rw [Nat.zero_add, upow_one, upow_two] at h
  unfold c_bloomIndexSize at h
  obtain ⟨o, ho, hn⟩ := List.mem_flatMap.mp h
  rw [List.mem_range'_1] at ho
  by_cases hb : (bloomAt x 1 i o).contains b = true
  · rw [if_pos hb, mem_level_zero] at hn
    obtain ⟨hdiv, hlow, hhigh, hbloom⟩ := hn
    have hlt : o < 16 := by
      split at ho <;> split at ho <;> omega
    refine ⟨by omega, fun he => ?_, fun he => ?_, hbloom⟩
    · rw [if_pos he] at ho
      by_cases hsame : o + i * 16 = earliest / 16
      · exact hlow hsame
      · omega
    · rw [if_pos he] at ho
      by_cases hsame : o + i * 16 = latest / 16
      · exact hhigh hsame
      · omega
  · rw [if_neg hb] at hn
    cases hn

/-- The blocks of a chunk of level 1. -/
theorem mem_level_one (hu : Unions x) (hi : i < 2 ^ 24) (hle : earliest ≤ latest) :
    n ∈ withBlockBloomIn x b earliest latest 1 i ↔ n / 256 = i ∧
      (i = earliest / 256 → earliest ≤ n) ∧ (i = latest / 256 → n ≤ latest) ∧
        (blockBloom x n).contains b = true := by
  refine ⟨of_mem_level_one hle, ?_⟩
  rintro ⟨hn, hlow, hhigh, hb⟩
  unfold withBlockBloomIn obegin oend
  rw [Nat.zero_add, upow_one, upow_two]
  unfold c_bloomIndexSize
  rw [List.mem_flatMap]
  refine ⟨n / 16 % 16, ?_, ?_⟩
  · rw [List.mem_range'_1]
    split <;> split <;> omega
  · rw [if_pos (contains_level_one hu hi hn hb), mem_level_zero]
    exact ⟨by omega, fun he => hlow (by omega), fun he => hhigh (by omega), hb⟩

theorem pairwise_level_zero : (withBlockBloomIn x b earliest latest 0 i).Pairwise (· < ·) := by
  unfold withBlockBloomIn
  refine pairwise_flatMap_range' (fun o => ?_) fun {o o'} ho n hn m hm => ?_
  · split
    · exact List.pairwise_singleton _ _
    · exact List.Pairwise.nil
  · split at hn
    · split at hm
      · rw [List.mem_singleton] at hn hm
        omega
      · cases hm
    · cases hn

theorem pairwise_level_one : (withBlockBloomIn x b earliest latest 1 i).Pairwise (· < ·) := by
  unfold withBlockBloomIn
  refine pairwise_flatMap_range' (fun o => ?_) fun {o o'} ho n hn m hm => ?_
  · split
    · exact pairwise_level_zero
    · exact List.Pairwise.nil
  · split at hn
    · split at hm
      · have hdiv := (mem_level_zero.mp hn).1
        have hdiv' := (mem_level_zero.mp hm).1
        omega
      · cases hm
    · cases hn

theorem pairwise_withBlockBloom (hle : earliest ≤ latest) :
    (withBlockBloom x b earliest latest).Pairwise (· < ·) := by
  refine pairwise_flatMap_range' (fun i => pairwise_level_one) fun {i j} hij n hn m hm => ?_
  have hdiv := (of_mem_level_one hle hn).1
  have hdiv' := (of_mem_level_one hle hm).1
  omega

/-- The last chunk of the top level that is searched. -/
def topChunk (latest : ℕ) : ℕ := (latest + 255) % 2 ^ 32 / 256

theorem mem_withBlockBloom (hu : Unions x) (hle : earliest ≤ latest) :
    n ∈ withBlockBloom x b earliest latest ↔ earliest ≤ n ∧ n / 256 ≤ topChunk latest ∧
      (n / 256 = latest / 256 → n ≤ latest) ∧ (blockBloom x n).contains b = true := by
  have htop : topChunk latest < 2 ^ 24 := by
    unfold topChunk
    omega
  have hceil : ceilDiv latest 256 = topChunk latest := rfl
  unfold withBlockBloom c_bloomIndexLevels
  dsimp only
  rw [upow_two, hceil, List.mem_flatMap]
  constructor
  · rintro ⟨i, hi, hn⟩
    rw [List.mem_range'_1] at hi
    obtain ⟨hdiv, hlow, hhigh, hb⟩ := of_mem_level_one hle hn
    refine ⟨?_, by omega, fun he => hhigh (by omega), hb⟩
    by_cases hsame : i = earliest / 256
    · exact hlow hsame
    · omega
  · rintro ⟨hlow, hdiv, hhigh, hb⟩
    refine ⟨n / 256, ?_, (mem_level_one hu (by omega) hle).mpr
      ⟨rfl, fun _ => hlow, fun he => hhigh he, hb⟩⟩
    rw [List.mem_range'_1]
    omega

/-! ### When the search is exact -/

/-- The blocks of a range with a bloom that contains `b`. -/
def matching (x : BloomIndex) (b : LogBloom) (earliest latest : ℕ) : List ℕ :=
  (List.range' earliest (latest + 1 - earliest)).filter fun n => (blockBloom x n).contains b

theorem mem_matching : n ∈ matching x b earliest latest ↔
    earliest ≤ n ∧ n ≤ latest ∧ (blockBloom x n).contains b = true := by
  unfold matching
  rw [List.mem_filter, List.mem_range'_1]
  constructor
  · rintro ⟨⟨hlow, hhigh⟩, hb⟩
    exact ⟨hlow, by omega, hb⟩
  · rintro ⟨hlow, hhigh, hb⟩
    exact ⟨⟨hlow, by omega⟩, hb⟩

/-- No block is found where the loop goes too far, or missed where its bound wraps around. -/
def NoneAstray (x : BloomIndex) (b : LogBloom) (earliest latest : ℕ) : Prop :=
  if latest ≤ 2 ^ 32 - 256 then
    latest % 256 ≠ 0 → ∀ n, n / 256 = latest / 256 + 1 → (blockBloom x n).contains b = false
  else ∀ n, earliest ≤ n → 256 ≤ n → n ≤ latest → (blockBloom x n).contains b = false

/-- **The search gives the matching blocks of the range, in order and once each, exactly when the
256 blocks behind the chunk of the last one do not match, or that is the first of its chunk.** -/
theorem withBlockBloom_eq_iff (x : BloomIndex) (hu : Unions x) (b : LogBloom) {earliest latest : ℕ}
    (hle : earliest ≤ latest) (hlt : latest < 2 ^ 32) :
    withBlockBloom x b earliest latest = matching x b earliest latest ↔
      NoneAstray x b earliest latest := by
  have hext : withBlockBloom x b earliest latest = matching x b earliest latest ↔
      ∀ n, n ∈ withBlockBloom x b earliest latest ↔ n ∈ matching x b earliest latest := by
    refine ⟨fun h n => by rw [h], fun h => ?_⟩
    exact (pairwise_withBlockBloom hle).eq_of_mem_iff
      ((List.pairwise_lt_range' (s := earliest)).filter _) h
  rw [hext]
  simp only [mem_withBlockBloom hu hle, mem_matching]
  unfold NoneAstray
  by_cases hsmall : latest ≤ 2 ^ 32 - 256
  · rw [if_pos hsmall]
    have htop : topChunk latest = (latest + 255) / 256 := by
      unfold topChunk
      omega
    rw [htop]
    constructor
    · intro h hmod n hn
      by_contra hb
      rw [Bool.not_eq_false] at hb
      have := (h n).mp ⟨by omega, by omega, fun he => by omega, hb⟩
      omega
    · intro h n
      constructor
      · rintro ⟨hlow, hdiv, hhigh, hb⟩
        refine ⟨hlow, ?_, hb⟩
        by_contra hgt
        have hnext : n / 256 = latest / 256 + 1 := by
          by_cases he : n / 256 = latest / 256
          · exact absurd (hhigh he) hgt
          · omega
        rw [h (by omega) n hnext] at hb
        cases hb
      · rintro ⟨hlow, hhigh, hb⟩
        exact ⟨hlow, by omega, fun _ => hhigh, hb⟩
  · rw [if_neg hsmall]
    have htop : topChunk latest = 0 := by
      unfold topChunk
      omega
    rw [htop]
    constructor
    · intro h n hlow hn hhigh
      by_contra hb
      rw [Bool.not_eq_false] at hb
      have := (h n).mpr ⟨hlow, hhigh, hb⟩
      omega
    · intro h n
      constructor
      · rintro ⟨hlow, hdiv, hhigh, hb⟩
        exact ⟨hlow, by omega, hb⟩
      · rintro ⟨hlow, hhigh, hb⟩
        refine ⟨hlow, ?_, fun _ => hhigh, hb⟩
        by_contra hdiv
        rw [h n hlow (by omega) hhigh] at hb
        cases hb

/-- An index with one bloom in it, that of the block 256. -/
def lateBloom : BloomIndex := fun id =>
  if id = chunkId 0 16 ∨ id = chunkId 1 1 then Vector.ofFn fun o => if o.val = 0 then 1#2048 else 0
  else Vector.ofFn fun _ => 0

theorem bloomAt_lateBloom (level index o : ℕ) : bloomAt lateBloom level index o =
    if (chunkId level index = 4080 ∨ chunkId level index = 256) ∧ o % 16 = 0 then 1#2048 else 0 := by
  have hget : ∀ f : Fin c_bloomIndexSize → LogBloom, ∀ i, (Vector.ofFn f).get i = f i := fun f i =>
    Vector.getElem_ofFn i.2
  unfold bloomAt blocksBlooms lateBloom
  rw [show chunkId 0 16 = 4080 from rfl, show chunkId 1 1 = 256 from rfl]
  by_cases hid : chunkId level index = 4080 ∨ chunkId level index = 256
  · rw [if_pos hid, hget]
    simp only [hid, true_and]
    rfl
  · rw [if_neg hid, if_neg fun h => hid h.1, hget]

theorem unions_lateBloom : Unions lateBloom := by
  intro index hi o ho
  unfold c_bloomIndexSize at ho ⊢
  simp only [bloomAt_lateBloom]
  have hone : (chunkId 1 index = 4080 ∨ chunkId 1 index = 256) ↔ index = 1 := by
    unfold chunkId
    omega
  have hzero : (chunkId 0 (o + index * 16) = 4080 ∨ chunkId 0 (o + index * 16) = 256) ↔
      o + index * 16 = 16 := by
    unfold chunkId
    omega
  simp only [hone, hzero]
  by_cases hfirst : o + index * 16 = 16
  · rw [if_pos ⟨by omega, by omega⟩]
    simp only [hfirst, true_and]
    decide +kernel
  · rw [if_neg (by omega)]
    simp only [hfirst, false_and, if_false]
    decide +kernel

/-- The search of the blocks 256 and 257 does not go past its chunk's own blocks. -/
theorem withBlockBloom_eq_sample :
    Unions lateBloom ∧ withBlockBloom lateBloom 1#2048 3 256 = matching lateBloom 1#2048 3 256 := by
  refine ⟨unions_lateBloom, (withBlockBloom_eq_iff lateBloom unions_lateBloom 1#2048
    (by decide) (by decide)).mpr ?_⟩
  unfold NoneAstray
  rw [if_pos (by decide)]
  exact fun h => absurd rfl h

/-- The block 256 is found among the first two. -/
theorem lateBloom_stray :
    Unions lateBloom ∧ withBlockBloom lateBloom 1#2048 0 1 = [256] ∧
      matching lateBloom 1#2048 0 1 = [] := by
  refine ⟨unions_lateBloom, ?_, ?_⟩
  · decide +kernel
  · decide +kernel

end BlockChain
end Aleth.Ethereum
