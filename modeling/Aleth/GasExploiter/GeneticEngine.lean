import Aleth.Structure.Runs

/-! Generations of programs (`GeneticEngine.cpp`).

A generation keeps the best programs of the one before and adds children of
others. The loop that adds them counts one where it adds two, so a generation has
more programs than the first. What becomes of two parents, what the programs are
measured at and what is drawn at random is given to a call; where the source reads
past the end of a vector the result is `none`. -/
namespace Aleth.GasExploiter

inductive Metric where
  | throughputMean
  | throughputMedian
  | timeMedian
  | timeMean
deriving DecidableEq

/-- The measurements that programs are compared by. -/
structure ExecutionAggregatedStats (μ : Type) where
  gasPerSecond : μ
  timeMean : μ
  timeMedian : μ
  medianGasPerSecond : μ

structure EvaluatedProgram (π μ : Type) where
  program : π
  evaluation : Option (ExecutionAggregatedStats μ)

/-- The ratios are below one, and one program at least is kept. -/
structure Config where
  populationSize : ℕ
  /-- `floor(size * eliteRatio)`. -/
  eliteCount : ℕ → ℕ
  /-- `ceil(sampleRatio * size)`. -/
  sampleCount : ℕ → ℕ
  cacheResults : Bool
  targetMetric : Metric
  several : 2 ≤ populationSize
  elite : 1 ≤ eliteCount populationSize
  eliteCount_lt : ∀ n, 0 < n → eliteCount n < n
  eliteCount_mono : Monotone eliteCount

namespace Metric
variable {μ : Type}

/-- `getTargetMetric`. -/
def target : Metric → ExecutionAggregatedStats μ → μ
  | throughputMean, stats => stats.gasPerSecond
  | throughputMedian, stats => stats.medianGasPerSecond
  | timeMean, stats => stats.timeMean
  | timeMedian, stats => stats.timeMedian

variable [LinearOrder μ]

/-- The comparison of two evaluations. -/
def compare : Metric → ExecutionAggregatedStats μ → ExecutionAggregatedStats μ → Bool
  | throughputMedian, left, right => left.medianGasPerSecond < right.medianGasPerSecond
  | throughputMean, left, right => left.gasPerSecond < right.gasPerSecond
  | timeMean, left, right => left.timeMean > right.timeMean
  | timeMedian, left, right => left.timeMedian > right.timeMedian

/-- A program that takes more gas a second is worse, and one that takes more time is better. -/
def Worse : Metric → μ → μ → Prop
  | throughputMean, x, y | throughputMedian, x, y => y < x
  | timeMean, x, y | timeMedian, x, y => x < y

theorem compare_iff (m : Metric) (a b : ExecutionAggregatedStats μ) :
    m.compare a b = true ↔ m.Worse (m.target b) (m.target a) := by
  cases m <;> exact decide_eq_true_iff

theorem not_worse_trans {m : Metric} {x y z : μ} (hxy : ¬m.Worse x y) (hyz : ¬m.Worse y z) :
    ¬m.Worse x z := by
  cases m
  all_goals
    simp only [Worse, not_lt] at *
    first
    | exact hxy.trans hyz
    | exact hyz.trans hxy

theorem not_worse_self (m : Metric) (x : μ) : ¬m.Worse x x := by
  cases m <;> exact lt_irrefl x

theorem Worse.asymm {m : Metric} {x y : μ} (h : m.Worse x y) : ¬m.Worse y x := by
  cases m <;> exact lt_asymm h

end Metric

section
variable {π μ : Type}

/-- What a program is compared by. -/
def EvaluatedProgram.value (m : Metric) (p : EvaluatedProgram π μ) : Option μ :=
  p.evaluation.map m.target

theorem EvaluatedProgram.exists_value {m : Metric} {p : EvaluatedProgram π μ}
    (h : p.evaluation.isSome) : ∃ x, p.value m = some x := by
  obtain ⟨stats, hstats⟩ := Option.isSome_iff_exists.mp h
  exact ⟨m.target stats, by rw [EvaluatedProgram.value, hstats, Option.map_some]⟩

theorem filterMap_range {α : Type} (l : List α) :
    ((List.range l.length).filterMap fun index => l[index]?) = l := by
  induction l with
  | nil => rfl
  | cons p l ih =>
    rw [List.length_cons, List.range_succ_eq_map, List.filterMap_cons, List.filterMap_map]
    exact congrArg (List.cons p) ih

/-- What is drawn in a selection: the shuffled indexes and the place among `k` weights. -/
structure Draw where
  indexes : ℕ → List ℕ
  shuffled : ∀ n, (indexes n).Perm (List.range n)
  place : ℕ → ℕ
  place_lt : ∀ k, place k < max k 1

namespace GeneticEngine
variable (cfg : Config)

/-- The evaluations of `computeFitness`. -/
def evaluate (programStats : ℕ → ExecutionAggregatedStats μ)
    (population : List (EvaluatedProgram π μ)) : List (EvaluatedProgram π μ) :=
  population.mapIdx fun i p =>
    if p.evaluation.isNone || !cfg.cacheResults then {p with evaluation := some (programStats i)}
    else p

variable {cfg} {population : List (EvaluatedProgram π μ)} {p : EvaluatedProgram π μ}

theorem length_evaluate (programStats : ℕ → ExecutionAggregatedStats μ) :
    (evaluate cfg programStats population).length = population.length :=
  List.length_mapIdx

theorem evaluate_isSome {programStats : ℕ → ExecutionAggregatedStats μ}
    (hp : p ∈ evaluate cfg programStats population) : p.evaluation.isSome := by
  obtain ⟨i, hi, rfl⟩ := List.mem_mapIdx.mp hp
  split
  case isTrue => rfl
  case isFalse h =>
    rw [Bool.or_eq_true, not_or, Bool.not_eq_true, Option.isNone_eq_false_iff] at h
    exact h.1

/-- A program that has been evaluated keeps its evaluation. -/
theorem mem_evaluate (hcache : cfg.cacheResults = true)
    (programStats : ℕ → ExecutionAggregatedStats μ) (hp : p ∈ population)
    (hsome : p.evaluation.isSome) : p ∈ evaluate cfg programStats population := by
  obtain ⟨i, hi, rfl⟩ := List.getElem_of_mem hp
  refine List.mem_mapIdx.mpr ⟨i, hi, if_neg ?_⟩
  simp [hcache, Option.isNone_iff_eq_none, Option.isSome_iff_ne_none.mp hsome]

theorem shuffled_perm (d : Draw) (population : List (EvaluatedProgram π μ)) :
    ((d.indexes population.length).filterMap fun index => population[index]?).Perm population :=
  ((d.shuffled population.length).filterMap _).trans (.of_eq (filterMap_range population))

end GeneticEngine

variable [LinearOrder μ]

/-- `comparePrograms()`. -/
def comparePrograms (m : Metric) (left right : EvaluatedProgram π μ) : Bool :=
  match left.evaluation, right.evaluation with
  | none, _ => false
  | some _, none => true
  | some a, some b => m.compare a b

variable (π μ) in
/-- `std::sort` with the comparison, which leaves the order of equal programs open. -/
structure Sorting (m : Metric) where
  sort : List (EvaluatedProgram π μ) → List (EvaluatedProgram π μ)
  perm : ∀ l, (sort l).Perm l
  sorted : ∀ l, (sort l).Pairwise fun a b => comparePrograms m b a = false

/-- One turn of the loop: two selections, and `crossOver`, `mutate` and `adjustSize`. -/
structure Turn (π : Type) where
  first : Draw
  second : Draw
  children : π → π → π × π

variable (π μ) in
/-- What a call of `advanceGeneration` meets. -/
structure Generation where
  programStats : ℕ → ExecutionAggregatedStats μ
  turns : ℕ → Turn π

variable (π μ) in
structure GeneticEngine where
  m_population : List (EvaluatedProgram π μ)
  /-- The best values. -/
  m_stats : List μ

namespace GeneticEngine
variable (cfg : Config) (s : Sorting π μ cfg.targetMetric)

/-- The engine as it is made, with its initial programs. -/
def start (initial : ℕ → π) : GeneticEngine π μ where
  m_population := (List.range cfg.populationSize).map fun i => ⟨initial i, none⟩
  m_stats := []

/-- `tournamentSelection(population, config)`. -/
def tournamentSelection (d : Draw) (population : List (EvaluatedProgram π μ)) :
    Option (EvaluatedProgram π μ) :=
  let k := cfg.sampleCount population.length
  let shuffled := (d.indexes population.length).filterMap fun index => population[index]?
  let candidates := (shuffled.filter fun p => p.evaluation.isSome).take k
  (s.sort candidates)[d.place k]?

/-- One turn of the search of `computeFitness` for the best program. -/
def better (m : Metric) (best : Option (EvaluatedProgram π μ)) (p : EvaluatedProgram π μ) :
    Option (EvaluatedProgram π μ) :=
  match best with
  | none => some p
  | some b => if comparePrograms m p b then some p else some b

def bestProgram (m : Metric) (population : List (EvaluatedProgram π μ)) :
    Option (EvaluatedProgram π μ) :=
  population.foldl (better m) none

/-- The loop over the new programs. -/
def fill (turns : ℕ → Turn π) (population : List (EvaluatedProgram π μ)) :
    (left i : ℕ) → Option (List (EvaluatedProgram π μ))
  | 0, _ => some []
  | left + 1, i => do
    let parent1 ← tournamentSelection cfg s (turns i).first population
    let parent2 ← tournamentSelection cfg s (turns i).second population
    let (child1, child2) := (turns i).children parent1.program parent2.program
    let rest ← fill turns population left (i + 1)
    return ⟨child1, none⟩ :: ⟨child2, none⟩ :: rest

def advanceGeneration (e : GeneticEngine π μ) (g : Generation π μ) :
    Option (GeneticEngine π μ) := do
  let population := evaluate cfg g.programStats e.m_population
  let best ← bestProgram cfg.targetMetric population
  let stats ← best.evaluation
  let sorted := s.sort population
  let eliteCount := cfg.eliteCount sorted.length
  let children ← fill cfg s g.turns sorted (cfg.populationSize - eliteCount) eliteCount
  return {
    m_population := sorted.take eliteCount ++ children
    m_stats := e.m_stats ++ [cfg.targetMetric.target stats]}

/-- A call as the step of a run. -/
def step (e : GeneticEngine π μ) (g : Generation π μ) : GeneticEngine π μ :=
  (advanceGeneration cfg s e g).getD e

variable {cfg s} {m : Metric} {p q : EvaluatedProgram π μ} {x y : μ}
  {population : List (EvaluatedProgram π μ)}

/-! ### The best program -/

theorem comparePrograms_iff (hp : p.value m = some x) (hq : q.value m = some y) :
    comparePrograms m p q = true ↔ m.Worse y x := by
  obtain ⟨a, ha, rfl⟩ := Option.map_eq_some_iff.mp hp
  obtain ⟨b, hb, rfl⟩ := Option.map_eq_some_iff.mp hq
  unfold comparePrograms
  rw [ha, hb]
  exact Metric.compare_iff m a b

/-- The search goes on from a program to one that is not worse than it or the rest. -/
theorem foldl_best (hp : p.value m = some x) {l : List (EvaluatedProgram π μ)}
    (hl : ∀ q ∈ l, q.evaluation.isSome) : ∃ b v,
    l.foldl (better m) (some p) = some b ∧ b ∈ p :: l ∧ b.value m = some v ∧ ¬m.Worse v x ∧
      ∀ q ∈ l, ∀ y, q.value m = some y → ¬m.Worse v y := by
  induction l generalizing p x with
  | nil => exact ⟨p, x, rfl, List.mem_cons_self, hp, m.not_worse_self x, by simp⟩
  | cons q l ih =>
    obtain ⟨y, hq⟩ := EvaluatedProgram.exists_value (m := m) (hl q List.mem_cons_self)
    have hrest : ∀ q ∈ l, q.evaluation.isSome := fun r hr => hl r (List.mem_cons_of_mem _ hr)
    rw [List.foldl_cons, better]
    by_cases hbetter : comparePrograms m q p = true
    · obtain ⟨b, v, hbest, hmem, hb, hvy, hall⟩ := ih hq hrest
      have hxy := (comparePrograms_iff hq hp).mp hbetter
      refine ⟨b, v, by rw [if_pos hbetter, hbest], List.mem_cons_of_mem _ hmem, hb,
        Metric.not_worse_trans hvy hxy.asymm, ?_⟩
      intro r hr z hz
      rcases List.mem_cons.mp hr with rfl | hr
      · rw [hq] at hz
        obtain rfl := Option.some.inj hz
        exact hvy
      · exact hall r hr z hz
    · obtain ⟨b, v, hbest, hmem, hb, hvx, hall⟩ := ih hp hrest
      have hyx := mt (comparePrograms_iff hq hp).mpr hbetter
      refine ⟨b, v, by rw [if_neg hbetter, hbest], ?_, hb, hvx, ?_⟩
      · exact (List.mem_cons.mp hmem).elim (fun h => h ▸ List.mem_cons_self) fun h =>
          List.mem_cons_of_mem _ (List.mem_cons_of_mem _ h)
      intro r hr z hz
      rcases List.mem_cons.mp hr with rfl | hr
      · rw [hq] at hz
        obtain rfl := Option.some.inj hz
        exact Metric.not_worse_trans hvx hyx
      · exact hall r hr z hz

/-- No program is better than the one that is found. -/
theorem bestProgram_eq (hne : population ≠ [])
    (hall : ∀ p ∈ population, p.evaluation.isSome) : ∃ b v,
    bestProgram m population = some b ∧ b ∈ population ∧ b.value m = some v ∧
      ∀ q ∈ population, ∀ y, q.value m = some y → ¬m.Worse v y := by
  cases population with
  | nil => exact absurd rfl hne
  | cons p l =>
    obtain ⟨x, hp⟩ := EvaluatedProgram.exists_value (m := m) (hall p List.mem_cons_self)
    obtain ⟨b, v, hbest, hmem, hb, hvx, hrest⟩ :=
      foldl_best hp fun q hq => hall q (List.mem_cons_of_mem _ hq)
    refine ⟨b, v, hbest, hmem, hb, fun q hq y hy => ?_⟩
    rcases List.mem_cons.mp hq with rfl | hq
    · rw [hp] at hy
      obtain rfl := Option.some.inj hy
      exact hvx
    · exact hrest q hq y hy

/-! ### Selection -/

/-- A selected program is one of the population. -/
theorem tournamentSelection_mem {d : Draw} (h : tournamentSelection cfg s d population = some p) :
    p ∈ population := by
  have hmem := (s.perm _).mem_iff.mp (List.mem_of_getElem? h)
  exact (shuffled_perm d population).mem_iff.mp (List.mem_filter.mp (List.mem_of_mem_take hmem)).1

/-- Where a sample is neither empty nor more than all, a program is selected. -/
theorem tournamentSelection_isSome (hall : ∀ p ∈ population, p.evaluation.isSome)
    (hpos : 0 < cfg.sampleCount population.length)
    (hle : cfg.sampleCount population.length ≤ population.length) (d : Draw) :
    (tournamentSelection cfg s d population).isSome := by
  have hperm := shuffled_perm d population
  unfold tournamentSelection
  dsimp only
  rw [List.filter_eq_self.mpr fun p hp => hall p (hperm.mem_iff.mp hp)]
  have hlt := d.place_lt (cfg.sampleCount population.length)
  rw [List.getElem?_eq_getElem]
  · rfl
  · rw [(s.perm _).length_eq, List.length_take, hperm.length_eq]
    omega

/-! ### One generation -/

theorem length_fill {turns : ℕ → Turn π} {left i : ℕ} {children : List (EvaluatedProgram π μ)}
    (h : fill cfg s turns population left i = some children) : children.length = 2 * left := by
  induction left generalizing i children with
  | zero =>
    obtain rfl := Option.some.inj h
    rfl
  | succ left ih =>
    simp only [fill, Option.bind_eq_bind, Option.bind_eq_some_iff] at h
    obtain ⟨p, -, q, -, rest, hrest, hsome⟩ := h
    obtain rfl := Option.some.inj hsome
    rw [List.length_cons, List.length_cons, ih hrest]
    omega

/-- What a call that goes through makes. -/
theorem advanceGeneration_eq_some {e e' : GeneticEngine π μ} {g : Generation π μ}
    (h : advanceGeneration cfg s e g = some e') :
    let sorted := s.sort (evaluate cfg g.programStats e.m_population)
    let eliteCount := cfg.eliteCount e.m_population.length
    ∃ best v children,
      bestProgram cfg.targetMetric (evaluate cfg g.programStats e.m_population) = some best ∧
      best.value cfg.targetMetric = some v ∧
      fill cfg s g.turns sorted (cfg.populationSize - eliteCount) eliteCount = some children ∧
      e' = ⟨sorted.take eliteCount ++ children, e.m_stats ++ [v]⟩ := by
  simp only [advanceGeneration, Option.bind_eq_bind, Option.bind_eq_some_iff,
    (s.perm _).length_eq, length_evaluate] at h
  obtain ⟨best, hbest, stats, hstats, children, hchildren, hsome⟩ := h
  exact ⟨best, _, children, hbest, by rw [EvaluatedProgram.value, hstats, Option.map_some],
    hchildren, (Option.some.inj hsome).symm⟩

/-- Each program that is not kept is made up for by two. -/
theorem length_advanceGeneration {e e' : GeneticEngine π μ} {g : Generation π μ}
    (h : advanceGeneration cfg s e g = some e') : e'.m_population.length =
      cfg.eliteCount e.m_population.length +
        2 * (cfg.populationSize - cfg.eliteCount e.m_population.length) := by
  obtain ⟨best, v, children, hbest, -, hchildren, rfl⟩ := advanceGeneration_eq_some h
  have hpos : 0 < e.m_population.length := by
    refine Nat.pos_of_ne_zero fun hzero => ?_
    rw [List.length_eq_zero_iff.mp hzero] at hbest
    cases hbest
  have hlt := cfg.eliteCount_lt _ hpos
  dsimp only
  rw [List.length_append, List.length_take, (s.perm _).length_eq, length_evaluate,
    length_fill hchildren]
  omega

theorem fill_isSome (hall : ∀ p ∈ population, p.evaluation.isSome)
    (hpos : 0 < cfg.sampleCount population.length)
    (hle : cfg.sampleCount population.length ≤ population.length) (turns : ℕ → Turn π)
    (left i : ℕ) : (fill cfg s turns population left i).isSome := by
  induction left generalizing i with
  | zero => rfl
  | succ left ih =>
    obtain ⟨p, hp⟩ := Option.isSome_iff_exists.mp
      (tournamentSelection_isSome (s := s) hall hpos hle (turns i).first)
    obtain ⟨q, hq⟩ := Option.isSome_iff_exists.mp
      (tournamentSelection_isSome (s := s) hall hpos hle (turns i).second)
    obtain ⟨rest, hrest⟩ := Option.isSome_iff_exists.mp (ih (i + 1))
    simp [fill, hp, hq, hrest]

/-- Where a sample is neither empty nor more than all, a call goes through. -/
theorem advanceGeneration_isSome (e : GeneticEngine π μ) (g : Generation π μ)
    (hpos : 0 < cfg.sampleCount e.m_population.length)
    (hle : cfg.sampleCount e.m_population.length ≤ e.m_population.length) :
    (advanceGeneration cfg s e g).isSome := by
  have hlen : (s.sort (evaluate cfg g.programStats e.m_population)).length =
      e.m_population.length := by rw [(s.perm _).length_eq, length_evaluate]
  have hne : evaluate cfg g.programStats e.m_population ≠ [] := by
    rw [← List.length_pos_iff, length_evaluate]
    omega
  obtain ⟨best, v, hbest, -, hv, -⟩ := bestProgram_eq (m := cfg.targetMetric) hne
    fun p hp => evaluate_isSome hp
  obtain ⟨stats, hstats, -⟩ := Option.map_eq_some_iff.mp hv
  have hfill : (fill cfg s g.turns (s.sort (evaluate cfg g.programStats e.m_population))
      (cfg.populationSize - cfg.eliteCount e.m_population.length)
      (cfg.eliteCount e.m_population.length)).isSome :=
    fill_isSome (fun p hp => evaluate_isSome ((s.perm _).mem_iff.mp hp)) (hlen ▸ hpos)
      (by rw [hlen]; exact hle) g.turns _ _
  obtain ⟨children, hchildren⟩ := Option.isSome_iff_exists.mp hfill
  simp [advanceGeneration, hbest, hstats, hlen, hchildren]

/-! ### The best value -/

/-- The population is not smaller than the first one, no value is worse than the one before, and
the last has been kept. -/
structure Improving (cfg : Config) (e : GeneticEngine π μ) : Prop where
  populated : cfg.populationSize ≤ e.m_population.length
  chain : e.m_stats.IsChain fun old new => ¬cfg.targetMetric.Worse new old
  kept : ∀ v, e.m_stats.getLast? = some v → ∃ p ∈ e.m_population, ∃ x,
    p.value cfg.targetMetric = some x ∧ ¬cfg.targetMetric.Worse x v

theorem improving_start (initial : ℕ → π) :
    Improving cfg (start cfg initial : GeneticEngine π μ) where
  populated := by simp [start]
  chain := .nil
  kept v h := by cases h

/-- The first of the sorted programs is as good as the best. -/
theorem head_kept (hne : population ≠ []) (hall : ∀ p ∈ population, p.evaluation.isSome)
    {best : EvaluatedProgram π μ} {v : μ} (hmem : best ∈ population)
    (hv : best.value cfg.targetMetric = some v) {n : ℕ} (hn : 0 < n) :
    ∃ p ∈ (s.sort population).take n, ∃ x,
      p.value cfg.targetMetric = some x ∧ ¬cfg.targetMetric.Worse x v := by
  have hperm := s.perm population
  have hsorted := s.sorted population
  cases hsort : s.sort population with
  | nil =>
    rw [hsort] at hperm
    exact absurd hperm.nil_eq.symm hne
  | cons p l =>
    rw [hsort] at hperm hsorted
    obtain ⟨n, rfl⟩ := Nat.exists_eq_succ_of_ne_zero hn.ne'
    obtain ⟨x, hx⟩ := EvaluatedProgram.exists_value (m := cfg.targetMetric)
      (hall p (hperm.mem_iff.mp List.mem_cons_self))
    refine ⟨p, List.mem_cons_self, x, hx, ?_⟩
    rcases List.mem_cons.mp (hperm.mem_iff.mpr hmem) with rfl | hl
    · rw [hx] at hv
      obtain rfl := Option.some.inj hv
      exact cfg.targetMetric.not_worse_self x
    · intro hworse
      have hbetter := (comparePrograms_iff hv hx).mpr hworse
      rw [(List.pairwise_cons.mp hsorted).1 best hl] at hbetter
      cases hbetter

/-- A generation is not worse than the one before. -/
theorem Improving.advanceGeneration (hcache : cfg.cacheResults = true) {e e' : GeneticEngine π μ}
    {g : Generation π μ} (he : Improving cfg e) (h : advanceGeneration cfg s e g = some e') :
    Improving cfg e' := by
  have hlen := length_advanceGeneration h
  obtain ⟨best, v, children, hbest, hv, -, rfl⟩ := advanceGeneration_eq_some h
  have hall : ∀ p ∈ evaluate cfg g.programStats e.m_population, p.evaluation.isSome :=
    fun p hp => evaluate_isSome hp
  have hne : evaluate cfg g.programStats e.m_population ≠ [] := by
    rw [← List.length_pos_iff, length_evaluate]
    have hseveral := cfg.several
    have hpopulated := he.populated
    omega
  obtain ⟨b, w, hb, hmem, hw, hleast⟩ := bestProgram_eq (m := cfg.targetMetric) hne hall
  obtain rfl := Option.some.inj (hbest.symm.trans hb)
  obtain rfl := Option.some.inj (hv.symm.trans hw)
  have helite : 0 < cfg.eliteCount e.m_population.length :=
    cfg.elite.trans (cfg.eliteCount_mono he.populated)
  constructor
  case populated =>
    rw [hlen]
    omega
  case chain =>
    refine he.chain.append (.singleton v) fun old hold new hnew => ?_
    obtain rfl : new = v := by simpa using hnew.symm
    obtain ⟨p, hp, x, hx, hold'⟩ := he.kept old hold
    obtain ⟨stats, hstats, -⟩ := Option.map_eq_some_iff.mp hx
    have hkept := mem_evaluate hcache g.programStats hp (by rw [hstats]; rfl)
    exact Metric.not_worse_trans (hleast p hkept x hx) hold'
  case kept =>
    intro u hu
    obtain rfl : u = v := by simpa using hu.symm
    obtain ⟨p, hp, x, hx⟩ := head_kept (s := s) hne hall hmem hv helite
    exact ⟨p, List.mem_append_left _ hp, x, hx⟩

theorem Improving.step (hcache : cfg.cacheResults = true) {e : GeneticEngine π μ}
    (he : Improving cfg e) (g : Generation π μ) : Improving cfg (step cfg s e g) := by
  unfold GeneticEngine.step
  cases h : GeneticEngine.advanceGeneration cfg s e g with
  | none => exact he
  | some e' => exact he.advanceGeneration hcache h

/-- The best value does not get worse in a run. -/
theorem improving_run (hcache : cfg.cacheResults = true) (initial : ℕ → π)
    (l : List (Generation π μ)) : Improving cfg (l.foldl (step cfg s) (start cfg initial)) := by
  induction l using List.reverseRecOn with
  | nil => exact improving_start initial
  | append_singleton l g ih =>
    rw [List.foldl_concat]
    exact ih.step hcache g

/-! ### The size of a generation -/

variable (cfg s) in
/-- A call goes through, all selected programs are in the population, which keeps its size, and its
best value is not worse than the one before. -/
structure Keeps (e : GeneticEngine π μ) (g : Generation π μ) : Prop where
  selected : ∀ i, cfg.eliteCount e.m_population.length ≤ i → i < cfg.populationSize →
    ∀ d, d = (g.turns i).first ∨ d = (g.turns i).second →
      ∃ p ∈ evaluate cfg g.programStats e.m_population, tournamentSelection cfg s d
        (s.sort (evaluate cfg g.programStats e.m_population)) = some p
  sized : ∃ e', advanceGeneration cfg s e g = some e' ∧
    e'.m_population.length = cfg.populationSize
  best : ∀ e', advanceGeneration cfg s e g = some e' →
    e'.m_stats.IsChain fun old new => ¬cfg.targetMetric.Worse new old

/-- **Generations keep their size when and only when there are none**: the first has more programs
than it should. -/
theorem keeps_iff (cfg : Config) (s : Sorting π μ cfg.targetMetric) (initial : ℕ → π)
    (l : List (Generation π μ)) :
    Runs.Along (step cfg s) (Keeps cfg s) (start cfg initial) l ↔ l = [] := by
  cases l with
  | nil => exact iff_of_true trivial rfl
  | cons g l =>
    refine iff_of_false (fun h => ?_) (List.cons_ne_nil g l)
    obtain ⟨e', he', hlen⟩ := h.1.sized
    rw [length_advanceGeneration he'] at hlen
    have hstart : (start cfg initial : GeneticEngine π μ).m_population.length =
        cfg.populationSize := by simp [start]
    have hlt := cfg.eliteCount_lt cfg.populationSize (by have := cfg.several; omega)
    rw [hstart] at hlen
    omega

/-! ### Two programs -/

theorem not_better_trans {a b c : EvaluatedProgram π μ} (hab : (!comparePrograms m b a) = true)
    (hbc : (!comparePrograms m c b) = true) : (!comparePrograms m c a) = true := by
  unfold comparePrograms at *
  cases hc : c.evaluation with
  | none => rfl
  | some z =>
    cases hb : b.evaluation with
    | none => simp [hb, hc] at hbc
    | some y =>
      cases ha : a.evaluation with
      | none => simp [ha, hb] at hab
      | some x =>
        simp only [ha, hb, hc, Bool.not_eq_true', ← Bool.not_eq_true, Metric.compare_iff] at *
        exact Metric.not_worse_trans hab hbc

theorem not_better_total (a b : EvaluatedProgram π μ) :
    ((!comparePrograms m b a) || !comparePrograms m a b) = true := by
  unfold comparePrograms
  cases ha : a.evaluation with
  | none => simp
  | some x =>
    cases hb : b.evaluation with
    | none => rfl
    | some y =>
      simp only [Bool.or_eq_true, Bool.not_eq_true', ← Bool.not_eq_true, Metric.compare_iff]
      exact or_iff_not_imp_left.mpr fun h => (not_not.mp h).asymm

/-- A sort of the standard kind, which leaves equal programs in their order. -/
def mergeSorting (m : Metric) : Sorting π μ m where
  sort l := l.mergeSort fun a b => !comparePrograms m b a
  perm l := List.mergeSort_perm l _
  sorted l := by
    have hsorted : (l.mergeSort fun a b => !comparePrograms m b a).Pairwise
        fun a b => (!comparePrograms m b a) = true :=
      List.pairwise_mergeSort (fun a b c => not_better_trans) not_better_total l
    simpa using hsorted

/-- Half of the programs are kept. -/
def halfElite : Config where
  populationSize := 2
  eliteCount n := n / 2
  sampleCount n := (n + 4) / 5
  cacheResults := true
  targetMetric := .throughputMedian
  several := le_rfl
  elite := le_rfl
  eliteCount_lt _ hn := Nat.div_lt_self hn Nat.one_lt_two
  eliteCount_mono _ _ h := Nat.div_le_div_right h

/-- Nothing is shuffled, and the best of a sample is selected. -/
def firstDraw : Draw where
  indexes := List.range
  shuffled n := .refl _
  place _ := 0
  place_lt k := by omega

/-- One of two programs is kept, and has two children beside it. -/
theorem halfElite_grows : ¬Keeps halfElite (mergeSorting _) (start halfElite fun _ => ())
    (⟨fun i => ⟨i, i, i, i⟩, fun _ => ⟨firstDraw, firstDraw, fun p q => (p, q)⟩⟩ :
      Generation Unit ℕ) := fun h => by
  obtain ⟨e', he', hlen⟩ := h.sized
  rw [length_advanceGeneration he'] at hlen
  revert hlen
  decide

end GeneticEngine
end
end Aleth.GasExploiter
